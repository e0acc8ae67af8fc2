import Retarget.ClassFile.Build
import Retarget.ClassFile.Site
import Retarget.Renaming
import Std.Data.ExtTreeMap

/-!
Exchanging the names of classes in a class file. Every site is read, its text
is exchanged by the rules of its kind, and if that changes the text the site is
led to an entry with the new text, which is added if it is not in the pool. No
text is ever edited, so strings that happen to spell the name of a class stay.
A text that several sites of one kind lead to is exchanged once.

Constants and descriptors have to be proper symbols. Text in attributes that is
not is left as it is, with a warning.
-/

set_option autoImplicit false

namespace Retarget

/-- What a renaming did: how many sites lead to another text, and how many warnings there were. -/
structure Tally where
  renamed : Nat
  warnings : Nat
  deriving DecidableEq

namespace Tally

def add (a b : Tally) : Tally := ⟨a.renamed + b.renamed, a.warnings + b.warnings⟩

end Tally

/-- A text by its index, and the kind of symbol it is read as. -/
structure Reading where
  kind : SymbolForm
  index : UInt16
  deriving DecidableEq

namespace Reading

/-- The kind counts first. -/
instance : Ord Reading := ⟨compareLex (compareOn fun r => r.kind.rank) (compareOn index)⟩

private theorem compare_eq (a b : Reading) :
    compare a b = compareLex (compareOn fun r => r.kind.rank) (compareOn index) a b := rfl

instance : Std.TransOrd Reading :=
  inferInstanceAs (Std.TransCmp (compareLex (compareOn fun r => r.kind.rank) (compareOn index)))

instance : Std.LawfulEqOrd Reading where
  eq_of_compare {a b} h := by
    rw [compare_eq, compareLex_eq_eq, compareOn, compareOn, Std.LawfulEqOrd.compare_eq_iff_eq,
      Std.LawfulEqOrd.compare_eq_iff_eq] at h
    obtain ⟨kind, index⟩ := a
    obtain ⟨kind', index'⟩ := b
    cases kind <;> cases kind' <;> simp_all [SymbolForm.rank]

end Reading

/-- What is known of texts read so far: the index of the exchanged text, none if the text stays as
it is. -/
abbrev Memo := Std.ExtTreeMap Reading (Option UInt16)

namespace ClassFile

/-- Where sites of a kind that lead to the text at `index` are to lead instead: to no other text, or
to the exchanged text, which is added if it is not in the pool. A text that is no proper symbol
gives its defect. -/
def target (map : Bytes → Option Bytes) (kind : SymbolForm) (index : UInt16) :
    Edit (Except Defect (Option UInt16)) := fun c =>
  match c.pool.text index with
  | .error fault => .error fault c
  | .ok text =>
    match Symbol.substitute kind map text with
    | .error defect => .ok (.error defect) c
    | .ok none => .ok (.ok none) c
    | .ok (some new) =>
      match onPool (Pool.intern new) c with
      | .error fault c => .error fault c
      | .ok index c => .ok (.ok (some index)) c

/-- Leads a location to the text at an index, if there is one, and passes the memo on. -/
def leadTo (location : Location) (memo : Memo) : Option UInt16 → Edit (Tally × Memo)
  | none, c => .ok (⟨0, 0⟩, memo) c
  | some index, c =>
    match setIndexAt location index c with
    | .ok () c => .ok (⟨1, 0⟩, memo) c
    | .error fault c => .error fault c

/-- Exchanges the names in the text of one site. A text exchanged before is not read again. -/
def renameSite (map : Bytes → Option Bytes) (site : Site) (memo : Memo) :
    Edit (Tally × Memo) := fun c =>
  match c.indexAt site.location with
  | .error fault => .error fault c
  | .ok index =>
    match memo[Reading.mk site.kind index]? with
    | some known => leadTo site.location memo known c
    | none =>
      match target map site.kind index c with
      | .error fault c => .error fault c
      | .ok (.error defect) c =>
        if site.location.isSlot then .ok (⟨0, 1⟩, memo) c else .error (.malformed defect) c
      | .ok (.ok found) c =>
        leadTo site.location (memo.insert ⟨site.kind, index⟩ found) found c

def renameSites (map : Bytes → Option Bytes) : List Site → Tally → Memo → Edit Tally
  | [], tally, _, c => .ok tally c
  | site :: sites, tally, memo, c =>
    match renameSite map site memo c with
    | .ok (t, memo) c => renameSites map sites (tally.add t) memo c
    | .error fault c => .error fault c

/-- What messages call the class: the name it declares, or the index it should be under. -/
def title (c : ClassFile) : String :=
  match c.binaryName with
  | .ok name => name
  | .error _ => s!"<this_class #{c.thisClass}>"

def rename (newNames : Renaming) : Edit Tally := fun c =>
  if newNames.isEmpty then .ok ⟨0, 0⟩ c
  else
    match c.sites with
    | .error fault => .error (.rename c.title fault) c
    | .ok (sites, warnings) =>
      match renameSites newNames.getText? sites ⟨0, warnings⟩ ∅ c with
      | .ok tally c => .ok tally c
      | .error fault c => .error (.rename c.title fault) c

/-- The bytes of a class file with all names exchanged. Bytes in which no name changes are given
back as they are. -/
def renameBytes (newNames : Renaming) (bytes : Bytes) : Except Fault Bytes :=
  match ofBytes bytes with
  | .error fault => .error fault
  | .ok c =>
    match c.rename newNames with
    | .error fault _ => .error fault
    | .ok tally c => if tally.renamed = 0 then .ok bytes else c.toBytes

end ClassFile

end Retarget
