import Mathlib.Data.String.Basic
import Retarget.Proofs.AccessorNames
import Std.Data.ExtHashMap

/-!
A renaming kept in two tables, one for names and one for the texts they are
written as. Every new name goes into both, and a class that would keep its name
into neither. So they never differ: after any requests the texts tell what the
names tell, which is what was given last.
-/

set_option autoImplicit false

namespace Retarget.Renaming

open ModifiedUtf8 (encode)

/-- New names in two tables: by name, in the order of names, and by text. -/
structure Twofold where
  names : Std.ExtTreeMap String String
  texts : Std.ExtHashMap Bytes Bytes

namespace Twofold

def empty : Twofold := ⟨∅, ∅⟩

def insert (old new : String) (t : Twofold) : Bool × Twofold :=
  if old = new then (false, t)
  else (true, ⟨t.names.insert old new, t.texts.insert (encode old) (encode new)⟩)

def ofList (pairs : List (String × String)) : Twofold :=
  pairs.foldl (fun t pair => (t.insert pair.1 pair.2).2) empty

def ofPackages (libraries : List String) (target : String) : Twofold :=
  libraries.foldl (fun t library =>
    if library = target then t
    else ResourceKind.all.foldl
      (fun t kind => (t.insert (kind.accessor library) (kind.accessor target)).2) t) empty

end Twofold

/-- What is asked of a renaming. Two of the requests begin a new one. -/
inductive Request where
  | ofPackages (libraries : List String) (target : String)
  | ofList (pairs : List (String × String))
  | insert (old new : String)

namespace Request

def apply : Request → Renaming → Renaming
  | ofPackages libraries target, _ => (Renaming.ofPackages libraries target).1
  | ofList pairs, _ => Renaming.ofList pairs
  | insert old new, t => (t.insert old new).2

def applyTwofold : Request → Twofold → Twofold
  | ofPackages libraries target, _ => .ofPackages libraries target
  | ofList pairs, _ => .ofList pairs
  | insert old new, t => (t.insert old new).2

/-- The pairs given since the renaming was begun, if those were given before the request. -/
def given : Request → List (String × String) → List (String × String)
  | ofPackages libraries target, _ =>
    (libraries.filter (· ≠ target)).flatMap (accessorPairs target)
  | ofList pairs, _ => pairs
  | insert old new, pairs => pairs ++ [(old, new)]

end Request

def after (requests : List Request) : Renaming :=
  requests.foldl (fun t request => request.apply t) empty

def Twofold.after (requests : List Request) : Twofold :=
  requests.foldl (fun t request => request.applyTwofold t) empty

def given (requests : List Request) : List (String × String) :=
  requests.foldl (fun pairs request => request.given pairs) []

/-- The last of the pairs for a name, those aside that would keep it. -/
def LastGiven (pairs : List (String × String)) (name new : String) : Prop :=
  ∃ before later, pairs = before ++ (name, new) :: later ∧ name ≠ new ∧
    ∀ value, (name, value) ∈ later → value = name

variable {t : Renaming} {two : Twofold} {pairs : List (String × String)} {name new : String}
  {text : Bytes}

private theorem lastGiven_concat {old value : String} :
    LastGiven (pairs ++ [(old, value)]) name new ↔
    if old = name ∧ old ≠ value then value = new else LastGiven pairs name new := by
  constructor
  · rintro ⟨before, later, hpairs, hne, hlater⟩
    rcases List.eq_nil_or_concat' later with rfl | ⟨later, last, rfl⟩
    · obtain ⟨-, hlast⟩ := List.append_inj' hpairs rfl
      cases hlast
      rw [if_pos ⟨rfl, hne⟩]
    · rw [← List.cons_append, ← List.append_assoc] at hpairs
      obtain ⟨rfl, hlast⟩ := List.append_inj' hpairs rfl
      cases hlast
      rw [if_neg]
      · exact ⟨before, later, rfl, hne, fun v hv => hlater v (List.mem_append_left _ hv)⟩
      · rintro ⟨rfl, hvalue⟩
        exact hvalue (hlater value (List.mem_append_right _ (List.mem_singleton_self _))).symm
  · split_ifs with hlast
    · rintro rfl
      obtain ⟨rfl, hne⟩ := hlast
      exact ⟨pairs, [], rfl, hne, fun _ hv => absurd hv List.not_mem_nil⟩
    · rintro ⟨before, later, rfl, hne, hlater⟩
      refine ⟨before, later ++ [(old, value)], by simp, hne, fun v hv => ?_⟩
      rcases List.mem_append.mp hv with hv | hv
      · exact hlater v hv
      · cases List.mem_singleton.mp hv
        by_contra hvalue
        exact hlast ⟨rfl, Ne.symm hvalue⟩

private theorem ofList_concat (pairs : List (String × String)) (old value : String) :
    ofList (pairs ++ [(old, value)]) = ((ofList pairs).insert old value).2 := by
  rw [ofList, List.foldl_append]
  rfl

private theorem get?_ofList_iff :
    (ofList pairs).get? name = some new ↔ LastGiven pairs name new := by
  induction pairs using List.reverseRecOn with
  | nil => simp [ofList, get?, empty, LastGiven]
  | append_singleton pairs pair ih =>
    rw [ofList_concat, get?_insert, lastGiven_concat, ← ih]
    split_ifs <;> simp

private theorem after_eq (requests : List Request) : after requests = ofList (given requests) := by
  induction requests using List.reverseRecOn with
  | nil => rfl
  | append_singleton requests request ih =>
    rw [after, given, List.foldl_concat, List.foldl_concat, ← after, ← given]
    cases request with
    | ofPackages libraries target => rfl
    | ofList pairs => rfl
    | insert old new =>
      rw [Request.apply, Request.given, ofList_concat, ih]

private theorem getText?_eq_some_iff {newText : Bytes} : t.getText? text = some newText ↔
    ∃ name new, t.get? name = some new ∧ encode name = text ∧ encode new = newText := by
  constructor
  · intro h
    rw [getText?] at h
    split at h
    · cases h
    · next name hname =>
      split at h
      · cases h
      · next new hnew =>
        split_ifs at h with htext
        exact ⟨name, new, hnew, htext, Option.some.inj h⟩
  · rintro ⟨name, new, hnew, rfl, rfl⟩
    rw [getText?, ModifiedUtf8.decode_encode]
    simp only [hnew, if_true]

private theorem getText?_encode (t : Renaming) (name : String) :
    t.getText? (encode name) = (t.get? name).map encode := by
  ext newText
  rw [getText?_eq_some_iff, Option.map_eq_some_iff]
  constructor
  · rintro ⟨other, new, hnew, hother, rfl⟩
    cases ModifiedUtf8.encode_injective hother
    exact ⟨new, hnew, rfl⟩
  · rintro ⟨new, hnew, rfl⟩
    exact ⟨name, new, hnew, rfl, rfl⟩

private theorem getText?_insert (old value : String) (t : Renaming) (text : Bytes) :
    (t.insert old value).2.getText? text =
      if encode old = text ∧ old ≠ value then some (encode value) else t.getText? text := by
  ext newText
  rw [getText?_eq_some_iff]
  simp only [get?_insert]
  split_ifs with hold
  · obtain ⟨rfl, hne⟩ := hold
    constructor
    · rintro ⟨name, new, hnew, hname, rfl⟩
      cases ModifiedUtf8.encode_injective hname
      rw [if_pos ⟨rfl, hne⟩] at hnew
      rw [Option.some.inj hnew]
    · intro hvalue
      exact ⟨old, value, if_pos ⟨rfl, hne⟩, rfl, Option.some.inj hvalue⟩
  · rw [getText?_eq_some_iff]
    refine exists_congr fun name => exists_congr fun new => and_congr_left fun hname => ?_
    rw [if_neg fun hsame : old = name ∧ old ≠ value => hold ⟨hsame.1 ▸ hname.1, hsame.2⟩]

structure Twofold.Agrees (two : Twofold) (t : Renaming) : Prop where
  names : two.names = t.entries
  texts : ∀ text, two.texts[text]? = t.getText? text

namespace Twofold.Agrees

private theorem empty : Twofold.empty.Agrees Renaming.empty where
  names := rfl
  texts text := by
    rw [Twofold.empty, Std.ExtHashMap.getElem?_empty, eq_comm, Option.eq_none_iff_forall_ne_some]
    intro newText h
    obtain ⟨name, new, hnew, -⟩ := getText?_eq_some_iff.mp h
    simp [get?, Renaming.empty] at hnew

private theorem insert (h : two.Agrees t) (old new : String) :
    (two.insert old new).2.Agrees (t.insert old new).2 where
  names := by
    rw [Twofold.insert, Renaming.insert]
    split_ifs
    · exact h.names
    · exact congrArg (·.insert old new) h.names
  texts text := by
    rw [getText?_insert, ← h.texts, Twofold.insert]
    by_cases hsame : old = new
    · rw [if_pos hsame, if_neg fun hne => hne.2 hsame]
    · rw [if_neg hsame]
      simp only [Std.ExtHashMap.getElem?_insert, beq_iff_eq, ne_eq, hsame, not_false_eq_true,
        and_true]

private theorem insertAll (h : two.Agrees t) (pairs : List (String × String)) :
    (pairs.foldl (fun t pair => (t.insert pair.1 pair.2).2) two).Agrees
      (pairs.foldl (fun t pair => (t.insert pair.1 pair.2).2) t) := by
  induction pairs generalizing two t with
  | nil => exact h
  | cons pair pairs ih => exact ih (h.insert pair.1 pair.2)

private theorem ofList (pairs : List (String × String)) :
    (Twofold.ofList pairs).Agrees (Renaming.ofList pairs) := empty.insertAll pairs

private theorem ofPackages (libraries : List String) (target : String) :
    (Twofold.ofPackages libraries target).Agrees (Renaming.ofPackages libraries target).1 := by
  have hpairs : Twofold.ofPackages libraries target =
      .ofList ((libraries.filter (· ≠ target)).flatMap (accessorPairs target)) := by
    rw [Twofold.ofPackages, Twofold.ofList]
    generalize Twofold.empty = two
    induction libraries generalizing two with
    | nil => rfl
    | cons library libraries ih =>
      rw [List.foldl_cons]
      by_cases htarget : library = target
      · rw [if_pos htarget, ih, List.filter_cons_of_neg (by simpa using htarget)]
      · rw [if_neg htarget, ih, List.filter_cons_of_pos (by simpa using htarget),
          List.flatMap_cons, List.foldl_append, accessorPairs, List.foldl_map]
  rw [hpairs]
  exact ofList _

private theorem after (requests : List Request) :
    (Twofold.after requests).Agrees (Renaming.after requests) := by
  induction requests using List.reverseRecOn with
  | nil => exact empty
  | append_singleton requests request ih =>
    rw [Twofold.after, Renaming.after, List.foldl_concat, List.foldl_concat, ← Twofold.after,
      ← Renaming.after]
    cases request with
    | ofPackages libraries target => exact ofPackages libraries target
    | ofList pairs => exact ofList pairs
    | insert old new => exact ih.insert old new

end Twofold.Agrees

/-- After any requests the two tables are the renaming, told by names and by texts: the text of a
name finds the text of its new name, and no other text finds anything. The names are listed in their
order, each once, with the new name given to it last, which is never the name itself. A class that
would keep its name is refused, and nothing changes. -/
theorem tables_agree (requests : List Request) :
    (∀ name, (Twofold.after requests).names[name]? = (after requests).get? name) ∧
    (∀ name, (Twofold.after requests).texts[encode name]? =
      ((after requests).get? name).map encode) ∧
    (∀ text, (Twofold.after requests).texts[text]? = (after requests).getText? text) ∧
    (∀ text, (after requests).getText? text ≠ none ↔
      ∃ name, (after requests).contains name = true ∧ encode name = text) ∧
    (∀ name, (after requests).contains name = ((after requests).get? name).isSome) ∧
    ((after requests).toList.map Prod.fst).Pairwise (· < ·) ∧
    (∀ name new, (name, new) ∈ (after requests).toList ↔ LastGiven (given requests) name new) ∧
    (∀ name, (after requests).get? name ≠ some name) ∧
    ∀ old new, ((after requests).insert old new).1 = false ↔
      old = new ∧ ((after requests).insert old new).2 = after requests ∧
        (Twofold.after requests).insert old new = (false, Twofold.after requests) := by
  have hagrees := Twofold.Agrees.after requests
  have hlisted : ∀ name new, (name, new) ∈ (after requests).toList ↔
      LastGiven (given requests) name new := by
    intro name new
    rw [← get?_ofList_iff, ← after_eq]
    exact Std.ExtTreeMap.mem_toList_iff_getElem?_eq_some
  refine ⟨fun name => ?_, fun name => ?_, hagrees.texts, fun text => ?_, fun name => ?_, ?_, hlisted,
    fun name hself => ?_, fun old new => ?_⟩
  · rw [hagrees.names, get?]
  · rw [hagrees.texts, getText?_encode]
  · simp only [Option.ne_none_iff_exists', getText?_eq_some_iff, contains_iff]
    constructor
    · rintro ⟨_, name, new, hnew, htext, -⟩
      exact ⟨name, ⟨new, hnew⟩, htext⟩
    · rintro ⟨name, ⟨new, hnew⟩, htext⟩
      exact ⟨_, name, new, hnew, htext, rfl⟩
  · exact Std.ExtTreeMap.contains_eq_isSome_getElem?
  · rw [toList, List.pairwise_map]
    exact Std.ExtTreeMap.ordered_keys_toList.imp compare_lt_iff_lt.mp
  · rw [after_eq, get?_ofList_iff] at hself
    obtain ⟨_, _, -, hne, -⟩ := hself
    exact hne rfl
  · rw [insert, Twofold.insert]
    by_cases hsame : old = new <;> simp [hsame]

end Retarget.Renaming
