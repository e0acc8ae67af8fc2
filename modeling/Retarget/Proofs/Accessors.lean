import Retarget.Embedding
import Retarget.Proofs.Bytes.ReadBack
import Retarget.Proofs.Symbol.Stable
import Retarget.Proofs.Text.Cut
import Retarget.Proofs.Text.ModifiedUtf8

/-!
The new names an embedding gives are stable. Packages that pass their check hold
no mark of a descriptor or a signature, and accessors of different packages have
different names; so the accessors of the target keep their names.
-/

set_option autoImplicit false

namespace Retarget

namespace PackageName

variable {role package : String}

/-- What a name of a package consists of. -/
structure Proper (package : String) : Prop where
  ne_empty : package ≠ ""
  parts : ∀ c ∈ package.toList, c ≠ '.' → isPart c = true

private theorem isPart_of_isIdentifier {cs : List Char} (h : isIdentifier cs = true) :
    ∀ c ∈ cs, isPart c = true := by
  cases cs with
  | nil => cases h
  | cons first cs =>
    obtain ⟨hfirst, hrest⟩ := (Bool.and_eq_true _ _).mp h
    refine List.forall_mem_cons.mpr ⟨?_, List.all_eq_true.mp hrest⟩
    simp only [isStart, Bool.or_eq_true, decide_eq_true_eq] at hfirst
    simp only [isPart, Bool.or_eq_true, decide_eq_true_eq]
    tauto

private theorem proper_of_check (h : check role package = .ok ()) : Proper package := by
  unfold check at h
  split_ifs at h with hempty
  refine ⟨hempty, fun c hc hdot => ?_⟩
  obtain ⟨piece, hpiece, hmem⟩ := Text.exists_mem_pieces hc hdot
  split at h
  · cases h
  · next hnone =>
    have hsegment := List.find?_eq_none.mp hnone (String.ofList piece) (List.mem_map_of_mem hpiece)
    have hidentifier : isIdentifier piece = true := by simpa using hsegment
    exact isPart_of_isIdentifier hidentifier c hmem

private theorem not_isPart : ∀ c ∈ ".;[</".toList, isPart c = false :=
  List.all_iff_forall_prop.mp (by decide +kernel)

def slashed (package : String) : String := Text.exchange '.' '/' package

private theorem slashed_eq_empty_iff {package : String} : slashed package = "" ↔ package = "" := by
  rw [slashed, Text.exchange, ← String.toList_inj, String.toList_ofList, ← String.toList_inj]
  exact List.map_eq_nil_iff

theorem slashed_slashed (package : String) : slashed (slashed package) = slashed package := by
  have htwice : ∀ c : Char, (if (if c = '.' then '/' else c) = '.' then '/' else
      if c = '.' then '/' else c) = if c = '.' then '/' else c := by
    intro c
    by_cases hc : c = '.'
    · rw [if_pos hc]
      rfl
    · rw [if_neg hc, if_neg hc]
  simp only [slashed, Text.exchange, String.toList_ofList, List.map_map]
  exact congrArg String.ofList (List.map_congr_left fun c _ => htwice c)

end PackageName

namespace ResourceKind

open PackageName

variable {package other : String} {kind kind' : ResourceKind}

theorem toList_accessor (hpackage : Proper package) (kind : ResourceKind) :
    (kind.accessor package).toList = package.toList.map (fun c => if c = '.' then '/' else c) ++
      '/' :: ("R$".toList ++ kind.name.toList) := by
  rw [accessor, if_neg hpackage.ne_empty, String.toList_append, String.toList_append, Text.exchange,
    String.toList_ofList, List.append_assoc]
  rfl

private theorem unmarked_name (kind : ResourceKind) :
    ∀ c ∈ "R$".toList ++ kind.name.toList, c ∉ ".;[</".toList := by
  cases kind <;> exact List.all_iff_forall_prop.mp (by decide)

private theorem name_injective (h : kind.name = kind'.name) : kind = kind' := by
  have hfound := ofName?_name kind'
  rw [← h, ofName?_name] at hfound
  exact Option.some.inj hfound

private theorem slash_not_mem (kind : ResourceKind) : '/' ∉ "R$".toList ++ kind.name.toList :=
  fun hmem => unmarked_name kind '/' hmem (by decide)

private theorem splitLast_accessor (package : String) (kind : ResourceKind) :
    Text.splitLast '/' (kind.accessor package).toList =
      if package = "" then none
      else some ((slashed package).toList, "R$".toList ++ kind.name.toList) := by
  by_cases hempty : package = ""
  · rw [accessor, if_pos hempty, if_pos hempty, String.toList_append]
    exact Text.splitLast_of_not_mem (slash_not_mem kind)
  · rw [accessor, if_neg hempty, if_neg hempty, String.toList_append, String.toList_append,
      List.append_assoc]
    exact Text.splitLast_append (slash_not_mem kind) _

private theorem kind_eq_of_lists
    (h : "R$".toList ++ kind.name.toList = "R$".toList ++ kind'.name.toList) :
    kind = kind' :=
  name_injective (String.toList_inj.mp (List.append_cancel_left h))

/-- Accessors have the same name only if they are of one kind, and of packages that differ in dots
and slashes at most. -/
theorem accessor_eq_iff : kind.accessor package = kind'.accessor other ↔
    slashed package = slashed other ∧ kind = kind' := by
  constructor
  · intro h
    have hsplit := congrArg (fun name => Text.splitLast '/' name.toList) h
    simp only [splitLast_accessor] at hsplit
    split_ifs at hsplit with hpackage hother hother
    · have hlists := congrArg String.toList h
      rw [accessor, accessor, if_pos hpackage, if_pos hother, String.toList_append,
        String.toList_append] at hlists
      exact ⟨by rw [hpackage, hother], kind_eq_of_lists hlists⟩
    · obtain ⟨hfront, hback⟩ := Prod.mk.inj (Option.some.inj hsplit)
      exact ⟨String.toList_inj.mp hfront, kind_eq_of_lists hback⟩
  · rintro ⟨hslashed, rfl⟩
    have hempty : package = "" ↔ other = "" := by
      rw [← slashed_eq_empty_iff, hslashed, slashed_eq_empty_iff]
    rw [accessor, accessor]
    by_cases hpackage : package = ""
    · rw [if_pos hpackage, if_pos (hempty.mp hpackage)]
    · rw [if_neg hpackage, if_neg (mt hempty.mpr hpackage)]
      exact congrArg (· ++ "/R$" ++ kind.name) hslashed

theorem exchange_back (hpackage : Proper package) :
    (package.toList.map fun c => if c = '.' then '/' else c).map
      (fun c => if c = '/' then '.' else c) = package.toList := by
  have hid : ∀ c ∈ package.toList,
      (if (if c = '.' then '/' else c) = '/' then '.' else if c = '.' then '/' else c) = c := by
    intro c hc
    by_cases hdot : c = '.'
    · rw [if_pos hdot, if_pos rfl, hdot]
    · have hslash : c ≠ '/' := by
        rintro rfl
        have hpart := hpackage.parts '/' hc hdot
        rw [not_isPart '/' (by decide)] at hpart
        cases hpart
      rw [if_neg hdot, if_neg hslash]
  rw [List.map_map]
  exact (List.map_congr_left hid).trans (List.map_id' _)

private theorem accessor_injective (hpackage : Proper package) (hother : Proper other)
    (h : kind.accessor package = kind'.accessor other) : package = other := by
  have hlists := congrArg String.toList (accessor_eq_iff.mp h).1
  simp only [slashed, Text.exchange, String.toList_ofList] at hlists
  have hback := congrArg (List.map fun c => if c = '/' then '.' else c) hlists
  rw [exchange_back hpackage, exchange_back hother] at hback
  exact String.toList_inj.mp hback

private theorem unmarked_accessor (hpackage : Proper package) (kind : ResourceKind) :
    ∀ c ∈ (kind.accessor package).toList, c ∉ ".;[<".toList := by
  intro c hc hmark
  have hmark' : c ∈ ".;[</".toList := List.mem_append_left ['/'] hmark
  rw [toList_accessor hpackage] at hc
  rcases List.mem_append.mp hc with hc | hc
  · obtain ⟨d, hd, rfl⟩ := List.mem_map.mp hc
    by_cases hdot : d = '.'
    · rw [if_pos hdot] at hmark
      exact absurd hmark (by decide)
    · rw [if_neg hdot] at hmark'
      have hpart := hpackage.parts d hd hdot
      rw [not_isPart d hmark'] at hpart
      cases hpart
  · rcases List.mem_cons.mp hc with rfl | hc
    · exact absurd hmark (by decide)
    · exact unmarked_name kind c hc hmark'

theorem plain_accessor (hpackage : Proper package) (kind : ResourceKind) :
    Plain (ModifiedUtf8.encode (kind.accessor package)) where
  ne_nil := by
    refine ModifiedUtf8.encode_ne_nil fun hempty => ?_
    have hlist := toList_accessor hpackage kind
    rw [hempty] at hlist
    exact List.append_ne_nil_of_right_ne_nil _ (List.cons_ne_nil _ _) hlist.symm
  unmarked b hb hmark := by
    obtain ⟨m, hm, rfl⟩ := List.mem_map.mp hmark
    have hascii : ∀ m ∈ ".;[<".toList, m.toNat < 0x80 ∧ m.toUInt8.toNat = m.toNat :=
      List.all_iff_forall_prop.mp (by decide)
    obtain ⟨hsmall, hcode⟩ := hascii m hm
    obtain ⟨c, hc, hc', heq⟩ := ModifiedUtf8.of_mem_encode hb (by omega)
    have hvalue : c.toUInt8.toNat = c.toNat % 256 := UInt32.toNat_toUInt8 c.val
    have hsame : m = c := by
      have hcodes := congrArg UInt8.toNat heq
      have hnat : m.toNat = c.toNat := by omega
      rw [← Char.ofNat_toNat m, hnat, Char.ofNat_toNat]
    exact unmarked_accessor hpackage kind c hc (hsame ▸ hm)

end ResourceKind

namespace Renaming

theorem get?_insert (old new name : String) (t : Renaming) :
    (t.insert old new).2.get? name = if old = name ∧ old ≠ new then some new else t.get? name := by
  unfold insert
  by_cases hsame : old = new
  · rw [if_pos hsame, if_neg fun h => h.2 hsame]
  · rw [if_neg hsame]
    simp only [get?, Std.ExtTreeMap.getElem?_insert, Std.LawfulEqCmp.compare_eq_iff_eq]
    by_cases hname : old = name
    · rw [if_pos hname, if_pos ⟨hname, hsame⟩]
    · rw [if_neg hname, if_neg fun h => hname h.1]

theorem of_ofList {pairs : List (String × String)} {name new : String}
    (h : (ofList pairs).get? name = some new) : (name, new) ∈ pairs := by
  suffices hall : ∀ (pairs : List (String × String)) (t : Renaming),
      (pairs.foldl (fun t pair => (t.insert pair.1 pair.2).2) t).get? name = some new →
      (name, new) ∈ pairs ∨ t.get? name = some new by
    rcases hall pairs empty h with hpair | hempty
    · exact hpair
    · simp [get?, empty] at hempty
  intro pairs
  induction pairs with
  | nil => exact fun t ht => .inr ht
  | cons pair pairs ih =>
    obtain ⟨old, value⟩ := pair
    intro t ht
    rcases ih _ ht with hpair | hinserted
    · exact .inl (List.mem_cons_of_mem _ hpair)
    · rw [get?_insert] at hinserted
      split_ifs at hinserted with hold
      · cases hinserted
        exact .inl (hold.1 ▸ List.mem_cons_self)
      · exact .inr hinserted

end Renaming

namespace Embedding

variable {libraries : List String} {target : String} {e : Embedding}

theorem proper_of_new (h : new libraries target = .ok e) :
    PackageName.Proper e.target ∧ ∀ library ∈ e.libraries, PackageName.Proper library := by
  unfold new at h
  simp only at h
  split at h
  · next hchecked =>
    cases h
    obtain ⟨_, htarget, hlibraries⟩ := bind_eq_ok_iff.mp hchecked
    refine ⟨PackageName.proper_of_check htarget, ?_⟩
    clear hchecked
    induction libraries with
    | nil => simp
    | cons library libraries ih =>
      obtain ⟨_, hfirst, hrest⟩ := bind_eq_ok_iff.mp hlibraries
      exact List.forall_mem_cons.mpr ⟨PackageName.proper_of_check hfirst, ih hrest⟩
  · cases h

private theorem of_newNames {name replacement : String}
    (h : e.newNames.get? name = some replacement) :
    ∃ library ∈ e.libraries, library ≠ e.target ∧ ∃ kind : ResourceKind,
      name = kind.accessor library ∧ replacement = kind.accessor e.target := by
  obtain ⟨library, hlibrary, hpair⟩ := List.mem_flatMap.mp (Renaming.of_ofList h)
  obtain ⟨hlibrary, hne⟩ := List.mem_filter.mp hlibrary
  obtain ⟨kind, -, heq⟩ := List.mem_map.mp hpair
  cases heq
  exact ⟨library, hlibrary, of_decide_eq_true hne, kind, rfl, rfl⟩

theorem of_getText? {text replacement : Bytes} (h : e.newNames.getText? text = some replacement) :
    ∃ library ∈ e.libraries, library ≠ e.target ∧ ∃ kind : ResourceKind,
      text = ModifiedUtf8.encode (kind.accessor library) ∧
      replacement = ModifiedUtf8.encode (kind.accessor e.target) := by
  unfold Renaming.getText? at h
  split at h
  · cases h
  · split at h
    · cases h
    · next hget =>
      split_ifs at h with htext
      cases h
      obtain ⟨library, hlibrary, hne, kind, rfl, rfl⟩ := of_newNames hget
      exact ⟨library, hlibrary, hne, kind, htext.symm, rfl⟩

theorem stable_newNames (h : new libraries target = .ok e) : Stable e.newNames.getText? := by
  obtain ⟨htarget, hlibraries⟩ := proper_of_new h
  constructor
  · intro text new htext
    obtain ⟨library, -, -, kind, -, rfl⟩ := of_getText? htext
    exact ResourceKind.plain_accessor htarget kind
  · intro text new htext
    obtain ⟨library, -, -, kind, -, rfl⟩ := of_getText? htext
    rw [Renaming.getText?, ModifiedUtf8.decode_encode]
    simp only
    cases hget : e.newNames.get? (kind.accessor e.target) with
    | none => rfl
    | some replacement =>
      obtain ⟨library, hlibrary, hne, kind', hname, -⟩ := of_newNames hget
      have hsame := ResourceKind.accessor_injective htarget (hlibraries library hlibrary) hname
      exact absurd hsame.symm hne

end Embedding

end Retarget
