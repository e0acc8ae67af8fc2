import Mathlib.Data.List.Basic
import Retarget.Proofs.Symbol.Stable

/-!
Renaming composes. A text whose names were exchanged is read with the structure
it had, so exchanging names again by other rules meets the new names where the
old ones stood. Both exchanges together are one by the composed rules.
-/

set_option autoImplicit false

namespace Retarget

/-- The new name by `first`, renamed once more by `second`. A name that `first` leaves is renamed by
`second` alone. -/
def composed (first second : Bytes → Option Bytes) (name : Bytes) : Option Bytes :=
  match first name with
  | some new => some ((second new).getD new)
  | none => second name

namespace Piece

variable {map first second : Bytes → Option Bytes} {piece : Piece}

private theorem exchange_of_not_changes (h : piece.changes map = false) :
    piece.exchange map = piece.text := by
  cases piece with
  | byte b => rfl
  | name word =>
    have hnone : map word = none := Option.not_isSome_iff_eq_none.mp (Bool.eq_false_iff.mp h)
    rw [exchange, hnone, text, Option.getD_none]

private theorem exchange_renamed (piece : Piece) :
    (piece.renamed first).exchange second = piece.exchange (composed first second) := by
  cases piece with
  | byte b => rfl
  | name word => cases hnew : first word <;> simp [renamed, exchange, composed, hnew]

end Piece

namespace Symbol

variable {kind : SymbolForm} {map first second : Bytes → Option Bytes} {value : Bytes}
  {pieces : List Piece} {defect : Defect}

/-- The text with the names in it exchanged, also if every name stays as it is. -/
def rewritten (kind : SymbolForm) (map : Bytes → Option Bytes) (value : Bytes) :
    Except Defect Bytes :=
  (substitute kind map value).map fun new => new.getD value

private theorem rewritten_of_scan (h : scan kind value = ⟨pieces, none⟩) :
    rewritten kind map value = .ok (pieces.flatMap (Piece.exchange map)) := by
  rw [rewritten, substitute, h, Scan.substitute]
  simp only
  split_ifs with hchanges
  · rfl
  · have hsame : ∀ piece ∈ pieces, piece.exchange map = piece.text := fun piece hpiece =>
      Piece.exchange_of_not_changes
        (Bool.eq_false_iff.mpr
          (List.any_eq_false.mp (Bool.eq_false_iff.mpr hchanges) piece hpiece))
    obtain ⟨rest, hvalue, hrest⟩ := text_of_scan kind value
    rw [h] at hvalue hrest
    rw [hrest rfl, List.append_nil] at hvalue
    rw [List.flatMap_congr hsame, ← hvalue]
    rfl

private theorem rewritten_of_defect (h : (scan kind value).defect = some defect) :
    rewritten kind map value = .error defect := by
  rw [rewritten, substitute, Scan.substitute, h]
  rfl

private theorem scan_of_rewritten {new : Bytes} (h : rewritten kind map value = .ok new) :
    scan kind value = ⟨(scan kind value).pieces, none⟩ := by
  cases hdefect : (scan kind value).defect with
  | none => rw [← hdefect]
  | some defect =>
    rw [rewritten_of_defect hdefect] at h
    cases h

/-- What is rewritten by rules that give readable names can be rewritten again by any rules, and the
result is that of rewriting once by the composed rules. A text that cannot be rewritten by the first
rules cannot be by the composed ones, for the same defect. -/
theorem rewritten_composed (kind : SymbolForm) (value : Bytes) (second : Bytes → Option Bytes)
    (hfirst : ∀ name new : Bytes, first name = some new → Readable new) :
    (∀ new, rewritten kind first value = .ok new → ∃ last, rewritten kind second new = .ok last ∧
      rewritten kind (composed first second) value = .ok last) ∧
    (rewritten kind first value).bind (rewritten kind second) =
      rewritten kind (composed first second) value := by
  have htwice : ∀ new, rewritten kind first value = .ok new → ∃ last,
      rewritten kind second new = .ok last ∧
        rewritten kind (composed first second) value = .ok last := by
    intro new hnew
    have hscan := scan_of_rewritten hnew
    have hagain : scan kind ((scan kind value).pieces.flatMap (Piece.exchange first)) =
        ⟨(scan kind value).pieces.map (Piece.renamed first), none⟩ :=
      scan_renamed (hfirst _ _) hscan
    rw [rewritten_of_scan hscan] at hnew
    cases hnew
    refine ⟨_, rewritten_of_scan hagain, ?_⟩
    rw [rewritten_of_scan hscan, List.flatMap_map]
    exact congrArg (fun spelled => Except.ok ((scan kind value).pieces.flatMap spelled))
      (funext fun piece => (Piece.exchange_renamed piece).symm)
  refine ⟨htwice, ?_⟩
  cases hnew : rewritten kind first value with
  | ok new =>
    obtain ⟨last, hlast, hcomposed⟩ := htwice new hnew
    rw [hcomposed]
    exact hlast
  | error defect =>
    cases hdefect : (scan kind value).defect with
    | none =>
      rw [rewritten_of_scan (by rw [← hdefect])] at hnew
      cases hnew
    | some other =>
      rw [rewritten_of_defect hdefect] at hnew ⊢
      cases hnew
      rfl

def only (old new name : Bytes) : Option Bytes := if name = old then some new else none

/-- The class `A` is renamed to `B`, then `B` to `C`: both names in the text have become `C`. -/
theorem rewritten_composed_sample :
    (∀ name new : Bytes, only (Bytes.ascii "A") (Bytes.ascii "B") name = some new →
      Readable new) ∧
    rewritten .signature (only (Bytes.ascii "A") (Bytes.ascii "B")) (Bytes.ascii "LA<LB;>;") =
      .ok (Bytes.ascii "LB<LB;>;") ∧
    rewritten .signature
      (composed (only (Bytes.ascii "A") (Bytes.ascii "B")) (only (Bytes.ascii "B") (Bytes.ascii "C")))
      (Bytes.ascii "LA<LB;>;") = .ok (Bytes.ascii "LC<LC;>;") := by
  have hreadable : ∀ name new : Bytes, only (Bytes.ascii "A") (Bytes.ascii "B") name = some new →
      Readable new := by
    intro name new hnew
    rw [only] at hnew
    split_ifs at hnew
    cases hnew
    exact ⟨by decide, List.all_iff_forall_prop.mp (by decide), by decide⟩
  have hfirst : rewritten .signature (only (Bytes.ascii "A") (Bytes.ascii "B"))
      (Bytes.ascii "LA<LB;>;") = .ok (Bytes.ascii "LB<LB;>;") := by decide +kernel
  refine ⟨hreadable, hfirst, ?_⟩
  obtain ⟨last, hlast, hcomposed⟩ := (rewritten_composed .signature (Bytes.ascii "LA<LB;>;")
    (only (Bytes.ascii "B") (Bytes.ascii "C")) hreadable).1 _ hfirst
  have hsecond : rewritten .signature (only (Bytes.ascii "B") (Bytes.ascii "C"))
      (Bytes.ascii "LB<LB;>;") = .ok (Bytes.ascii "LC<LC;>;") := by decide +kernel
  rw [hcomposed, ← hlast, hsecond]

end Symbol

end Retarget
