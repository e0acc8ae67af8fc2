import Mathlib.Data.Bool.AllAny
import Retarget.Proofs.Symbol.Substitution

/-!
Exchanging names twice. If no new name has a new name itself, and none of them
holds a mark of a descriptor or a signature, an exchanged text is read with the
same structure, and there is nothing left in it to exchange.
-/

set_option autoImplicit false

namespace Retarget

/-- A name that is read as one where another name stood. -/
structure Readable (name : Bytes) : Prop where
  ne_nil : name ≠ []
  unmarked : ∀ b ∈ name, b ∉ Bytes.ascii "<.;"
  closed : name.head? ≠ some '['.toUInt8

/-- A name that is read as one wherever a name may stand. -/
structure Plain (name : Bytes) : Prop where
  ne_nil : name ≠ []
  unmarked : ∀ b ∈ name, b ∉ Bytes.ascii ".;[<"

private theorem Plain.readable {name : Bytes} (h : Plain name) : Readable name where
  ne_nil := h.ne_nil
  unmarked b hb hmark := by
    have hmarks : ∀ b ∈ Bytes.ascii "<.;", b ∈ Bytes.ascii ".;[<" :=
      List.all_iff_forall_prop.mp (by decide)
    exact h.unmarked b hb (hmarks b hmark)
  closed hhead := h.unmarked _ (List.mem_of_mem_head? hhead) (by decide)

/-- New names are plain, and have no new names themselves. -/
structure Stable (map : Bytes → Option Bytes) : Prop where
  plain : ∀ {name new : Bytes}, map name = some new → Plain new
  last : ∀ {name new : Bytes}, map name = some new → map new = none

namespace Piece

variable {map : Bytes → Option Bytes}

def renamed (map : Bytes → Option Bytes) : Piece → Piece
  | byte b => byte b
  | name word => name ((map word).getD word)

private theorem text_renamed (piece : Piece) : (piece.renamed map).text = piece.exchange map := by
  cases piece <;> rfl

private theorem changes_renamed (h : Stable map) (piece : Piece) :
    (piece.renamed map).changes map = false := by
  cases piece with
  | byte b => rfl
  | name word =>
    cases hnew : map word with
    | none => simp [renamed, changes, hnew]
    | some new => simp [renamed, changes, hnew, h.last hnew]

end Piece

private theorem Stable.readable {map : Bytes → Option Bytes} (h : Stable map) {name new : Bytes}
    (hnew : map name = some new) : Readable new := (h.plain hnew).readable

variable {map : Bytes → Option Bytes} {pieces : List Piece}

private theorem foldlM_renamed {Q : Type} {advance : Q → Piece → Option Q} {q q' : Q}
    (h : ∀ {q q' : Q} {word new : Bytes}, map word = some new →
      advance q (.name word) = some q' → advance q (.name new) = some q')
    (hpieces : pieces.foldlM advance q = some q') :
    (pieces.map (Piece.renamed map)).foldlM advance q = some q' := by
  induction pieces generalizing q with
  | nil => exact hpieces
  | cons piece pieces ih =>
    obtain ⟨middle, hpiece, hrest⟩ := Option.bind_eq_some_iff.mp hpieces
    have hrenamed : advance q (piece.renamed map) = some middle := by
      cases piece with
      | byte b => exact hpiece
      | name word =>
        cases hnew : map word with
        | none => simpa [Piece.renamed, hnew] using hpiece
        | some new => simpa [Piece.renamed, hnew] using h hnew hpiece
    rw [List.map_cons, List.foldlM_cons, hrenamed]
    exact ih hrest

private theorem Descriptor.Accepted.renamed
    (hmap : ∀ {name new : Bytes}, map name = some new → Readable new)
    (h : Descriptor.Accepted pieces) : Descriptor.Accepted (pieces.map (Piece.renamed map)) := by
  refine foldlM_renamed ?_ h
  intro q q' word new hnew hword
  cases q with
  | opened =>
    have hmark : ';'.toUInt8 ∉ new := fun hmem => (hmap hnew).unmarked _ hmem (by decide)
    simp only [Place.advance] at hword ⊢
    split_ifs at hword
    rw [if_neg hmark]
    exact hword
  | _ => cases hword

private theorem Signature.Accepted.renamed
    (hmap : ∀ {name new : Bytes}, map name = some new → Readable new)
    (h : Signature.Accepted pieces) : Signature.Accepted (pieces.map (Piece.renamed map)) := by
  obtain ⟨goals, hgoals, hfinish⟩ := h
  refine ⟨goals, foldlM_renamed ?_ hgoals, hfinish⟩
  intro q q' word new hnew hword
  match q with
  | [] => cases hword
  | goal :: goals =>
    cases goal with
    | className start read depth =>
      rw [advance_className] at hword ⊢
      split_ifs at hword
      rw [if_neg]
      · exact hword
      · rintro (hnil | hany)
        · exact (hmap hnew).ne_nil hnil
        · obtain ⟨b, hb, hend⟩ := List.any_eq_true.mp hany
          exact (hmap hnew).unmarked b hb (of_decide_eq_true hend)
    | _ => cases hword

private theorem Descriptor.head?_exchange {text : Bytes}
    (h : Descriptor.scan text = ⟨pieces, none⟩) :
    (pieces.flatMap (Piece.exchange map)).head? = text.head? := by
  obtain ⟨rfl, haccepted⟩ := Descriptor.scan_eq_iff.mp h
  cases pieces with
  | nil => rfl
  | cons piece pieces =>
    cases piece with
    | byte b => rfl
    | name word => cases haccepted

namespace Symbol

variable {kind : SymbolForm} {text new : Bytes}

/-- A text read without a defect is read with the same structure after its names were exchanged. -/
theorem scan_renamed (hmap : ∀ {name new : Bytes}, map name = some new → Readable new)
    (h : scan kind text = ⟨pieces, none⟩) :
    scan kind (pieces.flatMap (Piece.exchange map)) = ⟨pieces.map (Piece.renamed map), none⟩ := by
  have htext : (pieces.map (Piece.renamed map)).flatMap Piece.text =
      pieces.flatMap (Piece.exchange map) := by
    rw [List.flatMap_map]
    exact congrArg (pieces.flatMap ·) (funext Piece.text_renamed)
  have hdescriptor : ∀ {text : Bytes}, Descriptor.scan text = ⟨pieces, none⟩ →
      Descriptor.scan (pieces.flatMap (Piece.exchange map)) =
        ⟨pieces.map (Piece.renamed map), none⟩ := by
    intro text h
    exact Descriptor.scan_eq_iff.mpr ⟨htext, (Descriptor.scan_eq_iff.mp h).2.renamed hmap⟩
  cases kind with
  | className =>
    rw [scan] at h ⊢
    split_ifs at h with hopen
    · have hopen' : (pieces.flatMap (Piece.exchange map)).head? = some '['.toUInt8 := by
        rw [Descriptor.head?_exchange h, hopen]
      rw [if_pos hopen']
      exact hdescriptor h
    · cases h
      have hnot : ([Piece.name text].flatMap (Piece.exchange map)).head? ≠ some '['.toUInt8 := by
        intro hhead
        cases hnew : map text with
        | none =>
          rw [List.flatMap_singleton, Piece.exchange, hnew] at hhead
          exact hopen hhead
        | some new =>
          rw [List.flatMap_singleton, Piece.exchange, hnew] at hhead
          exact (hmap hnew).closed hhead
      rw [if_neg hnot, List.flatMap_singleton]
      rfl
  | descriptor => exact hdescriptor h
  | signature =>
    exact Signature.scan_eq_iff.mpr ⟨htext, (Signature.scan_eq_iff.mp h).2.renamed hmap⟩

theorem defect_of_substitute {exchanged : Option Bytes}
    (h : substitute kind map text = .ok exchanged) : (scan kind text).defect = none := by
  rw [substitute, Scan.substitute] at h
  cases hdefect : (scan kind text).defect with
  | none => rfl
  | some defect =>
    rw [hdefect] at h
    cases h

theorem defect_of_substitute_error {defect : Defect}
    (h : substitute kind map text = .error defect) : (scan kind text).defect = some defect := by
  rw [substitute, Scan.substitute] at h
  cases hdefect : (scan kind text).defect with
  | none =>
    simp only [hdefect] at h
    split_ifs at h
  | some other =>
    simp only [hdefect] at h
    cases h
    rfl

theorem names_of_substitute (h : substitute kind map text = .ok none) :
    ∀ name ∈ (scan kind text).names, map name = none := by
  have hdefect := defect_of_substitute h
  rw [substitute, Scan.substitute] at h
  simp only [hdefect] at h
  split_ifs at h with hchanges
  · cases h
  · intro name hname
    obtain ⟨piece, hpiece, hname⟩ := List.mem_filterMap.mp hname
    cases piece with
    | byte b => cases hname
    | name word =>
      cases hname
      have hsame := List.any_eq_false.mp (Bool.eq_false_iff.mpr hchanges) _ hpiece
      simpa [Piece.changes] using hsame

theorem substitute_again (hmap : Stable map) (h : substitute kind map text = .ok (some new)) :
    substitute kind map new = .ok none := by
  have hdefect := defect_of_substitute h
  rw [substitute, Scan.substitute] at h
  have hnew : new = (scan kind text).pieces.flatMap (Piece.exchange map) := by
    simp only [hdefect] at h
    split_ifs at h
    · exact (Option.some.inj (Except.ok.inj h)).symm
    · cases h
  have hscan : scan kind text = ⟨(scan kind text).pieces, none⟩ := by rw [← hdefect]
  have hnone : ((scan kind text).pieces.map (Piece.renamed map)).any (Piece.changes map) =
      false := by
    simp [Piece.changes_renamed hmap]
  rw [hnew, substitute, scan_renamed hmap.readable hscan, Scan.substitute]
  simp only [hnone, Bool.false_eq_true, if_false]

end Symbol

end Retarget
