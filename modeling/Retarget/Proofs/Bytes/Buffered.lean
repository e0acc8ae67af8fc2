import Retarget.Proofs.Bytes.Reread
import Retarget.Proofs.ClassFile.Cells

/-!
Writing into a buffer against serializing. Sizes are computed ahead of the
writes, in a traversal of their own: a size measures a layout if no part of the
layout is wider, and the whole is just as wide if nothing in it is a defect. A
buffer of that size is never too small, so what stops the writing is a defect,
and the one that serializing meets.
-/

set_option autoImplicit false

namespace Retarget

theorem blit_append (target : Array UInt8) (i : Nat) (front back : Bytes) :
    blit target i (front ++ back) = blit (blit target i front) (i + front.length) back := by
  induction front generalizing target i with
  | nil => rfl
  | cons b front ih =>
    rw [List.cons_append, blit, blit, ih, List.length_cons, Nat.add_assoc, Nat.add_comm 1]

private theorem blit_all {target : Array UInt8} {bytes : Bytes} (h : target.size = bytes.length) :
    blit target 0 bytes = bytes.toArray := by
  apply Array.ext_getElem?
  intro k
  rw [getElem?_blit]
  split_ifs with hk
  · exact List.getElem?_toArray.symm
  · have hout : target.size ≤ k := by omega
    have hend : bytes.toArray.size ≤ k := by rwa [List.size_toArray, ← h]
    rw [Array.getElem?_eq_none hout, Array.getElem?_eq_none hend]

namespace Layout

variable {front back layout : Layout} {item : Except Defect Bytes} {bytes : Bytes}
  {defect : Defect} {m n : Nat} {b : Buffer}

def itemWidth : Except Defect Bytes → Nat
  | .ok bytes => bytes.length
  | .error _ => 0

def width (layout : Layout) : Nat := total itemWidth layout

def Clean (layout : Layout) : Prop := ∀ item ∈ layout, ∃ bytes, item = .ok bytes

theorem clean_append : (front ++ back).Clean ↔ front.Clean ∧ back.Clean :=
  List.forall_mem_append

theorem clean_cons : Clean (item :: layout) ↔ (∃ bytes, item = .ok bytes) ∧ layout.Clean :=
  List.forall_mem_cons

theorem clean_nil : Clean [] := by simp [Clean]

theorem clean_ok (bytes : Bytes) : Clean [.ok bytes] := by simp [Clean]

theorem clean_flatMap {α : Type} {items : List α} {f : α → Layout} :
    Clean (items.flatMap f) ↔ ∀ a ∈ items, (f a).Clean := by
  constructor
  · intro h a ha item hitem
    exact h item (List.mem_flatMap.mpr ⟨a, ha, hitem⟩)
  · intro h item hitem
    obtain ⟨a, ha, hitem⟩ := List.mem_flatMap.mp hitem
    exact h a ha item hitem

theorem clean_count : Clean [count n defect] ↔ n < 0x10000 := by
  rw [clean_cons, and_iff_left clean_nil, count]
  split_ifs with h <;> simp [h]

/-- A layout serializes exactly if every item can be written. -/
theorem clean_iff : layout.Clean ↔ ∃ bytes, layout.serialize = .ok bytes := by
  induction layout with
  | nil => exact iff_of_true clean_nil ⟨[], rfl⟩
  | cons item layout ih =>
    rw [clean_cons, ih]
    constructor
    · rintro ⟨⟨first, hfirst⟩, rest, hrest⟩
      exact ⟨first ++ rest, serialize_cons_eq_ok_iff.mpr ⟨first, rest, hfirst, hrest, rfl⟩⟩
    · rintro ⟨bytes, h⟩
      obtain ⟨first, rest, hfirst, hrest, -⟩ := serialize_cons_eq_ok_iff.mp h
      exact ⟨⟨first, hfirst⟩, rest, hrest⟩

theorem length_of_serialize (h : layout.serialize = .ok bytes) : bytes.length = layout.width := by
  induction layout generalizing bytes with
  | nil =>
    cases h
    rfl
  | cons item layout ih =>
    obtain ⟨first, rest, rfl, hrest, rfl⟩ := serialize_cons_eq_ok_iff.mp h
    rw [List.length_append, ih hrest]
    rfl

/-- The size is enough for the layout, and just enough if all of it can be written. -/
structure Measures (layout : Layout) (size : Nat) : Prop where
  le : layout.width ≤ size
  eq : layout.Clean → layout.width = size

namespace Measures

theorem nil : Measures [] 0 := ⟨Nat.le_refl 0, fun _ => rfl⟩

theorem append (hfront : front.Measures m) (hback : back.Measures n) :
    (front ++ back).Measures (m + n) := by
  have hwidth : (front ++ back).width = front.width + back.width := total_append _ _ _
  refine ⟨?_, fun h => ?_⟩
  · have := hfront.le
    have := hback.le
    omega
  · obtain ⟨hf, hb⟩ := clean_append.mp h
    rw [hwidth, hfront.eq hf, hback.eq hb]

theorem cons (hitem : Measures [item] m) (hrest : layout.Measures n) :
    Measures (item :: layout) (m + n) := hitem.append hrest

theorem ok (h : bytes.length = n) : Measures [.ok bytes] n := by
  have hwidth : width [.ok bytes] = n := h
  exact ⟨Nat.le_of_eq hwidth, fun _ => hwidth⟩

theorem error (defect : Defect) (n : Nat) : Measures [.error defect] n := by
  refine ⟨Nat.zero_le n, fun h => ?_⟩
  obtain ⟨⟨bytes, hbytes⟩, -⟩ := clean_cons.mp h
  cases hbytes

theorem count (n : Nat) (defect : Defect) : Measures [Layout.count n defect] 2 := by
  rw [Layout.count]
  split_ifs
  · exact ok (Bytes.length_ofNat 2 n)
  · exact error defect 2

theorem flatMap {α : Type} {f : α → Layout} {size : α → Nat} {items : List α}
    (h : ∀ a ∈ items, (f a).Measures (size a)) : Measures (items.flatMap f) (total size items) := by
  induction items with
  | nil => exact nil
  | cons a items ih =>
    obtain ⟨hfirst, hrest⟩ := List.forall_mem_cons.mp h
    exact hfirst.append (ih hrest)

theorem table {α : Type} {f : α → Layout} {size : α → Nat} (items : Array α) (defect : Defect)
    (h : ∀ a ∈ items, (f a).Measures (size a)) :
    Measures (Layout.count items.size defect :: items.toList.flatMap f)
      (2 + total size items.toList) :=
  (count items.size defect).cons (flatMap fun a ha => h a (Array.mem_toList_iff.mp ha))

end Measures

theorem writeTo_of_serialize (h : layout.serialize = .ok bytes)
    (hroom : b.offset + bytes.length ≤ b.bytes.size) :
    layout.writeTo b = (b.put bytes, .ok ()) := by
  induction layout generalizing bytes b with
  | nil =>
    cases h
    rfl
  | cons item layout ih =>
    obtain ⟨first, rest, rfl, hrest, rfl⟩ := serialize_cons_eq_ok_iff.mp h
    rw [List.length_append] at hroom
    have hfits : b.fits first.length = true := decide_eq_true (by omega)
    have hafter : (b.put first).offset + rest.length ≤ (b.put first).bytes.size := by
      simp only [Buffer.put, size_blit]
      omega
    rw [writeTo, if_pos hfits, ih hrest hafter]
    simp only [Buffer.put, blit_append, List.length_append, Nat.add_assoc]

theorem writeTo_zeros {size : Nat} (hsize : layout.Measures size)
    (h : layout.serialize = .ok bytes) :
    bytes.length = size ∧ layout.writeTo (.zeros size 0) = (⟨bytes.toArray, size⟩, .ok ()) := by
  have hlength : bytes.length = size := by
    rw [length_of_serialize h]
    exact hsize.eq (clean_iff.mpr ⟨bytes, h⟩)
  have hcover : (Buffer.zeros size 0).bytes.size = bytes.length := by
    rw [hlength]
    exact Array.size_replicate
  have hroom : (Buffer.zeros size 0).offset + bytes.length ≤ (Buffer.zeros size 0).bytes.size := by
    rw [hcover]
    exact Nat.le_of_eq (Nat.zero_add _)
  refine ⟨hlength, ?_⟩
  rw [writeTo_of_serialize h hroom, Buffer.put]
  have hblit : blit (Buffer.zeros size 0).bytes 0 bytes = bytes.toArray := blit_all hcover
  have hoffset : 0 + bytes.length = size := by rw [hlength, Nat.zero_add]
  exact congrArg₂ (fun target offset => ((⟨target, offset⟩ : Buffer), Except.ok ())) hblit hoffset

private theorem serialize_of_cons_ok {first : Bytes}
    (h : serialize (.ok first :: layout) = .error defect) :
    layout.serialize = .error defect := by
  simp only [serialize, List.mapM_cons, id] at h ⊢
  cases hitems : layout.mapM id with
  | ok items =>
    simp only [hitems] at h
    cases h
  | error found =>
    simp only [hitems] at h
    exact h

theorem writeTo_of_defect (h : serialize layout = .error defect)
    (hroom : b.offset + layout.width ≤ b.bytes.size) :
    (layout.writeTo b).2 = .error (.malformed defect) := by
  induction layout generalizing b with
  | nil => cases h
  | cons item layout ih =>
    cases item with
    | error first =>
      cases h
      rfl
    | ok first =>
      have hrest := serialize_of_cons_ok h
      have hwidth : width (.ok first :: layout) = first.length + width layout := rfl
      have hfits : b.fits first.length = true := decide_eq_true (by omega)
      rw [writeTo, if_pos hfits]
      refine ih hrest ?_
      simp only [Buffer.put, size_blit]
      omega

end Layout

end Retarget
