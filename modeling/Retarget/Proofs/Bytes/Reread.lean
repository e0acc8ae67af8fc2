import Retarget.Proofs.Bytes.ReadBack

/-!
Writing against reading. A reader rereads a layout if it reads from what the
layout serializes to what was laid out, whatever bytes follow. Readers one after
the other reread layouts one after the other.
-/

set_option autoImplicit false

namespace Retarget

namespace Layout

variable {item : Except Defect Bytes} {front back layout : Layout} {bytes : Bytes}

private theorem serialize_singleton (item : Except Defect Bytes) : serialize [item] = item := by
  cases item with
  | ok bytes => exact serialize_ok bytes
  | error defect => rfl

theorem serialize_append_eq_ok_iff : (front ++ back).serialize = .ok bytes ↔
    ∃ first rest, front.serialize = .ok first ∧ back.serialize = .ok rest ∧
      bytes = first ++ rest := by
  constructor
  · intro h
    simp only [serialize, List.mapM_append] at h ⊢
    cases hfront : front.mapM id with
    | error defect => simp [hfront, bind, Except.bind] at h
    | ok items =>
      cases hback : back.mapM id with
      | error defect => simp [hfront, hback, bind, Except.bind] at h
      | ok items' =>
        simp only [hfront, hback, bind, Except.bind, pure, Except.pure, Except.ok.injEq,
          List.flatten_append] at h
        exact ⟨_, _, rfl, rfl, h.symm⟩
  · rintro ⟨first, rest, hfront, hback, rfl⟩
    exact serialize_append hfront hback

theorem serialize_cons_eq_ok_iff : serialize (item :: layout) = .ok bytes ↔
    ∃ first rest, item = .ok first ∧ layout.serialize = .ok rest ∧ bytes = first ++ rest := by
  have h : serialize ([item] ++ layout) = .ok bytes ↔ _ := serialize_append_eq_ok_iff
  rwa [serialize_singleton] at h

theorem count_eq_ok_iff {n : Nat} {defect : Defect} : count n defect = .ok bytes ↔
    n < 0x10000 ∧ bytes = Bytes.ofNat 2 n := by
  unfold count
  split_ifs with h
  · simp [h, eq_comm]
  · simp [h]

end Layout

namespace Reader

open Layout

def Rereads {α : Type} (read : Reader → Except Fault (α × Reader)) (layout : Layout) (a : α) :
    Prop :=
  ∀ ⦃r : Reader⦄ ⦃bytes rest : Bytes⦄, layout.serialize = .ok bytes → r.rest = bytes ++ rest →
    ∃ r', read r = .ok (a, r') ∧ r'.rest = rest

variable {α β : Type} {first : Reader → Except Fault (α × Reader)}
  {next : α × Reader → Except Fault (β × Reader)} {front back layout : Layout}
  {item : Except Defect Bytes} {a : α} {b : β}

theorem rereads_pure (a : α) : Rereads (fun r => pure (a, r)) [] a := by
  intro r bytes rest h hr
  cases h
  exact ⟨r, rfl, hr⟩

theorem Rereads.bind (hfirst : Rereads first front a)
    (hnext : Rereads (fun r => next (a, r)) back b) :
    Rereads (fun r => first r >>= next) (front ++ back) b := by
  intro r bytes rest h hr
  obtain ⟨front', back', hfront, hback, rfl⟩ := serialize_append_eq_ok_iff.mp h
  rw [List.append_assoc] at hr
  obtain ⟨r₁, hread₁, hr₁⟩ := hfirst hfront hr
  obtain ⟨r₂, hread₂, hr₂⟩ := hnext hback hr₁
  exact ⟨r₂, bind_eq_ok_iff.mpr ⟨_, hread₁, hread₂⟩, hr₂⟩

theorem Rereads.cons (hfirst : Rereads first [item] a)
    (hnext : Rereads (fun r => next (a, r)) layout b) :
    Rereads (fun r => first r >>= next) (item :: layout) b := hfirst.bind hnext

theorem Rereads.last (hfirst : Rereads first layout a)
    (hnext : Rereads (fun r => next (a, r)) [] b) :
    Rereads (fun r => first r >>= next) layout b := by
  have h := hfirst.bind hnext
  rwa [List.append_nil] at h

theorem rereads_take {n : Nat} {bytes : Bytes} (hn : bytes.length = n) :
    Rereads (take n) [.ok bytes] bytes := by
  intro r bytes' rest h hr
  rw [serialize_ok] at h
  cases h
  exact ⟨⟨r.position + n, rest⟩, take_eq_ok_iff.mpr ⟨hr, hn, rfl⟩, rfl⟩

private theorem rereads_number {width n : Nat} (hn : n < Bytes.span width) :
    Rereads (number width) [.ok (Bytes.ofNat width n)] n := by
  intro r bytes rest h hr
  obtain ⟨r', htake, hr'⟩ := rereads_take (Bytes.length_ofNat width n) h hr
  refine ⟨r', ?_, hr'⟩
  rw [number, htake]
  simp only [Bytes.value_ofNat, Nat.mod_eq_of_lt hn]

theorem rereads_word16 (w : UInt16) : Rereads word16 [.ok (Bytes.ofUInt16 w)] w := by
  intro r bytes rest h hr
  have hlt : w.toNat < Bytes.span 2 := w.toNat_lt
  obtain ⟨r', hnumber, hr'⟩ := rereads_number hlt h hr
  refine ⟨r', ?_, hr'⟩
  rw [word16, hnumber]
  simp only [UInt16.ofNat_toNat]

theorem rereads_word32 (w : UInt32) : Rereads word32 [.ok (Bytes.ofUInt32 w)] w := by
  intro r bytes rest h hr
  have hlt : w.toNat < Bytes.span 4 := w.toNat_lt
  obtain ⟨r', hnumber, hr'⟩ := rereads_number hlt h hr
  refine ⟨r', ?_, hr'⟩
  rw [word32, hnumber]
  simp only [UInt32.ofNat_toNat]

theorem rereads_word64 (w : UInt64) : Rereads word64 [.ok (Bytes.ofUInt64 w)] w := by
  intro r bytes rest h hr
  have hlt : w.toNat < Bytes.span 8 := w.toNat_lt
  obtain ⟨r', hnumber, hr'⟩ := rereads_number hlt h hr
  refine ⟨r', ?_, hr'⟩
  rw [word64, hnumber]
  simp only [UInt64.ofNat_toNat]

theorem rereads_byte (b : UInt8) : Rereads byte [.ok [b]] b := by
  intro r bytes rest h hr
  rw [serialize_ok] at h
  cases h
  exact ⟨⟨r.position + 1, rest⟩, by rw [byte, hr]; rfl, rfl⟩

section Table

variable {item : Reader → Except Fault (α × Reader)} {layout : α → Layout}

private theorem rereads_many {items : List α} (hitem : ∀ a ∈ items, Rereads item (layout a) a)
    (taken : Array α) :
    Rereads (many item items.length taken) (items.flatMap layout) (taken ++ items.toArray) := by
  induction items generalizing taken with
  | nil =>
    intro r bytes rest h hr
    cases h
    exact ⟨r, by simp [many], hr⟩
  | cons a items ih =>
    intro r bytes rest h hr
    obtain ⟨hfirst, hitems⟩ := List.forall_mem_cons.mp hitem
    obtain ⟨front, back, hfront, hback, rfl⟩ := serialize_append_eq_ok_iff.mp h
    rw [List.append_assoc] at hr
    obtain ⟨r₁, hread₁, hr₁⟩ := hfirst hfront hr
    obtain ⟨r₂, hread₂, hr₂⟩ := ih hitems (taken.push a) hback hr₁
    refine ⟨r₂, ?_, hr₂⟩
    rw [List.length_cons, many, hread₁]
    simpa using hread₂

theorem rereads_table {all : Array α} (hitem : ∀ a ∈ all, Rereads item (layout a) a)
    (defect : Defect) :
    Rereads (table item) (Layout.count all.size defect :: all.toList.flatMap layout) all := by
  intro r bytes rest h hr
  obtain ⟨front, back, hcount, hback, rfl⟩ := serialize_cons_eq_ok_iff.mp h
  obtain ⟨hsize, rfl⟩ := count_eq_ok_iff.mp hcount
  have hword : (UInt16.ofNat all.size).toNat = all.size := UInt16.toNat_ofNat_of_lt' hsize
  have hfront : serialize [.ok (Bytes.ofUInt16 (UInt16.ofNat all.size))] =
      .ok (Bytes.ofNat 2 all.size) := by
    rw [serialize_ok, Bytes.ofUInt16, hword]
  rw [List.append_assoc] at hr
  obtain ⟨r₁, hread₁, hr₁⟩ := rereads_word16 _ hfront hr
  have hitems : ∀ a ∈ all.toList, Rereads item (layout a) a :=
    fun a ha => hitem a (Array.mem_toList_iff.mp ha)
  obtain ⟨r₂, hread₂, hr₂⟩ := rereads_many hitems #[] hback hr₁
  refine ⟨r₂, ?_, hr₂⟩
  rw [table, hread₁]
  simpa [hword] using hread₂

end Table

end Reader

end Retarget
