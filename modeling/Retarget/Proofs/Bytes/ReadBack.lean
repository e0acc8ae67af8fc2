import Mathlib.Tactic.Common
import Retarget.Bytes.Layout
import Retarget.Bytes.Reader

/-!
Reading against writing. A layout fills the stretch between two readers if the
bytes passed over between them are what it serializes to. Every step of a
reader is filled by the layout of what it read, and stretches in a row are
filled by their layouts in a row.
-/

set_option autoImplicit false

namespace Retarget

theorem bind_eq_ok_iff {ε α β : Type} {x : Except ε α} {f : α → Except ε β} {b : β} :
    (x >>= f) = .ok b ↔ ∃ a, x = .ok a ∧ f a = .ok b := by
  cases x with
  | error e => simp [bind, Except.bind]
  | ok a => simp [bind, Except.bind]

namespace Layout

private theorem serialize_nil : serialize [] = .ok [] := rfl

theorem serialize_ok (bytes : Bytes) : serialize [.ok bytes] = .ok bytes := by
  change Except.ok ([bytes].flatten) = _
  simp

theorem serialize_append {front back : Layout} {bytes more : Bytes}
    (hfront : front.serialize = .ok bytes) (hback : back.serialize = .ok more) :
    serialize (front ++ back) = .ok (bytes ++ more) := by
  simp only [serialize, List.mapM_append] at *
  cases hf : front.mapM id with
  | error defect => simp [hf] at hfront
  | ok items =>
    cases hb : back.mapM id with
    | error defect => simp [hb] at hback
    | ok items' =>
      simp only [hf, Except.ok.injEq] at hfront
      simp only [hb, Except.ok.injEq] at hback
      subst hfront hback
      simp [bind, Except.bind, pure, Except.pure]

theorem count_of_lt {n : Nat} (h : n < 0x10000) (defect : Defect) :
    count n defect = .ok (Bytes.ofNat 2 n) := if_pos h

/-- The bytes from one reader to another are the `size` bytes the layout serializes to. -/
def Fills (layout : Layout) (size : Nat) (r r' : Reader) : Prop :=
  ∃ bytes, r.rest = bytes ++ r'.rest ∧ layout.serialize = .ok bytes ∧ bytes.length = size

namespace Fills

theorem nil (r : Reader) : Fills [] 0 r r := ⟨[], rfl, serialize_nil, rfl⟩

private theorem ok {r r' : Reader} {bytes : Bytes} (h : r.rest = bytes ++ r'.rest) :
    Fills [.ok bytes] bytes.length r r' := ⟨bytes, h, serialize_ok bytes, rfl⟩

theorem append {front back : Layout} {m n : Nat} {r r' r'' : Reader}
    (hfront : Fills front m r r') (hback : Fills back n r' r'') :
    Fills (front ++ back) (m + n) r r'' := by
  obtain ⟨bytes, hr, hs, rfl⟩ := hfront
  obtain ⟨more, hr', hs', rfl⟩ := hback
  refine ⟨bytes ++ more, ?_, serialize_append hs hs', List.length_append⟩
  rw [hr, hr', List.append_assoc]

theorem cons {item : Except Defect Bytes} {layout : Layout} {m n : Nat} {r r' r'' : Reader}
    (hitem : Fills [item] m r r') (hrest : Fills layout n r' r'') :
    Fills (item :: layout) (m + n) r r'' := hitem.append hrest

end Fills

end Layout

namespace Reader

open Layout

theorem take_fills {n : Nat} {r r' : Reader} {bytes : Bytes} (h : r.take n = .ok (bytes, r')) :
    bytes.length = n ∧ Fills [.ok bytes] n r r' := by
  obtain ⟨hr, hn, -⟩ := take_eq_ok_iff.mp h
  exact ⟨hn, hn ▸ Fills.ok hr⟩

theorem byte_fills {r r' : Reader} {b : UInt8} (h : r.byte = .ok (b, r')) :
    Fills [.ok [b]] 1 r r' := by
  obtain ⟨position, rest⟩ := r
  cases rest with
  | nil => simp [byte] at h
  | cons a rest =>
    simp only [byte, Except.ok.injEq, Prod.mk.injEq] at h
    obtain ⟨rfl, rfl⟩ := h
    exact Fills.ok rfl

private theorem number_fills {width n : Nat} {r r' : Reader} (h : r.number width = .ok (n, r')) :
    n < Bytes.span width ∧ Fills [.ok (Bytes.ofNat width n)] width r r' := by
  simp only [number] at h
  split at h
  · next bytes r'' ht =>
    simp only [Except.ok.injEq, Prod.mk.injEq] at h
    obtain ⟨rfl, rfl⟩ := h
    obtain ⟨hlen, hfill⟩ := take_fills ht
    have hvalue : Bytes.ofNat width (Bytes.value bytes) = bytes := hlen ▸ Bytes.ofNat_value bytes
    exact ⟨hlen ▸ Bytes.value_lt bytes, hvalue.symm ▸ hfill⟩
  · cases h

theorem word16_fills {r r' : Reader} {w : UInt16} (h : r.word16 = .ok (w, r')) :
    Fills [.ok (Bytes.ofUInt16 w)] 2 r r' := by
  simp only [word16] at h
  split at h
  · next n r'' hn =>
    simp only [Except.ok.injEq, Prod.mk.injEq] at h
    obtain ⟨rfl, rfl⟩ := h
    obtain ⟨hlt, hfill⟩ := number_fills hn
    rwa [Bytes.ofUInt16, UInt16.toNat_ofNat_of_lt' hlt]
  · cases h

theorem word32_fills {r r' : Reader} {w : UInt32} (h : r.word32 = .ok (w, r')) :
    Fills [.ok (Bytes.ofUInt32 w)] 4 r r' := by
  simp only [word32] at h
  split at h
  · next n r'' hn =>
    simp only [Except.ok.injEq, Prod.mk.injEq] at h
    obtain ⟨rfl, rfl⟩ := h
    obtain ⟨hlt, hfill⟩ := number_fills hn
    rwa [Bytes.ofUInt32, UInt32.toNat_ofNat_of_lt' hlt]
  · cases h

theorem word64_fills {r r' : Reader} {w : UInt64} (h : r.word64 = .ok (w, r')) :
    Fills [.ok (Bytes.ofUInt64 w)] 8 r r' := by
  simp only [word64] at h
  split at h
  · next n r'' hn =>
    simp only [Except.ok.injEq, Prod.mk.injEq] at h
    obtain ⟨rfl, rfl⟩ := h
    obtain ⟨hlt, hfill⟩ := number_fills hn
    rwa [Bytes.ofUInt64, UInt64.toNat_ofNat_of_lt' hlt]
  · cases h

section Table

variable {α : Type} {item : Reader → Except Fault (α × Reader)} {layout : α → Layout}
  {size : α → Nat}

private theorem many_fills (hitem : ∀ {r r' : Reader} {a : α}, item r = .ok (a, r') →
      Fills (layout a) (size a) r r')
    {n : Nat} {taken all : Array α} {r r' : Reader} (h : many item n taken r = .ok (all, r')) :
    ∃ new : List α, all.toList = taken.toList ++ new ∧ new.length = n ∧
      Fills (new.flatMap layout) (total size new) r r' := by
  induction n generalizing taken r with
  | zero =>
    simp only [many, Except.ok.injEq, Prod.mk.injEq] at h
    obtain ⟨rfl, rfl⟩ := h
    exact ⟨[], by simp, rfl, Fills.nil r⟩
  | succ n ih =>
    simp only [many] at h
    split at h
    · next a r₁ ha =>
      obtain ⟨new, hall, hlen, hfill⟩ := ih h
      exact ⟨a :: new, by simpa using hall, by simp [hlen], (hitem ha).append hfill⟩
    · cases h

theorem table_fills (hitem : ∀ {r r' : Reader} {a : α}, item r = .ok (a, r') →
      Fills (layout a) (size a) r r')
    (defect : Defect) {all : Array α} {r r' : Reader} (h : r.table item = .ok (all, r')) :
    Fills (Layout.count all.size defect :: all.toList.flatMap layout)
      (2 + total size all.toList) r r' := by
  simp only [table] at h
  split at h
  · next count r₁ hcount =>
    obtain ⟨new, hall, hlen, hfill⟩ := many_fills hitem h
    have hsize : all.size = count.toNat := by rw [← Array.length_toList, hall]; simpa using hlen
    have hnew : all.toList = new := by simpa using hall
    rw [hsize, Layout.count_of_lt count.toNat_lt, hnew]
    exact (word16_fills hcount).cons hfill
  · cases h

end Table

end Reader

end Retarget
