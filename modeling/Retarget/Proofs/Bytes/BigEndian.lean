import Mathlib.Tactic.Common
import Retarget.Bytes.Integer

/-!
Integers and their bytes. The digits of a value to the base 256, most
significant first, with negative values rounded down, are the bytes of its
remainder; so the value that some bytes stand for is the one value of the type
that has them as digits, and no value of the type is lost when it is written.
-/

set_option autoImplicit false

namespace Retarget

namespace Bytes

variable {width n i : Nat} {bytes : Bytes}

private theorem span_split (h : i < width) :
    span width = span (width - 1 - i) * (256 * span i) := by
  induction width with
  | zero => exact absurd h (Nat.not_lt_zero i)
  | succ width ih =>
    by_cases hi : i = width
    · subst hi
      rw [Nat.add_sub_cancel, Nat.sub_self, span, span, Nat.one_mul]
    · have hlt : i < width := by omega
      have hshift : width + 1 - 1 - i = width - 1 - i + 1 := by omega
      rw [hshift, span, ih hlt, span, Nat.mul_assoc]

private theorem getElem_ofNat (h : i < (ofNat width n).length) :
    (ofNat width n)[i] = UInt8.ofNat (n / span (width - 1 - i)) := by
  induction width generalizing i with
  | zero => cases h
  | succ width ih =>
    cases i with
    | zero => rfl
    | succ i =>
      have hshift : width + 1 - 1 - (i + 1) = width - 1 - i := by omega
      rw [hshift]
      exact ih (Nat.lt_of_succ_lt_succ h)

end Bytes

namespace IntegerType

variable {t : IntegerType} {bytes : Bytes} {v v' : Int} {i : Nat}

/-- The values of a type. A signed type has as many values below zero as it has others. -/
def Holds (t : IntegerType) (v : Int) : Prop :=
  if t.signed then -(t.range : Int) ≤ 2 * v ∧ 2 * v < t.range else 0 ≤ v ∧ v < t.range

instance (t : IntegerType) (v : Int) : Decidable (t.Holds v) :=
  inferInstanceAs (Decidable (ite _ _ _))

/-- The bytes of a value of a type are its digits to the base 256, the first counting most. -/
structure BigEndian (t : IntegerType) (bytes : Bytes) (v : Int) : Prop where
  length : bytes.length = t.width
  holds : t.Holds v
  digit : ∀ i (h : i < bytes.length),
    (bytes[i].toNat : Int) = v / Bytes.span (t.width - 1 - i) % 256

private theorem range_pos (t : IntegerType) : 0 < t.range := Bytes.span_pos t.width

private theorem range_ne_zero (t : IntegerType) : (t.range : Int) ≠ 0 :=
  Int.natCast_ne_zero.mpr (Nat.ne_of_gt t.range_pos)

private theorem toNat_emod_range (t : IntegerType) (v : Int) :
    ((v % t.range).toNat : Int) = v % t.range :=
  Int.toNat_of_nonneg (Int.emod_nonneg v t.range_ne_zero)

private theorem value_encode (t : IntegerType) (v : Int) :
    (Bytes.value (t.encode v) : Int) = v % t.range := by
  have hlt : (v % t.range).toNat < t.range := by
    have hmod := Int.emod_lt_of_pos v (Int.natCast_pos.mpr t.range_pos)
    have hcast := t.toNat_emod_range v
    omega
  rw [encode, Bytes.value_ofNat, ← range, Nat.mod_eq_of_lt hlt, toNat_emod_range]

private theorem decode_emod (t : IntegerType) (bytes : Bytes) :
    t.decode bytes % t.range = Bytes.value bytes % t.range := by
  rw [decode]
  split_ifs
  · exact Int.bmod_emod
  · rfl

theorem decode_encode (h : t.Holds v) : t.decode (t.encode v) = v := by
  rw [decode, value_encode]
  rw [Holds] at h
  split_ifs at h ⊢
  · rw [Int.emod_bmod]
    exact Int.bmod_eq_of_le_mul_two (by omega) (by omega)
  · exact Int.emod_eq_of_lt h.1 h.2

private theorem encode_decode (h : bytes.length = t.width) : t.encode (t.decode bytes) = bytes := by
  have hlt : Bytes.value bytes < t.range := by
    rw [range, ← h]
    exact Bytes.value_lt bytes
  have hmod : t.decode bytes % t.range = (Bytes.value bytes : Int) := by
    rw [decode_emod]
    exact Int.emod_eq_of_lt (Int.natCast_nonneg _) (Int.ofNat_lt.mpr hlt)
  rw [encode, hmod, Int.toNat_natCast, ← h, Bytes.ofNat_value]

private theorem holds_decode (h : bytes.length = t.width) : t.Holds (t.decode bytes) := by
  have hlt : Bytes.value bytes < t.range := by
    rw [range, ← h]
    exact Bytes.value_lt bytes
  rw [Holds, decode]
  split_ifs
  · have hlower := Int.le_bmod (x := Bytes.value bytes) t.range_pos
    have hupper := Int.bmod_lt (x := Bytes.value bytes) t.range_pos
    constructor <;> omega
  · exact ⟨Int.natCast_nonneg _, Int.ofNat_lt.mpr hlt⟩

private theorem digit_encode (t : IntegerType) (v : Int) (h : i < (t.encode v).length) :
    ((t.encode v)[i].toNat : Int) = v / Bytes.span (t.width - 1 - i) % 256 := by
  have hi : i < t.width := by rwa [length_encode] at h
  have hspan : (Bytes.span (t.width - 1 - i) : Int) ≠ 0 :=
    Int.natCast_ne_zero.mpr (Nat.ne_of_gt (Bytes.span_pos _))
  have hrange : (t.range : Int) = Bytes.span (t.width - 1 - i) * (256 * Bytes.span i) := by
    rw [range, Bytes.span_split hi, Int.natCast_mul, Int.natCast_mul]
    rfl
  -- whole ranges that are taken away change the quotient by multiples of 256
  have hquotient : v % t.range / Bytes.span (t.width - 1 - i) =
      v / Bytes.span (t.width - 1 - i) + 256 * -(Bytes.span i * (v / t.range)) := by
    rw [Int.emod_def, hrange, ← Int.add_mul_ediv_left _ _ hspan, Int.sub_eq_add_neg, Int.mul_neg,
      Int.mul_neg, Int.mul_assoc, Int.mul_assoc]
  have hbyte : ((t.encode v)[i].toNat : Int) =
      v % t.range / Bytes.span (t.width - 1 - i) % 256 := by
    rw [← toNat_emod_range, ← Int.natCast_ediv]
    simp only [encode, Bytes.getElem_ofNat, UInt8.toNat_ofNat']
    rfl
  rw [hbyte, hquotient, Int.add_mul_emod_self_left]

private theorem bigEndian_encode (h : t.Holds v) : t.BigEndian (t.encode v) v :=
  ⟨length_encode t v, h, fun _ hi => digit_encode t v hi⟩

private theorem BigEndian.encode_eq (h : t.BigEndian bytes v) : t.encode v = bytes := by
  refine List.ext_getElem ((length_encode t v).trans h.length.symm) fun i hi hi' => ?_
  have hdigit := (digit_encode t v hi).trans (h.digit i hi').symm
  exact UInt8.toNat_inj.mp (Int.ofNat_inj.mp hdigit)

/-- Bytes of the width of a type stand for the value of which they are the digits. -/
theorem bigEndian_iff : t.BigEndian bytes v ↔ bytes.length = t.width ∧ t.decode bytes = v := by
  constructor
  · intro h
    refine ⟨h.length, ?_⟩
    rw [← h.encode_eq, decode_encode h.holds]
  · rintro ⟨hlength, rfl⟩
    have hencode := bigEndian_encode (holds_decode hlength)
    rwa [encode_decode hlength] at hencode

theorem BigEndian.unique (h : t.BigEndian bytes v) (h' : t.BigEndian bytes v') : v = v' :=
  (bigEndian_iff.mp h).2.symm.trans (bigEndian_iff.mp h').2

end IntegerType

end Retarget
