import Mathlib.Data.List.Basic
import Mathlib.Tactic.Common
import Retarget.Text.ModifiedUtf8

/-!
The text form of class files is read back. A unit is written as bytes that give
the unit again, and the units of a character give the character again. A byte
below 0x80 is the code of a character of the string.
-/

set_option autoImplicit false

namespace Retarget.ModifiedUtf8

section Units

variable {first second third : UInt8}

theorem decodeUnits_one (h : 1 ≤ first.toNat ∧ first.toNat ≤ 0x7F) (position : Nat)
    (done : List Nat) (rest : Bytes) : decodeUnits position done (first :: rest) =
      decodeUnits (position + 1) (first.toNat :: done) rest := by
  rw [decodeUnits.eq_def]
  simp only [if_pos h]

theorem decodeUnits_two (h : 0xC0 ≤ first.toNat ∧ first.toNat ≤ 0xDF)
    (hsecond : isContinuation second = true) (position : Nat) (done : List Nat) (rest : Bytes) :
    decodeUnits position done (first :: second :: rest) = decodeUnits (position + 2)
      (((first.toNat - 0xC0) * 0x40 + payload second) :: done) rest := by
  have hone : ¬ (1 ≤ first.toNat ∧ first.toNat ≤ 0x7F) := by omega
  rw [decodeUnits.eq_def]
  simp only [if_neg hone, if_pos h, hsecond, if_true]

theorem decodeUnits_three (h : 0xE0 ≤ first.toNat ∧ first.toNat ≤ 0xEF)
    (hsecond : isContinuation second = true) (hthird : isContinuation third = true)
    (position : Nat) (done : List Nat) (rest : Bytes) :
    decodeUnits position done (first :: second :: third :: rest) = decodeUnits (position + 3)
      (((first.toNat - 0xE0) * 0x1000 + payload second * 0x40 + payload third) :: done) rest := by
  have hone : ¬ (1 ≤ first.toNat ∧ first.toNat ≤ 0x7F) := by omega
  have htwo : ¬ (0xC0 ≤ first.toNat ∧ first.toNat ≤ 0xDF) := by omega
  rw [decodeUnits.eq_def]
  simp only [if_neg hone, if_neg htwo, if_pos h, hsecond, hthird, if_true]

private theorem continues {n : Nat} (h : n < 0x40) :
    isContinuation (UInt8.ofNat (0x80 + n)) = true ∧ payload (UInt8.ofNat (0x80 + n)) = n := by
  have hn : (UInt8.ofNat (0x80 + n)).toNat = 0x80 + n := by
    rw [UInt8.toNat_ofNat']
    omega
  unfold isContinuation payload
  simp only [hn, Bool.and_eq_true, decide_eq_true_iff]
  omega

private theorem decodeUnits_encodeUnit {unit : Nat} (hunit : unit < 0x10000) (position : Nat)
    (done : List Nat) (rest : Bytes) :
    decodeUnits position done (encodeUnit unit ++ rest) =
      decodeUnits (position + (encodeUnit unit).length) (unit :: done) rest := by
  unfold encodeUnit
  split_ifs with hone htwo
  · have hfirst : (UInt8.ofNat unit).toNat = unit := by
      rw [UInt8.toNat_ofNat']
      omega
    have hstep := decodeUnits_one (hfirst.symm ▸ hone) position done rest
    rwa [hfirst] at hstep
  · have hfirst : (UInt8.ofNat (0xC0 + unit / 0x40)).toNat = 0xC0 + unit / 0x40 := by
      rw [UInt8.toNat_ofNat']
      omega
    obtain ⟨hsecond, hlow⟩ := continues (Nat.mod_lt unit (by decide))
    have hvalue : (0xC0 + unit / 0x40 - 0xC0) * 0x40 + unit % 0x40 = unit := by omega
    have hstep := decodeUnits_two (by rw [hfirst]; omega) hsecond position done rest
    rwa [hfirst, hlow, hvalue] at hstep
  · have hfirst : (UInt8.ofNat (0xE0 + unit / 0x1000)).toNat = 0xE0 + unit / 0x1000 := by
      rw [UInt8.toNat_ofNat']
      omega
    obtain ⟨hsecond, hmiddle⟩ := continues (Nat.mod_lt (unit / 0x40) (by decide))
    obtain ⟨hthird, hlow⟩ := continues (Nat.mod_lt unit (by decide))
    have hvalue : (0xE0 + unit / 0x1000 - 0xE0) * 0x1000 + unit / 0x40 % 0x40 * 0x40 +
        unit % 0x40 = unit := by omega
    have hstep := decodeUnits_three (by rw [hfirst]; omega) hsecond hthird position done rest
    rwa [hfirst, hmiddle, hlow, hvalue] at hstep

private theorem decodeUnits_flatMap {units : List Nat} (hunits : ∀ unit ∈ units, unit < 0x10000)
    (position : Nat) (done : List Nat) :
    decodeUnits position done (units.flatMap encodeUnit) = .ok (done.reverse ++ units) := by
  induction units generalizing position done with
  | nil => simp [decodeUnits]
  | cons unit units ih =>
    obtain ⟨hunit, hunits⟩ := List.forall_mem_cons.mp hunits
    rw [List.flatMap_cons, decodeUnits_encodeUnit hunit, ih hunits]
    simp

end Units

section Characters

private theorem toNat_valid (c : Char) :
    c.toNat < 0xD800 ∨ 0xDFFF < c.toNat ∧ c.toNat < 0x110000 := c.valid

theorem unitsOfChar_lt (c : Char) : ∀ unit ∈ unitsOfChar c, unit < 0x10000 := by
  have hvalid := toNat_valid c
  rw [unitsOfChar]
  split_ifs with hone
  · exact List.forall_mem_singleton.mpr hone
  · refine List.forall_mem_cons.mpr ⟨by omega, List.forall_mem_singleton.mpr (by omega)⟩

theorem isHigh_iff {unit : Nat} : isHigh unit = true ↔ 0xD800 ≤ unit ∧ unit ≤ 0xDBFF := by
  rw [isHigh, Bool.and_eq_true, decide_eq_true_iff, decide_eq_true_iff]

theorem isLow_iff {unit : Nat} : isLow unit = true ↔ 0xDC00 ≤ unit ∧ unit ≤ 0xDFFF := by
  rw [isLow, Bool.and_eq_true, decide_eq_true_iff, decide_eq_true_iff]

private theorem charsOfUnits_unitsOfChar (c : Char) (done : List Char) (rest : List Nat) :
    charsOfUnits done (unitsOfChar c ++ rest) = charsOfUnits (c :: done) rest := by
  have hvalid := toNat_valid c
  rw [unitsOfChar]
  split_ifs with hone
  · have hhigh : ¬ isHigh c.toNat = true := by rw [isHigh_iff]; omega
    have hlow : ¬ isLow c.toNat = true := by rw [isLow_iff]; omega
    rw [List.singleton_append, charsOfUnits.eq_def]
    simp only [if_neg hhigh, if_neg hlow, Char.ofNat_toNat]
  · have hhigh : isHigh (0xD800 + (c.toNat - 0x10000) / 0x400) = true := by
      rw [isHigh_iff]; omega
    have hlow : isLow (0xDC00 + (c.toNat - 0x10000) % 0x400) = true := by
      rw [isLow_iff]; omega
    have hvalue : 0x10000 + (0xD800 + (c.toNat - 0x10000) / 0x400 - 0xD800) * 0x400 +
        (0xDC00 + (c.toNat - 0x10000) % 0x400 - 0xDC00) = c.toNat := by omega
    rw [List.cons_append, List.singleton_append, charsOfUnits.eq_def]
    simp only [if_pos hhigh, if_pos hlow, hvalue, Char.ofNat_toNat]

private theorem charsOfUnits_flatMap (cs done : List Char) :
    charsOfUnits done (cs.flatMap unitsOfChar) = .ok (done.reverse ++ cs) := by
  induction cs generalizing done with
  | nil => simp [charsOfUnits]
  | cons c cs ih =>
    rw [List.flatMap_cons, charsOfUnits_unitsOfChar, ih]
    simp

end Characters

/-- A string is read back from its text. -/
theorem decode_encode (s : String) : decode (encode s) = .ok s := by
  have hunits : ∀ unit ∈ units s, unit < 0x10000 := by
    intro unit hunit
    obtain ⟨c, -, hunit⟩ := List.mem_flatMap.mp hunit
    exact unitsOfChar_lt c unit hunit
  have hdecode : decodeUnits 0 [] (encode s) = .ok (units s) := decodeUnits_flatMap hunits 0 []
  have hchars : charsOfUnits [] (units s) = .ok s.toList := charsOfUnits_flatMap s.toList []
  rw [decode, hdecode]
  simp only [hchars, String.ofList_toList]

theorem encode_injective : Function.Injective encode := by
  intro s t h
  have hs := decode_encode s
  rw [h, decode_encode] at hs
  exact (Except.ok.inj hs).symm

theorem of_mem_encodeUnit {unit : Nat} (hunit : unit < 0x10000) {b : UInt8}
    (hb : b ∈ encodeUnit unit) (hascii : b.toNat < 0x80) : unit < 0x80 ∧ b = UInt8.ofNat unit := by
  have hlarge : ∀ {n : Nat}, 0x80 ≤ n → n < 0x100 → b ≠ UInt8.ofNat n := by
    rintro n hn hn' rfl
    rw [UInt8.toNat_ofNat'] at hascii
    omega
  unfold encodeUnit at hb
  split_ifs at hb with hone htwo
  · exact ⟨by omega, List.mem_singleton.mp hb⟩
  · rcases List.mem_pair.mp hb with hb | hb
    · exact absurd hb (hlarge (by omega) (by omega))
    · exact absurd hb (hlarge (by omega) (by omega))
  · rcases List.mem_cons.mp hb with hb | hb
    · exact absurd hb (hlarge (by omega) (by omega))
    · rcases List.mem_pair.mp hb with hb | hb
      · exact absurd hb (hlarge (by omega) (by omega))
      · exact absurd hb (hlarge (by omega) (by omega))

theorem of_mem_encode {s : String} {b : UInt8} (hb : b ∈ encode s) (hascii : b.toNat < 0x80) :
    ∃ c ∈ s.toList, c.toNat < 0x80 ∧ b = c.toUInt8 := by
  obtain ⟨unit, hunit, hb⟩ := List.mem_flatMap.mp hb
  obtain ⟨c, hc, hunit⟩ := List.mem_flatMap.mp hunit
  obtain ⟨hsmall, rfl⟩ := of_mem_encodeUnit (unitsOfChar_lt c unit hunit) hb hascii
  refine ⟨c, hc, ?_⟩
  simp only [unitsOfChar] at hunit
  split_ifs at hunit with hone
  · cases List.mem_singleton.mp hunit
    exact ⟨hsmall, rfl⟩
  · have hpair := List.mem_pair.mp hunit
    omega

theorem encode_ne_nil {s : String} (h : s ≠ "") : encode s ≠ [] := by
  intro hnil
  exact h (encode_injective hnil)

end Retarget.ModifiedUtf8
