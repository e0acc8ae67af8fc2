import Mathlib.Algebra.Order.BigOperators.Group.List
import Mathlib.Algebra.Order.Group.Nat
import Mathlib.Data.Nat.Bitwise
import Retarget.Proofs.Text.ModifiedUtf8

/-!
Which bytes are texts, and which texts are written as strings are. Bytes are cut
into sequences of one, two or three, each of which carries a unit; they are a
text exactly if no surrogate among the units stands alone. Writing the string of
a text gives the text back unless a sequence in it is longer than its unit needs.
-/

set_option autoImplicit false

namespace Retarget.ModifiedUtf8

/-- The bytes that carry one unit. -/
inductive Sequence where
  | one (first : UInt8)
  | two (first second : UInt8)
  | three (first second third : UInt8)
  deriving DecidableEq

namespace Sequence

def bytes : Sequence → Bytes
  | one first => [first]
  | two first second => [first, second]
  | three first second third => [first, second, third]

def unit : Sequence → Nat
  | one first => first.toNat
  | two first second => ((first.toNat &&& 0x1F) <<< 6) + (second.toNat &&& 0x3F)
  | three first second third =>
    ((first.toNat &&& 0x0F) <<< 12) + ((second.toNat &&& 0x3F) <<< 6) + (third.toNat &&& 0x3F)

/-- The bytes are marked as the first and the further ones of a sequence of this length. -/
def Marked : Sequence → Prop
  | one first => 0x01 ≤ first ∧ first ≤ 0x7F
  | two first second => (0xC0 ≤ first ∧ first ≤ 0xDF) ∧ 0x80 ≤ second ∧ second ≤ 0xBF
  | three first second third =>
    (0xE0 ≤ first ∧ first ≤ 0xEF) ∧ (0x80 ≤ second ∧ second ≤ 0xBF) ∧ 0x80 ≤ third ∧ third ≤ 0xBF

/-- Two bytes for a unit that fits one, or three for a unit that fits two. Zero takes two. -/
def Overlong (part : Sequence) : Prop :=
  match part with
  | one _ => False
  | two .. => 0x01 ≤ part.unit ∧ part.unit ≤ 0x7F
  | three .. => part.unit < 0x800

instance : DecidablePred Marked
  | one _ => inferInstanceAs (Decidable (_ ∧ _))
  | two .. => inferInstanceAs (Decidable ((_ ∧ _) ∧ _ ∧ _))
  | three .. => inferInstanceAs (Decidable ((_ ∧ _) ∧ (_ ∧ _) ∧ _ ∧ _))

instance : DecidablePred Overlong
  | one _ => inferInstanceAs (Decidable False)
  | two .. => inferInstanceAs (Decidable (_ ∧ _))
  | three .. => inferInstanceAs (Decidable (_ < _))

end Sequence

/-- The bytes are sequences, one behind the other. -/
structure Cut (bytes : Bytes) (parts : List Sequence) : Prop where
  joined : parts.flatMap Sequence.bytes = bytes
  marked : ∀ part ∈ parts, part.Marked

/-- Behind each high surrogate stands a low one, and in front of each low one a high one. -/
def Paired (units : List Nat) : Prop :=
  ∀ (i unit : Nat), units[i]? = some unit →
    (isHigh unit = true → ∃ low, units[i + 1]? = some low ∧ isLow low = true) ∧
    (isLow unit = true → ∃ j high, i = j + 1 ∧ units[j]? = some high ∧ isHigh high = true)

section Sequences

variable {first second third : UInt8} {part : Sequence} {parts : List Sequence} {bytes : Bytes}
  {position : Nat} {done units : List Nat}

private theorem isContinuation_iff :
    isContinuation second = true ↔ 0x80 ≤ second ∧ second ≤ 0xBF := by
  rw [isContinuation, Bool.and_eq_true, decide_eq_true_iff, decide_eq_true_iff,
    UInt8.le_iff_toNat_le, UInt8.le_iff_toNat_le]
  rfl

private theorem toNat_mem_iff {low high : UInt8} :
    low ≤ first ∧ first ≤ high ↔ low.toNat ≤ first.toNat ∧ first.toNat ≤ high.toNat := by
  rw [UInt8.le_iff_toNat_le, UInt8.le_iff_toNat_le]

private theorem payload_eq (h : 0x80 ≤ second ∧ second ≤ 0xBF) :
    second.toNat &&& 0x3F = payload second := by
  have hbounds : 0x80 ≤ second.toNat ∧ second.toNat ≤ 0xBF := toNat_mem_iff.mp h
  have hlow : second.toNat &&& 0x3F = second.toNat % 0x40 :=
    Nat.and_two_pow_sub_one_eq_mod second.toNat 6
  unfold payload
  omega

private theorem unit_two (hfirst : 0xC0 ≤ first ∧ first ≤ 0xDF)
    (hsecond : 0x80 ≤ second ∧ second ≤ 0xBF) :
    (Sequence.two first second).unit = (first.toNat - 0xC0) * 0x40 + payload second := by
  have hbounds : 0xC0 ≤ first.toNat ∧ first.toNat ≤ 0xDF := toNat_mem_iff.mp hfirst
  have hlead : first.toNat &&& 0x1F = first.toNat - 0xC0 := by
    rw [Nat.and_two_pow_sub_one_eq_mod first.toNat 5]
    omega
  rw [Sequence.unit, hlead, payload_eq hsecond, Nat.shiftLeft_eq]

private theorem unit_three (hfirst : 0xE0 ≤ first ∧ first ≤ 0xEF)
    (hsecond : 0x80 ≤ second ∧ second ≤ 0xBF) (hthird : 0x80 ≤ third ∧ third ≤ 0xBF) :
    (Sequence.three first second third).unit =
      (first.toNat - 0xE0) * 0x1000 + payload second * 0x40 + payload third := by
  have hbounds : 0xE0 ≤ first.toNat ∧ first.toNat ≤ 0xEF := toNat_mem_iff.mp hfirst
  have hlead : first.toNat &&& 0x0F = first.toNat - 0xE0 := by
    rw [Nat.and_two_pow_sub_one_eq_mod first.toNat 4]
    omega
  rw [Sequence.unit, hlead, payload_eq hsecond, payload_eq hthird, Nat.shiftLeft_eq,
    Nat.shiftLeft_eq]

private theorem payload_lt (h : 0x80 ≤ second ∧ second ≤ 0xBF) : payload second < 0x40 := by
  have hbounds : 0x80 ≤ second.toNat ∧ second.toNat ≤ 0xBF := toNat_mem_iff.mp h
  unfold payload
  omega

private theorem unit_lt (h : part.Marked) : part.unit < 0x10000 := by
  cases part with
  | one first =>
    have hbounds : 1 ≤ first.toNat ∧ first.toNat ≤ 0x7F := toNat_mem_iff.mp h
    rw [Sequence.unit]
    omega
  | two first second =>
    obtain ⟨hfirst, hsecond⟩ := h
    have hbounds : 0xC0 ≤ first.toNat ∧ first.toNat ≤ 0xDF := toNat_mem_iff.mp hfirst
    have hlow := payload_lt hsecond
    rw [unit_two hfirst hsecond]
    omega
  | three first second third =>
    obtain ⟨hfirst, hsecond, hthird⟩ := h
    have hbounds : 0xE0 ≤ first.toNat ∧ first.toNat ≤ 0xEF := toNat_mem_iff.mp hfirst
    have hmiddle := payload_lt hsecond
    have hlow := payload_lt hthird
    rw [unit_three hfirst hsecond hthird]
    omega

private theorem decodeUnits_sequence (h : part.Marked) (position : Nat) (done : List Nat)
    (rest : Bytes) :
    decodeUnits position done (part.bytes ++ rest) =
      decodeUnits (position + part.bytes.length) (part.unit :: done) rest := by
  cases part with
  | one first => exact decodeUnits_one (toNat_mem_iff.mp h) position done rest
  | two first second =>
    obtain ⟨hfirst, hsecond⟩ := h
    rw [unit_two hfirst hsecond]
    exact decodeUnits_two (toNat_mem_iff.mp hfirst) (isContinuation_iff.mpr hsecond) position done
      rest
  | three first second third =>
    obtain ⟨hfirst, hsecond, hthird⟩ := h
    rw [unit_three hfirst hsecond hthird]
    exact decodeUnits_three (toNat_mem_iff.mp hfirst) (isContinuation_iff.mpr hsecond)
      (isContinuation_iff.mpr hthird) position done rest

private theorem decodeUnits_of_cut (h : Cut bytes parts) :
    decodeUnits position done bytes = .ok (done.reverse ++ parts.map Sequence.unit) := by
  obtain ⟨rfl, hmarked⟩ := h
  induction parts generalizing position done with
  | nil => simp [decodeUnits]
  | cons part parts ih =>
    obtain ⟨hpart, hparts⟩ := List.forall_mem_cons.mp hmarked
    rw [List.flatMap_cons, decodeUnits_sequence hpart, ih hparts]
    simp

private theorem Cut.cons (hpart : part.Marked) (h : Cut bytes parts) :
    Cut (part.bytes ++ bytes) (part :: parts) where
  joined := by rw [List.flatMap_cons, h.joined]
  marked := List.forall_mem_cons.mpr ⟨hpart, h.marked⟩

private theorem exists_cut_of_decodeUnits (h : decodeUnits position done bytes = .ok units) :
    ∃ parts, Cut bytes parts := by
  fun_induction decodeUnits position done bytes with
  | case1 => exact ⟨[], rfl, by simp⟩
  | case2 position done first rest n hone ih =>
    obtain ⟨parts, hparts⟩ := ih h
    have hpart : (Sequence.one first).Marked := toNat_mem_iff.mpr hone
    exact ⟨_, hparts.cons hpart⟩
  | case4 position done first n _ htwo second rest hsecond ih =>
    obtain ⟨parts, hparts⟩ := ih h
    have hpart : (Sequence.two first second).Marked :=
      ⟨toNat_mem_iff.mpr htwo, isContinuation_iff.mp hsecond⟩
    exact ⟨_, hparts.cons hpart⟩
  | case8 position done first n _ _ hthree second hsecond third rest hthird ih =>
    obtain ⟨parts, hparts⟩ := ih h
    have hpart : (Sequence.three first second third).Marked :=
      ⟨toNat_mem_iff.mpr hthree, isContinuation_iff.mp hsecond, isContinuation_iff.mp hthird⟩
    exact ⟨_, hparts.cons hpart⟩
  | _ => cases h

end Sequences

section Lengths

variable {part : Sequence} {parts : List Sequence} {bytes : Bytes}

private theorem encodeUnit_of_not_overlong (h : part.Marked) (hshort : ¬ part.Overlong) :
    encodeUnit part.unit = part.bytes := by
  cases part with
  | one first =>
    have hbounds : 1 ≤ first.toNat ∧ first.toNat ≤ 0x7F := toNat_mem_iff.mp h
    rw [Sequence.unit, encodeUnit, if_pos hbounds, UInt8.ofNat_toNat, Sequence.bytes]
  | two first second =>
    obtain ⟨hfirst, hsecond⟩ := h
    have hlead : 0xC0 ≤ first.toNat ∧ first.toNat ≤ 0xDF := toNat_mem_iff.mp hfirst
    have hnext : 0x80 ≤ second.toNat ∧ second.toNat ≤ 0xBF := toNat_mem_iff.mp hsecond
    have hlow := payload_lt hsecond
    have hunit := unit_two hfirst hsecond
    have hfits : (Sequence.two first second).unit ≤ 0x7FF := by omega
    have hone : 0xC0 + (Sequence.two first second).unit / 0x40 = first.toNat := by omega
    have htwo : 0x80 + (Sequence.two first second).unit % 0x40 = second.toNat := by
      unfold payload at hunit
      omega
    have hnotOne : ¬ (1 ≤ (Sequence.two first second).unit ∧
        (Sequence.two first second).unit ≤ 0x7F) := hshort
    rw [encodeUnit, if_neg hnotOne, if_pos hfits, hone, htwo, UInt8.ofNat_toNat,
      UInt8.ofNat_toNat, Sequence.bytes]
  | three first second third =>
    obtain ⟨hfirst, hsecond, hthird⟩ := h
    have hlead : 0xE0 ≤ first.toNat ∧ first.toNat ≤ 0xEF := toNat_mem_iff.mp hfirst
    have hnext : 0x80 ≤ second.toNat ∧ second.toNat ≤ 0xBF := toNat_mem_iff.mp hsecond
    have hlast : 0x80 ≤ third.toNat ∧ third.toNat ≤ 0xBF := toNat_mem_iff.mp hthird
    have hmiddle := payload_lt hsecond
    have hlow := payload_lt hthird
    have hunit := unit_three hfirst hsecond hthird
    have hlong : 0x800 ≤ (Sequence.three first second third).unit := Nat.le_of_not_lt hshort
    have hnotOne : ¬ (1 ≤ (Sequence.three first second third).unit ∧
        (Sequence.three first second third).unit ≤ 0x7F) := by omega
    have hnotTwo : ¬ (Sequence.three first second third).unit ≤ 0x7FF := by omega
    have hone : 0xE0 + (Sequence.three first second third).unit / 0x1000 = first.toNat := by omega
    have htwo : 0x80 + (Sequence.three first second third).unit / 0x40 % 0x40 = second.toNat := by
      unfold payload at hunit hlow hmiddle
      omega
    have hthree : 0x80 + (Sequence.three first second third).unit % 0x40 = third.toNat := by
      unfold payload at hunit hlow
      omega
    rw [encodeUnit, if_neg hnotOne, if_neg hnotTwo, hone, htwo, hthree, UInt8.ofNat_toNat,
      UInt8.ofNat_toNat, UInt8.ofNat_toNat, Sequence.bytes]

private theorem length_encodeUnit_lt (h : part.Overlong) :
    (encodeUnit part.unit).length < part.bytes.length := by
  cases part with
  | one first => cases h
  | two first second =>
    have hunit : 1 ≤ (Sequence.two first second).unit ∧
        (Sequence.two first second).unit ≤ 0x7F := h
    rw [encodeUnit, if_pos hunit]
    simp [Sequence.bytes]
  | three first second third =>
    have hunit : (Sequence.three first second third).unit ≤ 0x7FF := Nat.le_of_lt_succ h
    unfold encodeUnit
    split_ifs <;> simp [Sequence.bytes]

private theorem flatMap_encodeUnit_eq_iff (h : Cut bytes parts) :
    (parts.map Sequence.unit).flatMap encodeUnit = bytes ↔ ∀ part ∈ parts, ¬ part.Overlong := by
  obtain ⟨rfl, hmarked⟩ := h
  rw [List.flatMap_map]
  constructor
  · intro hsame part hpart hlong
    have hle : ∀ part ∈ parts, (encodeUnit part.unit).length ≤ part.bytes.length := by
      intro part hpart
      by_cases hlong : part.Overlong
      · exact (length_encodeUnit_lt hlong).le
      · rw [encodeUnit_of_not_overlong (hmarked part hpart) hlong]
    have hlength := congrArg List.length hsame
    rw [List.length_flatMap, List.length_flatMap] at hlength
    have hless := List.sum_lt_sum (fun part : Sequence => (encodeUnit part.unit).length)
      (fun part => part.bytes.length) hle ⟨part, hpart, length_encodeUnit_lt hlong⟩
    exact absurd hlength hless.ne
  · intro hshort
    exact List.flatMap_congr fun part hpart =>
      encodeUnit_of_not_overlong (hmarked part hpart) (hshort part hpart)

end Lengths

section Surrogates

variable {unit low : Nat} {rest units : List Nat} {done chars : List Char}

private theorem not_isLow_of_isHigh (h : isHigh unit = true) : isLow unit = false := by
  rw [isHigh_iff] at h
  rw [← Bool.not_eq_true, isLow_iff]
  omega

private theorem paired_nil : Paired [] := by
  intro i unit hunit
  simp at hunit

private theorem paired_cons_iff (hhigh : isHigh unit = false) (hlow : isLow unit = false) :
    Paired (unit :: rest) ↔ Paired rest := by
  constructor
  · intro h i next hnext
    obtain ⟨hbehind, hbefore⟩ := h (i + 1) next hnext
    refine ⟨hbehind, fun hnextLow => ?_⟩
    obtain ⟨j, high, hij, hget, hgetHigh⟩ := hbefore hnextLow
    obtain rfl : i = j := Nat.succ.inj hij
    cases i with
    | zero =>
      obtain rfl : unit = high := Option.some.inj hget
      rw [hhigh] at hgetHigh
      cases hgetHigh
    | succ k => exact ⟨k, high, rfl, hget, hgetHigh⟩
  · intro h i next hnext
    cases i with
    | zero =>
      obtain rfl : unit = next := Option.some.inj hnext
      rw [hhigh, hlow]
      exact ⟨fun hfalse => absurd hfalse Bool.false_ne_true,
        fun hfalse => absurd hfalse Bool.false_ne_true⟩
    | succ k =>
      obtain ⟨hbehind, hbefore⟩ := h k next hnext
      refine ⟨hbehind, fun hnextLow => ?_⟩
      obtain ⟨j, high, rfl, hget, hgetHigh⟩ := hbefore hnextLow
      exact ⟨j + 1, high, rfl, hget, hgetHigh⟩

private theorem paired_pair_iff (hhigh : isHigh unit = true) (hlow : isLow low = true) :
    Paired (unit :: low :: rest) ↔ Paired rest := by
  have hlowHigh : isHigh low = false := by
    rw [← Bool.not_eq_true]
    intro hboth
    rw [not_isLow_of_isHigh hboth] at hlow
    cases hlow
  constructor
  · intro h i next hnext
    obtain ⟨hbehind, hbefore⟩ := h (i + 2) next hnext
    refine ⟨hbehind, fun hnextLow => ?_⟩
    obtain ⟨j, high, hij, hget, hgetHigh⟩ := hbefore hnextLow
    obtain rfl : i + 1 = j := Nat.succ.inj hij
    cases i with
    | zero =>
      obtain rfl : low = high := Option.some.inj hget
      rw [hlowHigh] at hgetHigh
      cases hgetHigh
    | succ k => exact ⟨k, high, rfl, hget, hgetHigh⟩
  · intro h i next hnext
    match i with
    | 0 =>
      obtain rfl : unit = next := Option.some.inj hnext
      refine ⟨fun _ => ⟨low, rfl, hlow⟩, fun hunitLow => ?_⟩
      rw [not_isLow_of_isHigh hhigh] at hunitLow
      cases hunitLow
    | 1 =>
      obtain rfl : low = next := Option.some.inj hnext
      refine ⟨fun hboth => ?_, fun _ => ⟨0, unit, rfl, rfl, hhigh⟩⟩
      rw [hlowHigh] at hboth
      cases hboth
    | k + 2 =>
      obtain ⟨hbehind, hbefore⟩ := h k next hnext
      refine ⟨hbehind, fun hnextLow => ?_⟩
      obtain ⟨j, high, rfl, hget, hgetHigh⟩ := hbefore hnextLow
      exact ⟨j + 2, high, rfl, hget, hgetHigh⟩

private theorem charsOfUnits_ok_iff (done : List Char) :
    (∃ chars, charsOfUnits done units = .ok chars) ↔ Paired units := by
  fun_induction charsOfUnits done units with
  | case1 => simp [paired_nil]
  | case2 done unit hhigh low rest hlow n ih => rw [ih, paired_pair_iff hhigh hlow]
  | case3 done unit hhigh low rest hlow =>
    refine iff_of_false (by simp) fun h => ?_
    obtain ⟨next, hnext, hnextLow⟩ := (h 0 unit rfl).1 hhigh
    obtain rfl : low = next := Option.some.inj hnext
    exact hlow hnextLow
  | case4 done unit hhigh =>
    refine iff_of_false (by simp) fun h => ?_
    obtain ⟨next, hnext, -⟩ := (h 0 unit rfl).1 hhigh
    cases hnext
  | case5 done unit rest hhigh hlow =>
    refine iff_of_false (by simp) fun h => ?_
    obtain ⟨j, high, hj, -⟩ := (h 0 unit rfl).2 hlow
    cases hj
  | case6 done unit rest hhigh hlow ih =>
    rw [ih, paired_cons_iff (by simpa using hhigh) (by simpa using hlow)]

end Surrogates

section Strings

variable {parts : List Sequence} {bytes : Bytes} {codes : List Nat} {done chars : List Char}
  {s : String}

private theorem toNat_ofNat_of_valid {n : Nat} (h : n.isValidChar) : (Char.ofNat n).toNat = n := by
  rw [Char.ofNat, dif_pos h]
  rfl

private theorem unitsOfChar_ofNat {unit : Nat} (hunit : unit < 0x10000)
    (hhigh : ¬ isHigh unit = true)
    (hlow : ¬ isLow unit = true) : unitsOfChar (Char.ofNat unit) = [unit] := by
  rw [isHigh_iff] at hhigh
  rw [isLow_iff] at hlow
  have hvalid : unit.isValidChar := by
    unfold Nat.isValidChar
    omega
  have hcode : (Char.ofNat unit).toNat = unit := toNat_ofNat_of_valid hvalid
  simp only [unitsOfChar, hcode, if_pos hunit]

private theorem unitsOfChar_pair {high low : Nat} (hhigh : isHigh high = true)
    (hlow : isLow low = true) :
    unitsOfChar (Char.ofNat (0x10000 + (high - 0xD800) * 0x400 + (low - 0xDC00))) =
      [high, low] := by
  rw [isHigh_iff] at hhigh
  rw [isLow_iff] at hlow
  have hvalid : (0x10000 + (high - 0xD800) * 0x400 + (low - 0xDC00)).isValidChar := by
    unfold Nat.isValidChar
    omega
  have hcode := toNat_ofNat_of_valid hvalid
  have hbeyond : ¬ 0x10000 + (high - 0xD800) * 0x400 + (low - 0xDC00) < 0x10000 := by omega
  have hfirst : 0xD800 +
      (0x10000 + (high - 0xD800) * 0x400 + (low - 0xDC00) - 0x10000) / 0x400 = high := by omega
  have hsecond : 0xDC00 +
      (0x10000 + (high - 0xD800) * 0x400 + (low - 0xDC00) - 0x10000) % 0x400 = low := by omega
  simp only [unitsOfChar, hcode, if_neg hbeyond, hfirst, hsecond]

private theorem units_of_charsOfUnits (hcodes : ∀ code ∈ codes, code < 0x10000)
    (h : charsOfUnits done codes = .ok chars) :
    chars.flatMap unitsOfChar = done.reverse.flatMap unitsOfChar ++ codes := by
  fun_induction charsOfUnits done codes with
  | case1 done =>
    cases h
    simp
  | case2 done unit hhigh low rest hlow n ih =>
    obtain ⟨-, hbehind⟩ := List.forall_mem_cons.mp hcodes
    obtain ⟨-, hrest⟩ := List.forall_mem_cons.mp hbehind
    rw [ih hrest h]
    simp [n, unitsOfChar_pair hhigh hlow]
  | case6 done unit rest hhigh hlow ih =>
    obtain ⟨hunit, hrest⟩ := List.forall_mem_cons.mp hcodes
    rw [ih hrest h]
    simp [unitsOfChar_ofNat hunit hhigh hlow]
  | _ => cases h

private theorem decode_eq_ok_iff (hcut : Cut bytes parts) : decode bytes = .ok s ↔
    ∃ chars, charsOfUnits [] (parts.map Sequence.unit) = .ok chars ∧ String.ofList chars = s := by
  have hread : decodeUnits 0 [] bytes = .ok (parts.map Sequence.unit) := decodeUnits_of_cut hcut
  simp only [decode, hread]
  split
  · next chars hchars => simp [hchars]
  · next fault hfault => simp [hfault]

private theorem units_of_decode (h : decode bytes = .ok s) (hcut : Cut bytes parts) :
    units s = parts.map Sequence.unit := by
  have hsmall : ∀ unit ∈ parts.map Sequence.unit, unit < 0x10000 := by
    intro unit hunit
    obtain ⟨part, hpart, rfl⟩ := List.mem_map.mp hunit
    exact unit_lt (hcut.marked part hpart)
  obtain ⟨chars, hchars, rfl⟩ := (decode_eq_ok_iff hcut).mp h
  rw [units, String.toList_ofList]
  simpa using units_of_charsOfUnits hsmall hchars

private theorem decode_ok_iff :
    (∃ s, decode bytes = .ok s) ↔ ∃ parts, Cut bytes parts ∧ Paired (parts.map Sequence.unit) := by
  constructor
  · rintro ⟨s, h⟩
    cases hread : decodeUnits 0 [] bytes with
    | error defect => simp [decode, hread] at h
    | ok units =>
      obtain ⟨parts, hcut⟩ := exists_cut_of_decodeUnits hread
      obtain ⟨chars, hchars, -⟩ := (decode_eq_ok_iff hcut).mp h
      exact ⟨parts, hcut, (charsOfUnits_ok_iff []).mp ⟨chars, hchars⟩⟩
  · rintro ⟨parts, hcut, hpaired⟩
    obtain ⟨chars, hchars⟩ := (charsOfUnits_ok_iff []).mpr hpaired
    exact ⟨_, (decode_eq_ok_iff hcut).mpr ⟨chars, hchars, rfl⟩⟩

private theorem zero_not_mem_encode (s : String) : 0 ∉ encode s := by
  intro hzero
  obtain ⟨unit, hunit, hbyte⟩ := List.mem_flatMap.mp hzero
  obtain ⟨c, -, hmem⟩ := List.mem_flatMap.mp hunit
  obtain ⟨hsmall, hcode⟩ := of_mem_encodeUnit (unitsOfChar_lt c unit hmem) hbyte (by decide)
  have hnone : unit = 0 := by
    have hsame := congrArg UInt8.toNat hcode
    rw [UInt8.toNat_ofNat'] at hsame
    have hleft : (0 : UInt8).toNat = 0 := rfl
    omega
  subst hnone
  revert hbyte
  decide

end Strings

section Ascii

/-- The bytes are codes of ASCII characters other than zero. -/
def IsAscii (bytes : Bytes) : Prop := ∀ b ∈ bytes, b ≠ 0 ∧ b < 0x80

def utf8 (s : String) : Bytes := s.toUTF8.data.toList

variable {bytes : Bytes} {s : String}

private theorem utf8_eq (s : String) : utf8 s = s.toList.flatMap String.utf8EncodeChar := by
  have hbytes : s.toByteArray = s.toList.utf8Encode := (String.utf8Encode_toList).symm
  rw [utf8, String.toUTF8, hbytes, List.utf8Encode, List.data_toByteArray]

private theorem encode_char_of_isAscii {c : Char} (h : IsAscii (String.utf8EncodeChar c)) :
    (unitsOfChar c).flatMap encodeUnit = String.utf8EncodeChar c := by
  have hlarge : ∀ {n : Nat}, 0x80 ≤ n → n < 0x100 → ¬ UInt8.ofNat n < 0x80 := by
    intro n hlow hhigh hlt
    rw [UInt8.lt_iff_toNat_lt, UInt8.toNat_ofNat'] at hlt
    have hright : (0x80 : UInt8).toNat = 0x80 := rfl
    omega
  unfold String.utf8EncodeChar at h ⊢
  simp only at h ⊢
  split_ifs at h ⊢ with hone htwo hthree
  · obtain ⟨hzero, -⟩ := h _ List.mem_cons_self
    have hpos : 1 ≤ c.toNat := by
      rw [Nat.one_le_iff_ne_zero]
      rintro hnone
      exact hzero (congrArg UInt8.ofNat hnone)
    have hsmall : c.toNat < 0x10000 := by
      have hcode : c.toNat ≤ 127 := hone
      omega
    rw [unitsOfChar]
    simp only [if_pos hsmall, List.flatMap_singleton, encodeUnit]
    rw [if_pos ⟨hpos, hone⟩]
    rfl
  · exact absurd (h _ List.mem_cons_self).2 (hlarge (by omega) (by omega))
  · exact absurd (h _ List.mem_cons_self).2 (hlarge (by omega) (by omega))
  · exact absurd (h _ List.mem_cons_self).2 (hlarge (by omega) (by omega))

private theorem encode_of_isAscii (h : IsAscii (utf8 s)) : encode s = utf8 s := by
  rw [utf8_eq] at h ⊢
  rw [encode, units, List.flatMap_assoc]
  exact List.flatMap_congr fun c hc =>
    encode_char_of_isAscii fun b hb => h b (List.mem_flatMap.mpr ⟨c, hc, hb⟩)

private theorem utf8EncodeChar_of_lt {b : UInt8} (h : b < 0x80) :
    String.utf8EncodeChar (Char.ofNat b.toNat) = [b] := by
  have hsmall : b.toNat < 0x80 := h
  have hvalid : b.toNat.isValidChar := by
    unfold Nat.isValidChar
    omega
  have hcode : (Char.ofNat b.toNat).val.toNat = b.toNat := toNat_ofNat_of_valid hvalid
  unfold String.utf8EncodeChar
  simp only [hcode]
  rw [if_pos (Nat.le_of_lt_succ hsmall), UInt8.ofNat_toNat]

private theorem decode_of_isAscii (h : IsAscii bytes) :
    ∃ s, utf8 s = bytes ∧ decode bytes = .ok s := by
  let s := String.ofList (bytes.map fun b => Char.ofNat b.toNat)
  have hutf8 : utf8 s = bytes := by
    rw [utf8_eq, String.toList_ofList, List.flatMap_map]
    calc bytes.flatMap (fun b => String.utf8EncodeChar (Char.ofNat b.toNat))
        = bytes.flatMap (fun b => [b]) :=
          List.flatMap_congr fun b hb => utf8EncodeChar_of_lt (h b hb).2
      _ = bytes := List.flatMap_singleton' bytes
  have hencode : encode s = bytes := (encode_of_isAscii (hutf8.symm ▸ h)).trans hutf8
  exact ⟨s, hutf8, by rw [← hencode, decode_encode]⟩

end Ascii

/-- A string is read back from its text, which holds no zero byte. The bytes that are a text are
those that are cut into sequences without a surrogate that stands alone; the string of a text is
written as that text exactly if no sequence in it is longer than needed. ASCII is taken as it is,
both ways. -/
theorem text_laws :
    (∀ s : String, decode (encode s) = .ok s ∧ 0 ∉ encode s) ∧
    (∀ (bytes : Bytes) (s : String) (parts : List Sequence), decode bytes = .ok s →
      Cut bytes parts → (encode s = bytes ↔ ∀ part ∈ parts, ¬ part.Overlong)) ∧
    (∀ bytes : Bytes, (∃ s, decode bytes = .ok s) ↔
      ∃ parts, Cut bytes parts ∧ Paired (parts.map Sequence.unit)) ∧
    (∀ s : String, IsAscii (utf8 s) → encode s = utf8 s) ∧
    ∀ bytes : Bytes, IsAscii bytes → ∃ s, utf8 s = bytes ∧ decode bytes = .ok s := by
  refine ⟨fun s => ⟨decode_encode s, zero_not_mem_encode s⟩, ?_, fun bytes => decode_ok_iff,
    fun s => encode_of_isAscii, fun bytes => decode_of_isAscii⟩
  intro bytes s parts hdecode hcut
  have hunits : units s = parts.map Sequence.unit := units_of_decode hdecode hcut
  rw [encode, hunits]
  exact flatMap_encodeUnit_eq_iff hcut

/-- The letters `A` and `B` and a smiling face, of which `B` takes two bytes where one would do. -/
theorem text_laws_overlongSample :
    decode [0x41, 0xC1, 0x82, 0xED, 0xA0, 0xBD, 0xED, 0xB8, 0x80] = .ok "AB😀" ∧
    Cut [0x41, 0xC1, 0x82, 0xED, 0xA0, 0xBD, 0xED, 0xB8, 0x80]
      [.one 0x41, .two 0xC1 0x82, .three 0xED 0xA0 0xBD, .three 0xED 0xB8 0x80] ∧
    encode "AB😀" ≠ [0x41, 0xC1, 0x82, 0xED, 0xA0, 0xBD, 0xED, 0xB8, 0x80] := by
  have hdecode : decode [0x41, 0xC1, 0x82, 0xED, 0xA0, 0xBD, 0xED, 0xB8, 0x80] = .ok "AB😀" := by
    decide +kernel
  have hcut : Cut [0x41, 0xC1, 0x82, 0xED, 0xA0, 0xBD, 0xED, 0xB8, 0x80]
      [.one 0x41, .two 0xC1 0x82, .three 0xED 0xA0 0xBD, .three 0xED 0xB8 0x80] :=
    ⟨rfl, by decide⟩
  have hlong : (Sequence.two 0xC1 0x82).Overlong := by decide
  refine ⟨hdecode, hcut, fun hsame => ?_⟩
  exact (text_laws.2.1 _ _ _ hdecode hcut).mp hsame _ (by decide) hlong

end Retarget.ModifiedUtf8
