/-!
Integers of a fixed number of bytes, most significant byte first. The value of
a byte sequence and the bytes of a value are inverse on sequences of the given
length; a negative value stands for its remainder.
-/

set_option autoImplicit false

namespace Retarget

abbrev Bytes := List UInt8

namespace Bytes

/-- The number whose digits to the base 256 are the bytes, the first counting most. -/
def value (bytes : Bytes) : Nat :=
  bytes.foldl (fun acc b => acc * 256 + b.toNat) 0

/-- How many numbers `width` bytes can stand for. -/
def span : Nat → Nat
  | 0 => 1
  | width + 1 => 256 * span width

/-- The last `width` digits of `n` to the base 256. -/
def ofNat : Nat → Nat → Bytes
  | 0, _ => []
  | width + 1, n => UInt8.ofNat (n / span width) :: ofNat width n

def ofUInt16 (w : UInt16) : Bytes := ofNat 2 w.toNat

def ofUInt32 (w : UInt32) : Bytes := ofNat 4 w.toNat

def ofUInt64 (w : UInt64) : Bytes := ofNat 8 w.toNat

def ascii (s : String) : Bytes := s.toList.map Char.toUInt8

theorem length_ofNat (width n : Nat) : (ofNat width n).length = width := by
  induction width with
  | zero => rfl
  | succ width ih => simp [ofNat, ih]

theorem length_ofUInt16 (w : UInt16) : (ofUInt16 w).length = 2 := length_ofNat 2 _

theorem span_pos (width : Nat) : 0 < span width := by
  induction width with
  | zero => exact Nat.one_pos
  | succ width ih => exact Nat.mul_pos (by decide) ih

private theorem foldl_value (bytes : Bytes) (acc : Nat) :
    bytes.foldl (fun acc b => acc * 256 + b.toNat) acc =
      acc * span bytes.length + value bytes := by
  induction bytes generalizing acc with
  | nil => simp [value, span]
  | cons b bytes ih =>
    have hacc : acc * 256 * span bytes.length = acc * (256 * span bytes.length) :=
      Nat.mul_assoc ..
    simp only [List.foldl_cons, List.length_cons, value, span]
    rw [ih, ih (0 * 256 + b.toNat), Nat.add_mul, hacc, Nat.zero_mul, Nat.zero_add, Nat.add_assoc]

private theorem value_cons (b : UInt8) (bytes : Bytes) :
    value (b :: bytes) = b.toNat * span bytes.length + value bytes := by
  have h := foldl_value bytes b.toNat
  simpa [value] using h

theorem value_lt (bytes : Bytes) : value bytes < span bytes.length := by
  induction bytes with
  | nil => simp [value, span]
  | cons b bytes ih =>
    rw [value_cons, List.length_cons, span]
    have hb : b.toNat < 256 := b.toNat_lt
    calc b.toNat * span bytes.length + value bytes
        < b.toNat * span bytes.length + span bytes.length := by omega
      _ = (b.toNat + 1) * span bytes.length := by rw [Nat.add_mul, Nat.one_mul]
      _ ≤ 256 * span bytes.length := Nat.mul_le_mul_right _ hb

theorem value_ofNat (width n : Nat) : value (ofNat width n) = n % span width := by
  induction width with
  | zero => simp [ofNat, value, span, Nat.mod_one]
  | succ width ih =>
    rw [ofNat, value_cons, length_ofNat, ih, UInt8.toNat_ofNat', span, Nat.mul_comm 256,
      Nat.mod_mul, Nat.mul_comm (span width), Nat.add_comm]

theorem ofNat_value (bytes : Bytes) : ofNat bytes.length (value bytes) = bytes := by
  suffices h : ∀ (bytes : Bytes) (k : Nat),
      ofNat bytes.length (k * span bytes.length + value bytes) = bytes by
    simpa using h bytes 0
  intro bytes
  induction bytes with
  | nil => intro k; rfl
  | cons b bytes ih =>
    intro k
    have hb : b.toNat < 256 := b.toNat_lt
    have hsplit : k * span (b :: bytes).length + value (b :: bytes) =
        (k * 256 + b.toNat) * span bytes.length + value bytes := by
      rw [value_cons, List.length_cons, span, Nat.add_mul, Nat.mul_assoc k 256, Nat.add_assoc]
    have hfirst : ((k * 256 + b.toNat) * span bytes.length + value bytes) / span bytes.length =
        k * 256 + b.toNat := by
      rw [Nat.mul_comm, Nat.mul_add_div (span_pos _), Nat.div_eq_of_lt (value_lt bytes),
        Nat.add_zero]
    rw [hsplit, List.length_cons, ofNat, ih, hfirst]
    congr 1
    apply UInt8.toNat_inj.mp
    rw [UInt8.toNat_ofNat']
    omega

end Bytes

/-- The integer types of a byte stream: a number of bytes, with or without a sign. -/
structure IntegerType where
  width : Nat
  signed : Bool
  deriving DecidableEq

namespace IntegerType

def range (t : IntegerType) : Nat := Bytes.span t.width

/-- The value the bytes stand for; in a signed type the upper half stands for the negative
values. -/
def decode (t : IntegerType) (bytes : Bytes) : Int :=
  if t.signed then Int.bmod (Bytes.value bytes) t.range else Bytes.value bytes

/-- The bytes of a value, taken modulo the range of the type. -/
def encode (t : IntegerType) (value : Int) : Bytes :=
  Bytes.ofNat t.width (value % t.range).toNat

theorem length_encode (t : IntegerType) (value : Int) : (t.encode value).length = t.width :=
  Bytes.length_ofNat _ _

end IntegerType

end Retarget
