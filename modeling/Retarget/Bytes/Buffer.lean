import Retarget.Bytes.Integer
import Retarget.Fault

/-!
A buffer of fixed size with an offset, at which bytes are read or written in
place. What does not fit behind the offset is refused and nothing changes.
-/

set_option autoImplicit false

namespace Retarget

/-- Bytes of a fixed number and the offset of the next access. -/
structure Buffer where
  bytes : Array UInt8
  offset : Nat
  deriving DecidableEq

/-- Replaces the bytes from index `i` on, as far as the array goes. -/
def blit (target : Array UInt8) (i : Nat) : Bytes → Array UInt8
  | [] => target
  | b :: bytes => blit (target.setIfInBounds i b) (i + 1) bytes

def slice (data : Array UInt8) (offset n : Nat) : Except Fault Bytes :=
  if offset + n ≤ data.size then .ok (data.extract offset (offset + n)).toList
  else .error .outOfBounds

namespace Buffer

def zeros (size offset : Nat) : Buffer := ⟨Array.replicate size 0, offset⟩

def fits (n : Nat) (b : Buffer) : Bool := b.offset + n ≤ b.bytes.size

/-- Writes `bytes`, which are known to fit, and moves the offset behind them. -/
def put (bytes : Bytes) (b : Buffer) : Buffer :=
  ⟨blit b.bytes b.offset bytes, b.offset + bytes.length⟩

/-- Writes `bytes` at the offset and moves the offset behind them. -/
def write (bytes : Bytes) (b : Buffer) : Except Fault Buffer :=
  if b.fits bytes.length then .ok (b.put bytes) else .error .outOfBounds

def integer (t : IntegerType) (b : Buffer) : Except Fault (Int × Buffer) :=
  match slice b.bytes b.offset t.width with
  | .ok bytes => .ok (t.decode bytes, { b with offset := b.offset + t.width })
  | .error fault => .error fault

/-- Applies a step to the start of the buffer and keeps the offset. -/
def front {α : Type} (step : Buffer → Except Fault (α × Buffer)) (b : Buffer) :
    Except Fault (α × Buffer) :=
  match step { b with offset := 0 } with
  | .ok (a, b') => .ok (a, { b' with offset := b.offset })
  | .error fault => .error fault

end Buffer

end Retarget
