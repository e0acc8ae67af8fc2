import Retarget.Bytes.Reader

/-!
A position in data that is held as a whole. Other than a reader a cursor can
go back. Its position is never past the end of the data; an operation that
would leave the data fails, and the cursor stays where it was.
-/

set_option autoImplicit false

namespace Retarget

structure Cursor where
  data : Bytes
  position : Nat
  position_le : position ≤ data.length

namespace Cursor

def ofBytes (data : Bytes) : Cursor := ⟨data, 0, Nat.zero_le _⟩

def reader (c : Cursor) : Reader := ⟨c.position, c.data.drop c.position⟩

def length (c : Cursor) : Nat := c.data.length

def isEmpty (c : Cursor) : Bool := c.data.isEmpty

def remaining (c : Cursor) : Nat := c.data.length - c.position

def hasMore (c : Cursor) : Bool := c.position < c.data.length

/-- Goes to `position`, which may be the end of the data. -/
def seek (position : Nat) (c : Cursor) : Except Fault Cursor :=
  if h : position ≤ c.data.length then .ok { c with position, position_le := h }
  else .error .outOfBounds

def endOf (n : Nat) (c : Cursor) : Except Fault Nat :=
  if c.position + n ≤ c.data.length then .ok (c.position + n) else .error .outOfBounds

def advance (n : Nat) (c : Cursor) : Except Fault Cursor :=
  c.seek (c.position + n)

def peek (c : Cursor) : Except Fault UInt8 :=
  match c.data[c.position]? with
  | some b => .ok b
  | none => .error .outOfBounds

/-- Applies a reading step at the position and goes to where it stopped. -/
def read {α : Type} (step : Reader → Except Fault (α × Reader)) (c : Cursor) :
    Except Fault (α × Cursor) :=
  match step c.reader with
  | .ok (a, r) =>
    match c.seek r.position with
    | .ok c' => .ok (a, c')
    | .error fault => .error fault
  | .error fault => .error fault

def take (n : Nat) (c : Cursor) : Except Fault (Bytes × Cursor) :=
  c.read (Reader.take n)

def integer (t : IntegerType) (c : Cursor) : Except Fault (Int × Cursor) :=
  c.read (Reader.integer t)

end Cursor

end Retarget
