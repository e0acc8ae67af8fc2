import Retarget.Bytes.Buffer
import Retarget.Total

/-!
What a table is written as. A layout lists the items of the written form in
order; an item is either bytes or the reason why the table cannot be written
from there on. The same layout gives the serialized bytes and the sequence of
writes into a buffer.
-/

set_option autoImplicit false

namespace Retarget

/-- The items of a written form, in order. -/
abbrev Layout := List (Except Defect Bytes)

namespace Layout

/-- The bytes of all items, or the first defect. -/
def serialize (layout : Layout) : Except Defect Bytes :=
  match layout.mapM id with
  | .ok items => .ok items.flatten
  | .error defect => .error defect

/-- Writes item after item. The buffer comes back as it was when the first item failed, or
after the last one. -/
def writeTo : Layout → Buffer → Buffer × Except Fault Unit
  | [], b => (b, .ok ())
  | .error defect :: _, b => (b, .error (.malformed defect))
  | .ok bytes :: rest, b =>
    if b.fits bytes.length then writeTo rest (b.put bytes) else (b, .error .outOfBounds)

def count (n : Nat) (defect : Defect) : Except Defect Bytes :=
  if n < 0x10000 then .ok (Bytes.ofNat 2 n) else .error defect

end Layout

end Retarget
