import Retarget.Bytes.Integer
import Retarget.Fault

/-!
Reading a symbol, byte by byte, into pieces: bytes that stay as they are and
names of classes. What the pieces are, and whether the text is accepted, is
settled before any name is exchanged; exchanging names only looks at the
pieces.
-/

set_option autoImplicit false

namespace Retarget

/-- The shapes of text that name classes. -/
inductive SymbolForm where
  /-- The name of a class, or the descriptor of an array. -/
  | className
  /-- The type of a field or of a method. -/
  | descriptor
  /-- The generic type of a class, a field or a method. -/
  | signature
  deriving DecidableEq

def SymbolForm.rank : SymbolForm → Nat
  | className => 0
  | descriptor => 1
  | signature => 2

inductive Piece where
  /-- A byte that names nothing. -/
  | byte (b : UInt8)
  /-- The name of a class. -/
  | name (text : Bytes)
  deriving DecidableEq

namespace Piece

def text : Piece → Bytes
  | byte b => [b]
  | name text => text

def name? : Piece → Option Bytes
  | byte _ => none
  | name text => some text

/-- The text of the piece with its name exchanged, if the name changes. -/
def exchange (map : Bytes → Option Bytes) : Piece → Bytes
  | byte b => [b]
  | name text => (map text).getD text

def changes (map : Bytes → Option Bytes) : Piece → Bool
  | byte _ => false
  | name text => (map text).isSome

end Piece

/-- A symbol as it was read: its pieces up to the end or up to the defect that stopped it. -/
structure Scan where
  pieces : List Piece
  defect : Option Defect
  deriving DecidableEq

namespace Scan

def names (s : Scan) : List Bytes :=
  s.pieces.filterMap Piece.name?

/-- The text with names exchanged, none if every name stays as it is. -/
def substitute (map : Bytes → Option Bytes) (s : Scan) : Except Defect (Option Bytes) :=
  match s.defect with
  | some defect => .error defect
  | none =>
    if s.pieces.any (Piece.changes map) then .ok (some (s.pieces.flatMap (Piece.exchange map)))
    else .ok none

end Scan

/-- A reader of symbols: what a byte at a position does to the state and which pieces it
completes, and what is wrong with a text that ends in a state. -/
structure Scanner (State : Type) where
  step : Nat → State → UInt8 → Except Defect (State × List Piece)
  finish : Nat → State → Option Defect

namespace Scanner

/-- Reads the rest of a text. The pieces completed before are in `done`, in reverse. -/
def run {State : Type} (m : Scanner State) (position : Nat) (state : State) (done : List Piece) :
    Bytes → Scan
  | [] => ⟨done.reverse, m.finish position state⟩
  | b :: rest =>
    match m.step position state b with
    | .ok (state', pieces) => run m (position + 1) state' (pieces.reverse ++ done) rest
    | .error defect => ⟨done.reverse, some defect⟩

end Scanner

end Retarget
