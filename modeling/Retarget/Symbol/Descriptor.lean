import Retarget.Symbol.Scan

/-!
Descriptors. Between class types, which are an `L`, a name and a semicolon,
stand single letters and brackets; in which order is not looked at.
-/

set_option autoImplicit false

namespace Retarget.Descriptor

inductive State where
  | between
  /-- In a name whose `L` stands at `start`; the name so far is in reverse. -/
  | naming (start : Nat) (read : Bytes)
  deriving DecidableEq

/-- The letters and brackets that stand for themselves. -/
def isPlain (b : UInt8) : Bool :=
  b ∈ Bytes.ascii "BCDFIJSZV[()"

def step (position : Nat) : State → UInt8 → Except Defect (State × List Piece)
  | .between, b =>
    if b = 'L'.toUInt8 then .ok (.naming position [], [.byte b])
    else if isPlain b then .ok (.between, [.byte b])
    else .error (.descriptorByte b position)
  | .naming start read, b =>
    if b = ';'.toUInt8 then .ok (.between, [.name read.reverse, .byte b])
    else .ok (.naming start (b :: read), [])

def finish (_ : Nat) : State → Option Defect
  | .between => none
  | .naming start _ => some (.openName start)

def scanner : Scanner State := ⟨step, finish⟩

def scan (text : Bytes) : Scan :=
  scanner.run 0 .between [] text

end Retarget.Descriptor
