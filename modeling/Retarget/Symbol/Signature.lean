import Retarget.Symbol.Scan

/-!
Generic signatures. A signature is read with a stack of goals, each saying what
is still to come; the top one decides what the next byte means. A goal counts
the class, array and variable types that enclose it, since only so many may lie
inside each other.

Only the outermost name of a class type is a name. Type parameters, type
variables and the suffixes of inner classes are copied, whatever they spell.
-/

set_option autoImplicit false

namespace Retarget.Signature

def depthLimit : Nat := 256

/-- What is still to come in a signature. -/
inductive Goal where
  /-- The whole signature. -/
  | start
  /-- What follows the type parameters: a method type or class types. -/
  | body
  /-- The types of a method's parameters, up to the closing parenthesis. -/
  | parameters
  /-- The type of a method's result. -/
  | result
  /-- The types a method throws. -/
  | throws
  /-- Further class types, up to the end. -/
  | more
  /-- The name of a type parameter that starts at `start`. -/
  | parameterName (start : Nat) (filled : Bool)
  /-- The bound after the first colon of a type parameter, which may be missing. -/
  | classBound
  /-- Further bounds, the next type parameter, or the end of the type parameters. -/
  | bounds
  /-- A class, array or variable type inside `depth` others. -/
  | reference (depth : Nat)
  /-- A base type, or a reference inside `depth` others. -/
  | javaType (depth : Nat)
  /-- The name of a class that starts at `start`; the part read is in reverse. -/
  | className (start : Nat) (read : Bytes) (depth : Nat)
  /-- What follows the name of a class, up to the semicolon. -/
  | classRest (depth : Nat)
  /-- The suffix of an inner class that starts at `start`. -/
  | innerName (start : Nat) (filled : Bool) (depth : Nat)
  /-- Type arguments, up to the closing bracket. -/
  | typeArguments (depth : Nat)
  /-- The name of a type variable that starts at `start`. -/
  | variableName (start : Nat) (filled : Bool)
  deriving DecidableEq

abbrev Step := Except Defect (List Goal × List Piece)

def copy (b : UInt8) (goals : List Goal) : Step :=
  .ok (goals, [.byte b])

def isBase (b : UInt8) : Bool :=
  b ∈ Bytes.ascii "BCDFIJSZ"

def endsName (b : UInt8) : Bool :=
  b ∈ Bytes.ascii "<.;"

def missing (position depth : Nat) : Defect :=
  if depth < depthLimit then .missingReference position else .signatureDepth depthLimit

/-- The first byte of a type inside `depth` others. -/
def enter (position depth : Nat) (goals : List Goal) (b : UInt8) : Step :=
  if depth < depthLimit then
    if b = 'L'.toUInt8 then copy b (.className (position + 1) [] (depth + 1) :: goals)
    else if b = 'T'.toUInt8 then copy b (.variableName (position + 1) false :: goals)
    else if b = '['.toUInt8 then copy b (.javaType (depth + 1) :: goals)
    else .error (.missingReference position)
  else .error (.signatureDepth depthLimit)

/-- The first byte of a base type or of a type inside `depth` others. -/
def enterAny (position depth : Nat) (goals : List Goal) (b : UInt8) : Step :=
  if isBase b then copy b goals else enter position depth goals b

def afterName (position depth : Nat) (goals : List Goal) (b : UInt8) : Step :=
  if b = '<'.toUInt8 then copy b (.typeArguments depth :: .classRest depth :: goals)
  else if b = '.'.toUInt8 then copy b (.innerName (position + 1) false depth :: goals)
  else if b = ';'.toUInt8 then copy b goals
  else .error (.openClassType position)

def afterBound (position : Nat) (goals : List Goal) (b : UInt8) : Step :=
  if b = ':'.toUInt8 then copy b (.reference 0 :: .bounds :: goals)
  else if b = '>'.toUInt8 then copy b (.body :: goals)
  else copy b (.parameterName position true :: goals)

def enterBody (position : Nat) (goals : List Goal) (b : UInt8) : Step :=
  if b = '('.toUInt8 then copy b (.parameters :: goals)
  else enter position 0 (.more :: goals) b

def step (position : Nat) (state : List Goal) (b : UInt8) : Step :=
  match state with
  | [] => .error (.trailingSignature position)
  | goal :: goals =>
    match goal with
    | .start =>
      if b = '<'.toUInt8 then copy b (.parameterName (position + 1) false :: goals)
      else enterBody position goals b
    | .body => enterBody position goals b
    | .parameters =>
      if b = ')'.toUInt8 then copy b (.result :: goals)
      else enterAny position 0 (.parameters :: goals) b
    | .result =>
      if b = 'V'.toUInt8 then copy b (.throws :: goals)
      else enterAny position 0 (.throws :: goals) b
    | .throws =>
      if b = '^'.toUInt8 then copy b (.reference 0 :: .throws :: goals)
      else .error (.trailingSignature position)
    | .more => enter position 0 (.more :: goals) b
    | .parameterName start filled =>
      if b = ':'.toUInt8 then
        if filled then copy b (.classBound :: goals) else .error (.emptyIdentifier start)
      else copy b (.parameterName start true :: goals)
    | .classBound =>
      if b = 'L'.toUInt8 ∨ b = 'T'.toUInt8 ∨ b = '['.toUInt8 then
        enter position 0 (.bounds :: goals) b
      else afterBound position goals b
    | .bounds => afterBound position goals b
    | .reference depth => enter position depth goals b
    | .javaType depth => enterAny position depth goals b
    | .className start read depth =>
      if endsName b then
        if read.isEmpty then .error (.emptyIdentifier start)
        else
          match afterName position depth goals b with
          | .ok (goals', pieces) => .ok (goals', .name read.reverse :: pieces)
          | .error defect => .error defect
      else .ok (.className start (b :: read) depth :: goals, [])
    | .classRest depth => afterName position depth goals b
    | .innerName start filled depth =>
      if endsName b then
        if filled then afterName position depth goals b else .error (.emptyIdentifier start)
      else copy b (.innerName start true depth :: goals)
    | .typeArguments depth =>
      if b = '*'.toUInt8 then copy b (.typeArguments depth :: goals)
      else if b = '+'.toUInt8 ∨ b = '-'.toUInt8 then
        copy b (.reference depth :: .typeArguments depth :: goals)
      else if b = '>'.toUInt8 then copy b goals
      else enter position depth (.typeArguments depth :: goals) b
    | .variableName start filled =>
      if b = ';'.toUInt8 then
        if filled then copy b goals else .error (.emptyIdentifier start)
      else copy b (.variableName start true :: goals)

def finish (position : Nat) : List Goal → Option Defect
  | [] => none
  | goal :: _ =>
    match goal with
    | .throws | .more => none
    | .start | .body | .parameters | .result => some (missing position 0)
    | .reference depth | .javaType depth | .typeArguments depth => some (missing position depth)
    | .parameterName start _ | .className start _ _ | .innerName start _ _
    | .variableName start _ => some (.openIdentifier start)
    | .classBound | .bounds => some (.openIdentifier position)
    | .classRest _ => some (.openClassType position)

def scanner : Scanner (List Goal) := ⟨step, finish⟩

def scan (text : Bytes) : Scan :=
  scanner.run 0 [.start] [] text

end Retarget.Signature
