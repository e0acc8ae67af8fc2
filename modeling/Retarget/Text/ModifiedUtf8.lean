import Retarget.Bytes.Integer
import Retarget.Fault

/-!
The text form of class files. A string is a sequence of 16 bit units, a
character beyond the first plane being two of them. A unit is written as one,
two or three bytes; zero takes two, so no byte of a text is zero. Reading
accepts a unit in any of its forms, written shortest or not.
-/

set_option autoImplicit false

namespace Retarget.ModifiedUtf8

/-- The units of a character: itself, or a pair of surrogates. -/
def unitsOfChar (c : Char) : List Nat :=
  let n := c.toNat
  if n < 0x10000 then [n]
  else [0xD800 + (n - 0x10000) / 0x400, 0xDC00 + (n - 0x10000) % 0x400]

def encodeUnit (unit : Nat) : Bytes :=
  if 1 ≤ unit ∧ unit ≤ 0x7F then [UInt8.ofNat unit]
  else if unit ≤ 0x7FF then
    [UInt8.ofNat (0xC0 + unit / 0x40), UInt8.ofNat (0x80 + unit % 0x40)]
  else
    [UInt8.ofNat (0xE0 + unit / 0x1000), UInt8.ofNat (0x80 + unit / 0x40 % 0x40),
      UInt8.ofNat (0x80 + unit % 0x40)]

def units (s : String) : List Nat :=
  s.toList.flatMap unitsOfChar

def encode (s : String) : Bytes :=
  (units s).flatMap encodeUnit

def isContinuation (b : UInt8) : Bool :=
  0x80 ≤ b.toNat && b.toNat ≤ 0xBF

def payload (b : UInt8) : Nat := b.toNat - 0x80

/-- The units of a text that starts at `position`, after those in `done`, which is in reverse. -/
def decodeUnits (position : Nat) (done : List Nat) : Bytes → Except Defect (List Nat)
  | [] => .ok done.reverse
  | first :: rest =>
    let n := first.toNat
    if 1 ≤ n ∧ n ≤ 0x7F then decodeUnits (position + 1) (n :: done) rest
    else if 0xC0 ≤ n ∧ n ≤ 0xDF then
      match rest with
      | [] => .error .truncatedText
      | second :: rest =>
        if isContinuation second then
          decodeUnits (position + 2) (((n - 0xC0) * 0x40 + payload second) :: done) rest
        else .error (.continuationByte second (position + 1))
    else if 0xE0 ≤ n ∧ n ≤ 0xEF then
      match rest with
      | [] => .error .truncatedText
      | second :: rest =>
        if isContinuation second then
          match rest with
          | [] => .error .truncatedText
          | third :: rest =>
            if isContinuation third then
              decodeUnits (position + 3)
                (((n - 0xE0) * 0x1000 + payload second * 0x40 + payload third) :: done) rest
            else .error (.continuationByte third (position + 2))
        else .error (.continuationByte second (position + 1))
    else .error (.leadByte first position)

def isHigh (unit : Nat) : Bool := 0xD800 ≤ unit && unit ≤ 0xDBFF

def isLow (unit : Nat) : Bool := 0xDC00 ≤ unit && unit ≤ 0xDFFF

/-- The characters of a sequence of units, after those in `done`, which is in reverse. -/
def charsOfUnits (done : List Char) : List Nat → Except Defect (List Char)
  | [] => .ok done.reverse
  | unit :: rest =>
    if isHigh unit then
      match rest with
      | low :: rest =>
        if isLow low then
          let n := 0x10000 + (unit - 0xD800) * 0x400 + (low - 0xDC00)
          charsOfUnits (Char.ofNat n :: done) rest
        else .error .unpairedSurrogate
      | [] => .error .unpairedSurrogate
    else if isLow unit then .error .unpairedSurrogate
    else charsOfUnits (Char.ofNat unit :: done) rest

def decode (bytes : Bytes) : Except Defect String :=
  match decodeUnits 0 [] bytes with
  | .ok units =>
    match charsOfUnits [] units with
    | .ok chars => .ok (String.ofList chars)
    | .error defect => .error defect
  | .error defect => .error defect

end Retarget.ModifiedUtf8
