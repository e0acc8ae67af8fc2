import Retarget.Bytes.Layout
import Retarget.Bytes.Reader

/-!
Attributes. The content of an attribute is kept as bytes; the two bytes of an
index in it can be read and replaced in place.
-/

set_option autoImplicit false

namespace Retarget

structure Attribute where
  name : UInt16
  content : Array UInt8
  deriving DecidableEq

namespace Attribute

def read (r : Reader) : Except Fault (Attribute × Reader) := do
  let (name, r) ← r.word16
  let (length, r) ← r.word32
  let (content, r) ← r.take length.toNat
  return (⟨name, content.toArray⟩, r)

def readTable (r : Reader) : Except Fault (Array Attribute × Reader) :=
  r.table read

/-- The length an attribute is written with, or the defect if it does not fit. -/
def lengthItem (n : Nat) : Except Defect Bytes :=
  if n < 0x100000000 then .ok (Bytes.ofNat 4 n) else .error .attributeSize

/-- What an attribute is written as. An attribute too long for its length is refused before
its name is written. -/
def layout (a : Attribute) : Layout :=
  match lengthItem a.content.size with
  | .ok length => [.ok (Bytes.ofUInt16 a.name), .ok length, .ok a.content.toList]
  | .error defect => [.error defect]

def tableLayout (attributes : Array Attribute) : Layout :=
  Layout.count attributes.size .attributeCount :: attributes.toList.flatMap layout

def size (a : Attribute) : Nat := 6 + a.content.size

def tableSize (attributes : Array Attribute) : Nat :=
  2 + total size attributes.toList

def wordAt (offset : Nat) (a : Attribute) : Except Fault UInt16 :=
  match slice a.content offset 2 with
  | .ok bytes => .ok (UInt16.ofNat (Bytes.value bytes))
  | .error fault => .error fault

/-- The attribute with `index` stored at `offset` in the content, where there is room for it. -/
def place (offset : Nat) (index : UInt16) (a : Attribute) : Attribute :=
  { a with content := blit a.content offset (Bytes.ofUInt16 index) }

def setWordAt (offset : Nat) (index : UInt16) (a : Attribute) : Except Fault Attribute :=
  match a.wordAt offset with
  | .ok _ => .ok (a.place offset index)
  | .error fault => .error fault

end Attribute

end Retarget
