import Retarget.ClassFile.Attribute

/-!
Fields and methods, which have the same form.
-/

set_option autoImplicit false

namespace Retarget

/-- A field or a method: its flags, the indices of its name and of its descriptor, and its
attributes. -/
structure Member where
  access : UInt16
  name : UInt16
  descriptor : UInt16
  attributes : Array Attribute
  deriving DecidableEq

namespace Member

def read (r : Reader) : Except Fault (Member × Reader) := do
  let (access, r) ← r.word16
  let (name, r) ← r.word16
  let (descriptor, r) ← r.word16
  let (attributes, r) ← Attribute.readTable r
  return (⟨access, name, descriptor, attributes⟩, r)

def readTable (r : Reader) : Except Fault (Array Member × Reader) :=
  r.table read

def layout (m : Member) : Layout :=
  .ok (Bytes.ofUInt16 m.access) :: .ok (Bytes.ofUInt16 m.name) ::
    .ok (Bytes.ofUInt16 m.descriptor) :: Attribute.tableLayout m.attributes

def tableLayout (members : Array Member) : Layout :=
  Layout.count members.size .memberCount :: members.toList.flatMap layout

def size (m : Member) : Nat := 6 + Attribute.tableSize m.attributes

def tableSize (members : Array Member) : Nat :=
  2 + total size members.toList

end Member

end Retarget
