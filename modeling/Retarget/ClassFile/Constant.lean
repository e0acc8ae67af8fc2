import Retarget.Bytes.Layout
import Retarget.Bytes.Reader

/-!
Entries of a constant pool: how they are read, how much room they take and what
they are written as. Numbers are kept as their bits and texts as their bytes,
so that what was read is written back unchanged.
-/

set_option autoImplicit false

namespace Retarget

/-- An entry of a constant pool. Fields that are indices point into the same pool. -/
inductive Constant where
  | utf8 (text : Bytes)
  | integer (bits : UInt32)
  | float (bits : UInt32)
  | long (bits : UInt64)
  | double (bits : UInt64)
  | classRef (name : UInt16)
  | string (text : UInt16)
  | fieldRef (owner nameAndType : UInt16)
  | methodRef (owner nameAndType : UInt16)
  | interfaceMethodRef (owner nameAndType : UInt16)
  | nameAndType (name descriptor : UInt16)
  | methodHandle (kind : UInt8) (reference : UInt16)
  | methodType (descriptor : UInt16)
  | dynamic (bootstrap nameAndType : UInt16)
  | invokeDynamic (bootstrap nameAndType : UInt16)
  | module (name : UInt16)
  | package (name : UInt16)
  /-- A slot that holds no entry: the first one, and the one after a long or a double. -/
  | unusable
  deriving DecidableEq

namespace Constant

/-- The tag written for the entry; a slot without entry has none. -/
def tag? : Constant → Option Tag
  | utf8 _ => some .utf8
  | integer _ => some .integer
  | float _ => some .float
  | long _ => some .long
  | double _ => some .double
  | classRef _ => some .classRef
  | string _ => some .string
  | fieldRef .. => some .fieldRef
  | methodRef .. => some .methodRef
  | interfaceMethodRef .. => some .interfaceMethodRef
  | nameAndType .. => some .nameAndType
  | methodHandle .. => some .methodHandle
  | methodType _ => some .methodType
  | dynamic .. => some .dynamic
  | invokeDynamic .. => some .invokeDynamic
  | module _ => some .module
  | package _ => some .package
  | unusable => none

def isWide : Constant → Bool
  | long _ | double _ => true
  | _ => false

def slots (c : Constant) : Nat := if c.isWide then 2 else 1

def size : Constant → Nat
  | unusable => 0
  | utf8 text => 3 + text.length
  | classRef _ | string _ | methodType _ | module _ | package _ => 3
  | methodHandle .. => 4
  | integer _ | float _ | fieldRef .. | methodRef .. | interfaceMethodRef .. | nameAndType ..
  | dynamic .. | invokeDynamic .. => 5
  | long _ | double _ => 9

def fields : Constant → Layout
  | unusable => []
  | utf8 text => [Layout.count text.length .utf8Size, .ok text]
  | integer bits | float bits => [.ok (Bytes.ofUInt32 bits)]
  | long bits | double bits => [.ok (Bytes.ofUInt64 bits)]
  | classRef index | string index | methodType index | module index | package index =>
    [.ok (Bytes.ofUInt16 index)]
  | fieldRef first second | methodRef first second | interfaceMethodRef first second
  | nameAndType first second | dynamic first second | invokeDynamic first second =>
    [.ok (Bytes.ofUInt16 first), .ok (Bytes.ofUInt16 second)]
  | methodHandle kind reference => [.ok [kind], .ok (Bytes.ofUInt16 reference)]

def layout (c : Constant) : Layout :=
  match c.tag? with
  | some tag => .ok [tag.code] :: c.fields
  | none => []

def readOne (make : UInt16 → Constant) (r : Reader) : Except Fault (Constant × Reader) := do
  let (index, r) ← r.word16
  return (make index, r)

def readTwo (make : UInt16 → UInt16 → Constant) (r : Reader) :
    Except Fault (Constant × Reader) := do
  let (first, r) ← r.word16
  let (second, r) ← r.word16
  return (make first second, r)

def readFields (tag : Tag) (r : Reader) : Except Fault (Constant × Reader) :=
  match tag with
  | .utf8 => do
    let (length, r) ← r.word16
    let (text, r) ← r.take length.toNat
    return (utf8 text, r)
  | .integer => do
    let (bits, r) ← r.word32
    return (integer bits, r)
  | .float => do
    let (bits, r) ← r.word32
    return (float bits, r)
  | .long => do
    let (bits, r) ← r.word64
    return (long bits, r)
  | .double => do
    let (bits, r) ← r.word64
    return (double bits, r)
  | .methodHandle => do
    let (kind, r) ← r.byte
    let (reference, r) ← r.word16
    return (methodHandle kind reference, r)
  | .classRef => readOne classRef r
  | .string => readOne string r
  | .methodType => readOne methodType r
  | .module => readOne module r
  | .package => readOne package r
  | .fieldRef => readTwo fieldRef r
  | .methodRef => readTwo methodRef r
  | .interfaceMethodRef => readTwo interfaceMethodRef r
  | .nameAndType => readTwo nameAndType r
  | .dynamic => readTwo dynamic r
  | .invokeDynamic => readTwo invokeDynamic r

def read (r : Reader) : Except Fault (Constant × Reader) := do
  let (code, r') ← r.byte
  match Tag.ofCode? code with
  | some tag => readFields tag r'
  | none => throw (.malformed (.constantTag code r.position))

end Constant

end Retarget
