import Retarget.ClassFile.Flags
import Retarget.ClassFile.Member
import Retarget.ClassFile.Pool
import Retarget.Path

/-!
Class files: the tables they consist of, how they are read and written, and the
names they declare. Reading accepts exactly one class file; bytes after it are
refused.
-/

set_option autoImplicit false

namespace Retarget

/-- A class file. The superclass index is zero for a class that has none. -/
structure ClassFile where
  minor : UInt16
  major : UInt16
  pool : Pool
  access : UInt16
  thisClass : UInt16
  superClass : UInt16
  interfaces : Array UInt16
  fields : Array Member
  methods : Array Member
  attributes : Array Attribute

namespace ClassFile

/-- A step that changes a class file and may fail; a failed step keeps what it changed. -/
abbrev Edit (α : Type) := EStateM Fault ClassFile α

def magic : Bytes := [0xCA, 0xFE, 0xBA, 0xBE]

def readTables (r : Reader) : Except Fault (ClassFile × Reader) := do
  let (minor, r) ← r.word16
  let (major, r) ← r.word16
  let (pool, r) ← Pool.read r
  let (access, r) ← r.word16
  let (thisClass, r) ← r.word16
  let (superClass, r) ← r.word16
  let (interfaces, r) ← r.table Reader.word16
  let (fields, r) ← Member.readTable r
  let (methods, r) ← Member.readTable r
  let (attributes, r) ← Attribute.readTable r
  return ({ minor, major, pool, access, thisClass, superClass, interfaces, fields, methods,
            attributes }, r)

/-- The class file the bytes hold. -/
def ofBytes (bytes : Bytes) : Except Fault ClassFile :=
  if bytes.isEmpty then .error .empty
  else
    match Reader.take 4 (Reader.ofBytes bytes) with
    | .error _ => .error .notSupported
    | .ok (front, r) =>
      if front = magic then
        match readTables r with
        | .error fault => .error fault
        | .ok (c, after) =>
          if after.rest.isEmpty then .ok c
          else .error (.malformed (.trailingBytes after.rest.length))
      else .error .notSupported

def layout (c : ClassFile) : Layout :=
  [.ok magic, .ok (Bytes.ofUInt16 c.minor), .ok (Bytes.ofUInt16 c.major)] ++ c.pool.layout ++
    [.ok (Bytes.ofUInt16 c.access), .ok (Bytes.ofUInt16 c.thisClass),
      .ok (Bytes.ofUInt16 c.superClass), Layout.count c.interfaces.size .interfaceCount] ++
    c.interfaces.toList.map (fun index => .ok (Bytes.ofUInt16 index)) ++
    Member.tableLayout c.fields ++ Member.tableLayout c.methods ++
    Attribute.tableLayout c.attributes

/-- The bytes of a class file, unless one of its tables or texts is too long. -/
def toBytes (c : ClassFile) : Except Fault Bytes :=
  match c.layout.serialize with
  | .ok bytes => .ok bytes
  | .error defect => .error (.malformed defect)

def size (c : ClassFile) : Nat :=
  8 + c.pool.size + 8 + c.interfaces.size * 2 + Member.tableSize c.fields +
    Member.tableSize c.methods + Attribute.tableSize c.attributes

def name (c : ClassFile) : Except Fault String :=
  c.pool.className c.thisClass

def binaryName (c : ClassFile) : Except Fault String :=
  match c.name with
  | .ok name => .ok (Text.exchange '/' '.' name)
  | .error fault => .error fault

def superName (c : ClassFile) : Except Fault (Option String) :=
  if c.superClass = 0 then .ok none
  else
    match c.pool.className c.superClass with
    | .ok name => .ok (some name)
    | .error fault => .error fault

def interfaceNames (c : ClassFile) : Except Fault (List String) :=
  c.interfaces.toList.mapM c.pool.className

/-- Where the class named `name`, with slashes, lies below `root`. -/
def pathBelow (root : Path) (name : String) : Path :=
  let segments := Text.split '/' name
  let package := segments.dropLast.foldl Path.child root
  package.child (segments.getLastD "" ++ ".class")

def filePath (root : Path) (c : ClassFile) : Except Fault Path :=
  match c.name with
  | .ok name => .ok (pathBelow root name)
  | .error fault => .error fault

end ClassFile

end Retarget
