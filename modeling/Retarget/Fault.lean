import Retarget.ClassFile.Tag
import Retarget.Path

/-!
What can go wrong. A `Defect` says what is malformed in some text, table or
class file; a `Fault` is any reason an operation fails, a defect among them.
The wording of both is in one function each.
-/

set_option autoImplicit false

namespace Retarget

/-- What is malformed, and where. -/
inductive Defect where
  | leadByte (byte : UInt8) (position : Nat)
  | continuationByte (byte : UInt8) (position : Nat)
  | truncatedText
  | unpairedSurrogate
  | openName (position : Nat)
  | descriptorByte (byte : UInt8) (position : Nat)
  | openIdentifier (position : Nat)
  | emptyIdentifier (position : Nat)
  | missingReference (position : Nat)
  | openClassType (position : Nat)
  | trailingSignature (position : Nat)
  | signatureDepth (limit : Nat)
  | attributeDepth (limit : Nat)
  | attributeLength (name : String) (length : Nat)
  | elementTag (byte : UInt8)
  | attributeCount
  | attributeSize
  | memberCount
  | interfaceCount
  | constantTag (code : UInt8) (position : Nat)
  | emptyPool
  | poolOverrun (tag : Option Tag) (index count : Nat)
  | poolIndex (index : UInt16)
  | otherConstant (index : UInt16) (found : Option Tag) (wanted : Tag)
  | namesNoClass (index : UInt16) (found : Option Tag)
  | replacement (old : Option Tag) (index : UInt16) (new : Option Tag)
  | unusableConstant
  | utf8Size
  | missingMember (position : Nat)
  | missingAttribute (position : Nat)
  | trailingBytes (count : Nat)
  deriving DecidableEq

def hexByte (byte : UInt8) : String :=
  String.ofList [Nat.digitChar (byte.toNat / 16), Nat.digitChar (byte.toNat % 16)] |>.map
    Char.toUpper

def byteChar (byte : UInt8) : String :=
  String.singleton (Char.ofNat byte.toNat)

def Defect.message : Defect → String
  | leadByte byte position =>
    s!"Invalid modified UTF-8 lead byte 0x{hexByte byte} at {position}"
  | continuationByte byte position =>
    s!"Invalid modified UTF-8 continuation byte 0x{hexByte byte} at {position}"
  | truncatedText => "Truncated modified UTF-8 sequence"
  | unpairedSurrogate => "Unpaired surrogate in modified UTF-8"
  | openName position => s!"Unterminated class name in descriptor at {position}"
  | descriptorByte byte position =>
    s!"Unexpected character '{byteChar byte}' in descriptor at {position}"
  | openIdentifier position => s!"Unterminated identifier in signature at {position}"
  | emptyIdentifier position => s!"Empty identifier in signature at {position}"
  | missingReference position => s!"Expected reference type in signature at {position}"
  | openClassType position => s!"Unterminated class type in signature at {position}"
  | trailingSignature position => s!"Trailing data in signature at {position}"
  | signatureDepth limit => s!"Signature nesting exceeds {limit}"
  | attributeDepth limit => s!"Attribute nesting exceeds {limit}"
  | attributeLength name length =>
    s!"Attribute '{name}' content does not match its length {length}"
  | elementTag byte => s!"Unknown element value tag '{byteChar byte}'"
  | attributeCount => "More than 65535 attributes"
  | attributeSize => "Attribute larger than 4 GiB"
  | memberCount => "More than 65535 members"
  | interfaceCount => "More than 65535 interfaces"
  | constantTag code position => s!"Unknown constant pool tag {code} at offset {position}"
  | emptyPool => "Constant pool count must be at least 1"
  | poolOverrun tag index count =>
    s!"Constant {Tag.nameOrEmpty tag} at index {index} overruns the pool of {count} slots"
  | poolIndex index => s!"Invalid constant pool index {index}"
  | otherConstant index found wanted =>
    s!"Constant pool index {index} is {Tag.describe found}, expected {wanted.name}"
  | namesNoClass index found =>
    s!"Constant pool index {index} is {Tag.describe found}, which names no class"
  | replacement old index new =>
    s!"Cannot replace {Tag.describe old} at index {index} with {Tag.describe new}"
  | unusableConstant => "Cannot append an unusable constant"
  | utf8Size => "Utf8 constant longer than 65535 bytes"
  | missingMember position => s!"No member at position {position}"
  | missingAttribute position => s!"No attribute at position {position}"
  | trailingBytes count => s!"{count} trailing bytes after the class file"

/-- What is wrong with the settings of a pass or of an embedding. -/
inductive Misconfiguration where
  | overlap (output input : Path)
  | outside (path root : Path)
  | noFile (path root : Path)
  | emptyPackage (role : String)
  | badSegment (role package segment : String)
  deriving DecidableEq

def Misconfiguration.message : Misconfiguration → String
  | overlap output input => s!"Output '{output}' overlaps input '{input}'"
  | outside path root => s!"'{path}' is not below the input root '{root}'"
  | noFile path root => s!"'{path}' does not name a file below the input root '{root}'"
  | emptyPackage role => s!"{role} package must not be empty"
  | badSegment role package segment =>
    s!"{role} package '{package}' has invalid segment '{segment}', " ++
      "expected dot-separated identifiers"

/-- Any reason an operation fails. -/
inductive Fault where
  | malformed (defect : Defect)
  /-- The range asked for is not inside the data. -/
  | outOfBounds
  /-- The data is no class file. -/
  | notSupported
  | empty
  | configuration (problem : Misconfiguration)
  | classNotFound (name : String)
  | nameMismatch (expected declared : String)
  /-- The constant pool has no slot left. -/
  | poolOverflow
  /-- The file could not be loaded as a class. -/
  | classLoad (path : Path) (cause : Fault)
  /-- The class could not be given new names. -/
  | rename (name : String) (cause : Fault)
  /-- Reading, writing or removing failed at the path. -/
  | io (path : Path)
  /-- A file could not be opened. -/
  | unopened
  /-- An opened file has no content that can be read. -/
  | unreadable
  deriving DecidableEq

namespace Fault

def poolLimit : Nat := 65535

/-- The wording of a fault. The last three kinds have no text of their own. -/
def message : Fault → String
  | malformed defect => defect.message
  | notSupported => "This file type is not supported"
  | empty => "Provided input was empty"
  | configuration problem => "Invalid configuration - " ++ problem.message
  | classNotFound name => s!"Class '{name}' not found on the class path"
  | nameMismatch expected declared =>
    s!"Class file declares '{declared}' but was loaded as '{expected}'"
  | poolOverflow => s!"Constant pool overflow - cannot add more than {poolLimit} entries"
  | classLoad path _ => s!"Failed to load class file '{path}'"
  | rename name _ => s!"Failed to rewrite class '{name}'"
  | io path => s!"I/O failure on '{path}'"
  | outOfBounds => ""
  | unopened => ""
  | unreadable => ""

/-- The fault of loading the class at `path`. A fault that already says so is kept. -/
def asClassLoad (path : Path) : Fault → Fault
  | classLoad inner cause => classLoad inner cause
  | fault => classLoad path fault

end Fault

end Retarget
