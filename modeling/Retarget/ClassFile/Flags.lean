/-!
Access and property flags. A set of flags is a 16 bit word; bits without a
declared meaning are kept. One bit can mean different things on fields and on
methods, and then both names are declared.
-/

set_option autoImplicit false

namespace Retarget

structure Flag where
  name : String
  bit : UInt16
  deriving DecidableEq

namespace Flag

def ofClasses : List Flag :=
  [⟨"PUBLIC", 0x0001⟩, ⟨"FINAL", 0x0010⟩, ⟨"SUPER", 0x0020⟩, ⟨"INTERFACE", 0x0200⟩,
    ⟨"ABSTRACT", 0x0400⟩, ⟨"SYNTHETIC", 0x1000⟩, ⟨"ANNOTATION", 0x2000⟩, ⟨"ENUM", 0x4000⟩,
    ⟨"MODULE", 0x8000⟩]

def ofMembers : List Flag :=
  [⟨"PUBLIC", 0x0001⟩, ⟨"PRIVATE", 0x0002⟩, ⟨"PROTECTED", 0x0004⟩, ⟨"STATIC", 0x0008⟩,
    ⟨"FINAL", 0x0010⟩, ⟨"SYNCHRONIZED", 0x0020⟩, ⟨"VOLATILE", 0x0040⟩, ⟨"BRIDGE", 0x0040⟩,
    ⟨"TRANSIENT", 0x0080⟩, ⟨"VARARGS", 0x0080⟩, ⟨"NATIVE", 0x0100⟩, ⟨"ABSTRACT", 0x0400⟩,
    ⟨"STRICT", 0x0800⟩, ⟨"SYNTHETIC", 0x1000⟩, ⟨"ENUM", 0x4000⟩]

def isIn (bits : UInt16) (flag : Flag) : Bool := bits &&& flag.bit = flag.bit

/-- The names of the declared flags a word contains, in the order of declaration. -/
def names (declared : List Flag) (bits : UInt16) : List String :=
  (declared.filter (isIn bits)).map Flag.name

end Flag

end Retarget
