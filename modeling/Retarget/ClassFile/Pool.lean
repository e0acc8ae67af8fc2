import Retarget.ClassFile.Constant
import Retarget.Text.ModifiedUtf8
import Std.Data.ExtTreeMap

/-!
The constant pool. Entries are found by index. Texts are also found by content,
so that asking for a text that is already there does not add it again; the
index registered for a text is that of the entry added first.

Operations that add entries are state steps: a step that fails leaves the pool
with what it had added before.
-/

set_option autoImplicit false

namespace Retarget

/-- The constants of a class file, by index. -/
structure Pool where
  /-- The slots; one that holds no entry is unusable. -/
  entries : Array Constant
  /-- The index registered for a text. -/
  texts : Std.ExtTreeMap Bytes UInt16

namespace Pool

def bare : Pool := ⟨#[], ∅⟩

def empty : Pool := ⟨#[.unusable], ∅⟩

def count (p : Pool) : Nat := p.entries.size

def isEmpty (p : Pool) : Bool := p.entries.size ≤ 1

def toList (p : Pool) : List (UInt16 × Constant) :=
  p.entries.toList.zipIdx.filterMap fun (constant, index) =>
    if constant = .unusable then none else some (UInt16.ofNat index, constant)

def get (p : Pool) (index : UInt16) : Except Fault Constant :=
  match p.entries[index.toNat]? with
  | none | some .unusable => .error (.malformed (.poolIndex index))
  | some constant => .ok constant

def text (p : Pool) (index : UInt16) : Except Fault Bytes := do
  match ← p.get index with
  | .utf8 text => return text
  | other => throw (.malformed (.otherConstant index other.tag? .utf8))

def string (p : Pool) (index : UInt16) : Except Fault String := do
  match ModifiedUtf8.decode (← p.text index) with
  | .ok s => return s
  | .error defect => throw (.malformed defect)

def className (p : Pool) (index : UInt16) : Except Fault String := do
  match ← p.get index with
  | .classRef name => p.string name
  | other => throw (.malformed (.otherConstant index other.tag? .classRef))

/-- Registers `index` for the text of the constant, unless the text has an index already. -/
def register (constant : Constant) (index : Nat) (texts : Std.ExtTreeMap Bytes UInt16) :
    Std.ExtTreeMap Bytes UInt16 :=
  match constant with
  | .utf8 text => texts.insertIfNew text (UInt16.ofNat index)
  | _ => texts

/-- Puts a constant behind the last slot; a wide one is followed by an unusable slot. -/
def append (constant : Constant) (p : Pool) : Pool :=
  let index := p.entries.size
  let entries := p.entries.push constant
  ⟨if constant.isWide then entries.push .unusable else entries,
    register constant index p.texts⟩

/-- Removes the registration of the entry's text if it names `index`. -/
def unregister (constant : Constant) (index : UInt16) (texts : Std.ExtTreeMap Bytes UInt16) :
    Std.ExtTreeMap Bytes UInt16 :=
  match constant with
  | .utf8 text => if texts[text]? = some index then texts.erase text else texts
  | _ => texts

/-- Replaces the entry at `index` by one that takes as many slots. -/
def set (index : UInt16) (constant : Constant) (p : Pool) : Except Fault Pool := do
  let current ← p.get index
  if current.slots = constant.slots then
    let texts := register constant index.toNat (unregister current index p.texts)
    return ⟨p.entries.setIfInBounds index.toNat constant, texts⟩
  else
    throw (.malformed (.replacement current.tag? index constant.tag?))

abbrev Edit (α : Type) := EStateM Fault Pool α

def push (constant : Constant) : Edit UInt16 := fun p =>
  if constant = .unusable then .error (.malformed .unusableConstant) p
  else
    let index := p.entries.size
    if index + constant.slots ≤ Fault.poolLimit then
      .ok (UInt16.ofNat index) (p.append constant)
    else .error .poolOverflow p

/-- The index of an entry with exactly these bytes, which is added if it is not there. -/
def intern (text : Bytes) : Edit UInt16 := fun p =>
  match p.texts[text]? with
  | some index => .ok index p
  | none =>
    if text.length < 0x10000 then push (.utf8 text) p
    else .error (.malformed .utf8Size) p

/-- The index of the first entry equal to the constant, which is added if there is none. -/
def internConstant (constant : Constant) : Edit UInt16 := fun p =>
  match p.entries.findIdx? (· = constant) with
  | some index => .ok (UInt16.ofNat index) p
  | none => push constant p

def internText (s : String) : Edit UInt16 :=
  intern (ModifiedUtf8.encode s)

def internClass (name : String) : Edit UInt16 := do
  internConstant (.classRef (← internText name))

def internString (s : String) : Edit UInt16 := do
  internConstant (.string (← internText s))

def internNameAndType (name descriptor : String) : Edit UInt16 := do
  let name ← internText name
  let descriptor ← internText descriptor
  internConstant (.nameAndType name descriptor)

def internField (owner name descriptor : String) : Edit UInt16 := do
  let owner ← internClass owner
  let nameAndType ← internNameAndType name descriptor
  internConstant (.fieldRef owner nameAndType)

def internMethod (owner name descriptor : String) : Edit UInt16 := do
  let owner ← internClass owner
  let nameAndType ← internNameAndType name descriptor
  internConstant (.methodRef owner nameAndType)

def internMethodType (descriptor : String) : Edit UInt16 := do
  internConstant (.methodType (← internText descriptor))

def size (p : Pool) : Nat :=
  2 + total Constant.size p.entries.toList

def layout (p : Pool) : Layout :=
  .ok (Bytes.ofNat 2 p.count) :: p.entries.toList.flatMap Constant.layout

/-- Reads entries until the last `room` of `count` slots are filled. -/
def readEntries (count : Nat) : Nat → Pool → Reader → Except Fault (Pool × Reader)
  | 0, p, r => .ok (p, r)
  | room + 1, p, r =>
    match Constant.read r with
    | .error fault => .error fault
    | .ok (constant, r') =>
      if constant.isWide then
        match room with
        | room' + 1 => readEntries count room' (p.append constant) r'
        | 0 => .error (.malformed (.poolOverrun constant.tag? p.count count))
      else readEntries count room (p.append constant) r'

def read (r : Reader) : Except Fault (Pool × Reader) := do
  let (count, r) ← r.word16
  match count.toNat with
  | 0 => throw (.malformed .emptyPool)
  | room + 1 => readEntries (room + 1) room empty r

end Pool

end Retarget
