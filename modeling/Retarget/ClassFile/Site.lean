import Retarget.ClassFile.Basic
import Retarget.ClassFile.Slots
import Retarget.Symbol

/-!
The places of a class file that lead to a text naming classes. A place holds an
index into the pool. It can be read and replaced on its own: replacing it
touches nothing but these two bytes, and never the text it led to before.
-/

set_option autoImplicit false

namespace Retarget

/-- What a table of attributes belongs to. -/
inductive Owner where
  | ofClass
  | field (position : Nat)
  | method (position : Nat)
  deriving DecidableEq

/-- Where an index that leads to names of classes is kept. -/
inductive Location where
  /-- In a constant: the name of a class, or the descriptor of a member or of a method type. -/
  | constant (index : UInt16)
  | fieldDescriptor (position : Nat)
  | methodDescriptor (position : Nat)
  /-- In the content of an attribute. -/
  | slot (owner : Owner) (position offset : Nat)
  deriving DecidableEq

namespace Location

def isSlot : Location → Bool
  | slot .. => true
  | _ => false

end Location

/-- A location together with the kind of text its index leads to. -/
structure Site where
  location : Location
  kind : SymbolForm
  deriving DecidableEq

namespace Constant

/-- The index of the text that names classes, with its kind, if the entry has one. -/
def symbol? : Constant → Option (UInt16 × SymbolForm)
  | classRef name => some (name, .className)
  | nameAndType _ descriptor => some (descriptor, .descriptor)
  | methodType descriptor => some (descriptor, .descriptor)
  | _ => none

/-- The entry with another index of the text that names classes. -/
def withSymbol (index : UInt16) : Constant → Constant
  | classRef _ => classRef index
  | nameAndType name _ => nameAndType name index
  | methodType _ => methodType index
  | other => other

end Constant

/-- Puts another index into the entry at `index`, if it has a place for the name of a class. No
text changes, so all of them stay registered. -/
def Pool.relink (index text : UInt16) (p : Pool) : Pool :=
  ⟨p.entries.modify index.toNat (Constant.withSymbol text), p.texts⟩

namespace ClassFile

def poolSites (p : Pool) : List Site :=
  p.toList.filterMap fun (index, constant) =>
    constant.symbol?.map fun (_, kind) => ⟨.constant index, kind⟩

/-- The sites in a table of attributes, and the number of warnings. -/
def attributeSites (p : Pool) (owner : Owner) (attributes : Array Attribute) :
    Except Fault (List Site × Nat) := do
  let walked ← attributes.toList.mapM (Attribute.slots p)
  let sites := walked.zipIdx.flatMap fun ((slots, _), position) =>
    slots.map fun slot => ⟨.slot owner position slot.offset, slot.kind⟩
  return (sites, total Prod.snd walked)

/-- The tables of attributes of a class file with their owners: that of the class, then those
of its fields, then those of its methods. -/
def attributeTables (c : ClassFile) : List (Owner × Array Attribute) :=
  (.ofClass, c.attributes) ::
    (c.fields.toList.zipIdx.map fun (m, position) => (.field position, m.attributes)) ++
    (c.methods.toList.zipIdx.map fun (m, position) => (.method position, m.attributes))

/-- All sites of a class file, and the number of warnings. Those in the pool come first, then
the descriptors of the members, then those in attributes. -/
def sites (c : ClassFile) : Except Fault (List Site × Nat) := do
  let walked ← c.attributeTables.mapM fun (owner, attributes) =>
    attributeSites c.pool owner attributes
  let descriptors :=
    (List.range c.fields.size).map (fun position => ⟨.fieldDescriptor position, .descriptor⟩) ++
    (List.range c.methods.size).map fun position => ⟨.methodDescriptor position, .descriptor⟩
  return (poolSites c.pool ++ descriptors ++ walked.flatMap Prod.fst,
    total Prod.snd walked)

def memberAt (members : Array Member) (position : Nat) : Except Fault Member :=
  match members[position]? with
  | some m => .ok m
  | none => .error (.malformed (.missingMember position))

def attributeIn (attributes : Array Attribute) (position : Nat) : Except Fault Attribute :=
  match attributes[position]? with
  | some a => .ok a
  | none => .error (.malformed (.missingAttribute position))

def attributesOf (c : ClassFile) : Owner → Except Fault (Array Attribute)
  | .ofClass => .ok c.attributes
  | .field position => do return (← memberAt c.fields position).attributes
  | .method position => do return (← memberAt c.methods position).attributes

def attributeAt (c : ClassFile) (owner : Owner) (position : Nat) : Except Fault Attribute := do
  attributeIn (← c.attributesOf owner) position

def indexAt (c : ClassFile) : Location → Except Fault UInt16
  | .constant index => do
    let constant ← c.pool.get index
    match constant.symbol? with
    | some (text, _) => return text
    | none => throw (.malformed (.namesNoClass index constant.tag?))
  | .fieldDescriptor position => do return (← memberAt c.fields position).descriptor
  | .methodDescriptor position => do return (← memberAt c.methods position).descriptor
  | .slot owner position offset => do (← c.attributeAt owner position).wordAt offset

def modifyAttribute (owner : Owner) (position : Nat) (f : Attribute → Attribute)
    (c : ClassFile) : ClassFile :=
  let inMember (m : Member) : Member := { m with attributes := m.attributes.modify position f }
  match owner with
  | .ofClass => { c with attributes := c.attributes.modify position f }
  | .field member => { c with fields := c.fields.modify member inMember }
  | .method member => { c with methods := c.methods.modify member inMember }

/-- Puts the index of a text at a location, if it is there. -/
def place (location : Location) (text : UInt16) (c : ClassFile) : ClassFile :=
  match location with
  | .constant index => { c with pool := c.pool.relink index text }
  | .fieldDescriptor position =>
    { c with fields := c.fields.modify position ({ · with descriptor := text }) }
  | .methodDescriptor position =>
    { c with methods := c.methods.modify position ({ · with descriptor := text }) }
  | .slot owner position offset => c.modifyAttribute owner position (Attribute.place offset text)

/-- Replaces the index kept at a location. The new one has to lead to a text. -/
def setIndexAt (location : Location) (text : UInt16) : Edit Unit := fun c =>
  match c.pool.text text with
  | .error fault => .error fault c
  | .ok _ =>
    match c.indexAt location with
    | .error fault => .error fault c
    | .ok _ => .ok () (c.place location text)

def scanSite (c : ClassFile) (site : Site) : Except Fault Scan := do
  return Symbol.scan site.kind (← c.pool.text (← c.indexAt site.location))

end ClassFile

end Retarget
