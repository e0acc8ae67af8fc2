import Retarget.ClassFile.Basic

/-!
Making a class file from nothing. Names are added to the pool as they are
needed; a step that fails keeps what it had added.
-/

set_option autoImplicit false

namespace Retarget.ClassFile

def onPool {α : Type} (step : Pool.Edit α) : Edit α := fun c =>
  match c with
  | ⟨minor, major, pool, access, thisClass, superClass, interfaces, fields, methods,
      attributes⟩ =>
    match step pool with
    | .ok a pool => .ok a ⟨minor, major, pool, access, thisClass, superClass, interfaces, fields,
        methods, attributes⟩
    | .error fault pool => .error fault ⟨minor, major, pool, access, thisClass, superClass,
        interfaces, fields, methods, attributes⟩

/-- A public class without members. Its name and that of its superclass are given with
slashes. -/
def new (name : String) (superName : Option String) : Except Fault ClassFile :=
  let indices : Pool.Edit (UInt16 × UInt16) := do
    let thisClass ← Pool.internClass name
    match superName with
    | some superName => return (thisClass, ← Pool.internClass superName)
    | none => return (thisClass, 0)
  match indices Pool.empty with
  | .ok (thisClass, superClass) pool =>
    .ok { minor := 0, major := 52, pool, access := 0x21, thisClass, superClass,
          interfaces := #[], fields := #[], methods := #[], attributes := #[] }
  | .error fault _ => .error fault

def makeAttribute (name : String) (content : Array UInt8) : Edit Attribute := do
  return ⟨← onPool (Pool.internText name), content⟩

def attachAttribute (name : String) (content : Array UInt8) : Edit Unit := do
  let a ← makeAttribute name content
  modify fun c => { c with attributes := c.attributes.push a }

def declareInterface (name : String) : Edit Unit := do
  let index ← onPool (Pool.internClass name)
  modify fun c => { c with interfaces := c.interfaces.push index }

def makeMember (access : UInt16) (name descriptor : String) : Edit Member := do
  let name ← onPool (Pool.internText name)
  let descriptor ← onPool (Pool.internText descriptor)
  return ⟨access, name, descriptor, #[]⟩

def declareField (access : UInt16) (name descriptor : String) : Edit Member := do
  let m ← makeMember access name descriptor
  modify fun c => { c with fields := c.fields.push m }
  return m

def declareMethod (access : UInt16) (name descriptor : String) : Edit Member := do
  let m ← makeMember access name descriptor
  modify fun c => { c with methods := c.methods.push m }
  return m

end Retarget.ClassFile
