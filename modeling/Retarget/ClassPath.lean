import Retarget.ClassFile.Basic
import Retarget.FileTree

/-!
Looking up classes by name below a directory. The file of a class is found by
the dots of its name; a file that was found once is not looked for again. A
loaded class can be required to declare the name it was asked for by.
-/

set_option autoImplicit false

namespace Retarget

/-- A directory of classes: where it is, whether declared names are checked, and the files found
so far. -/
structure ClassPath where
  root : Path
  verify : Bool
  resolved : Std.ExtTreeMap String Path

namespace ClassPath

def new (root : Path) (verify : Bool) : ClassPath := ⟨root, verify, ∅⟩

abbrev Step (α : Type) := EStateM Fault ClassPath α

/-- Whether a name consists of segments with dots between them and holds no separators. -/
def isWellFormed (name : String) : Bool :=
  !name.toList.contains '/' && !name.toList.contains '\\' &&
    (Text.split '.' name).all fun segment => !segment.isEmpty

/-- Where the class of that name, with dots, lies below the root. -/
def pathOf (root : Path) (name : String) : Path :=
  ClassFile.pathBelow root (Text.exchange '.' '/' name)

def find (t : FileTree) (name : String) : Step Path := fun cp =>
  match cp.resolved[name]? with
  | some path => .ok path cp
  | none =>
    let path := pathOf cp.root name
    if isWellFormed name && t.isFile path then
      .ok path { cp with resolved := cp.resolved.insert name path }
    else .error (.classNotFound name) cp

def classAt (t : FileTree) (path : Path) : Except Fault ClassFile := do
  ClassFile.ofBytes (← t.contents path)

def checkName (name : String) (c : ClassFile) : Except Fault Unit :=
  match c.binaryName with
  | .error fault => .error fault
  | .ok declared => if declared = name then .ok () else .error (.nameMismatch name declared)

def load (t : FileTree) (name : String) : Step ClassFile := fun cp =>
  match find t name cp with
  | .error fault cp => .error (fault.asClassLoad (pathOf cp.root name)) cp
  | .ok path cp =>
    match classAt t path with
    | .error fault => .error (fault.asClassLoad path) cp
    | .ok c =>
      if cp.verify then
        match checkName name c with
        | .error fault => .error (fault.asClassLoad path) cp
        | .ok () => .ok c cp
      else .ok c cp

end ClassPath

namespace ClassFile

/-- Writes the bytes of a class to a path, with the directories it needs. -/
def store (bytes : Bytes) (path : Path) : EStateM Fault FileTree Unit := fun t =>
  match path.parent? with
  | none => finish t
  | some parent =>
    match t.makeDirectories parent with
    | (t, .ok ()) => finish t
    | (t, .error _) => .error (.io parent) t
where
  /-- The last step, once the directories are there. -/
  finish (t : FileTree) : EStateM.Result Fault FileTree Unit :=
    match t.write path bytes with
    | .ok t => .ok () t
    | .error _ => .error (.io path) t

/-- Writes a class below `root`, where the name it declares puts it. -/
def writeBelow (root : Path) (c : ClassFile) : EStateM Fault FileTree Path := fun t =>
  match c.filePath root with
  | .error fault => .error fault t
  | .ok path =>
    match c.toBytes with
    | .error fault => .error fault t
    | .ok bytes =>
      match store bytes path t with
      | .ok () t => .ok path t
      | .error fault t => .error fault t

end ClassFile

end Retarget
