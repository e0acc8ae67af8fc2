import Retarget.FileTree
import Retarget.Pass.Changes

/-!
Which files below an input root a pass works on. Without recorded changes these
are all files below the root; with changes, those that were added, changed or
removed. A symbolic link is left out with a warning, wherever it leads. The part
of a changed path below the root is found by the spelling alone; the directory
in which the root is used only matters where its path starts.
-/

set_option autoImplicit false

namespace Retarget

/-- What is done about a file or a recorded change. Paths are relative to the input root. -/
inductive Choice where
  | process (relative : Path)
  | delete (relative : Path)
  /-- A file that is no class file. -/
  | ignore
  /-- A symbolic link, which is left out with a warning. -/
  | warn
  | pass
  deriving DecidableEq

namespace Choice

def ofFile (relative : Path) : Choice :=
  if relative.hasClassExtension then process relative else ignore

def process? : Choice → Option Path
  | process relative => some relative
  | _ => none

def delete? : Choice → Option Path
  | delete relative => some relative
  | _ => none

end Choice

/-- The choices of a pass, in its order. -/
structure Plan where
  choices : List Choice
  fullRebuild : Bool
  deriving DecidableEq

namespace Plan

def classes (p : Plan) : List Path := p.choices.filterMap Choice.process?

def removed (p : Plan) : List Path := p.choices.filterMap Choice.delete?

def ignored (p : Plan) : Nat := p.choices.count .ignore

def warnings (p : Plan) : Nat := p.choices.count .warn

/-- The part of a changed path below the input root. It has to consist of names only. -/
def relative (root path : Path) : Except Fault Path := do
  let relative ←
    if path.isAbsolute then
      match root.relativeTo? path with
      | some relative => pure relative
      | none => throw (.configuration (.outside path root))
    else pure path
  if relative.isEmpty || !relative.components.all Component.isNormal then
    throw (.configuration (.noFile path root))
  return relative

/-- What is done about a changed file that was looked up. One that is no longer there needs
nothing. -/
def ofFound (relative whole : Path) : Except Trouble (Place × Node) → Except Fault Choice
  | .ok (_, .link _) => .ok .warn
  | .ok (_, .file _) => .ok (.ofFile relative)
  | .ok (_, .directory) => .ok .pass
  | .error .notFound => .ok .pass
  | .error _ => .error (.io whole)

/-- What is done about a recorded change below a root that is used in the directory `cwd`. -/
def ofChangeIn (t : FileTree) (cwd : Place) (root : Path) :
    Path × FileChange → Except Fault Choice
  | (path, status) => do
    let relative ← relative root path
    match status with
    | .removed => return .delete relative
    | .unchanged => return .pass
    | .added | .changed =>
      let whole := root.join relative
      ofFound relative whole (t.lookupIn cwd false whole)

def ofEntry : Place × Node → Choice
  | (names, .file _) => .ofFile ⟨names⟩
  | (_, .link _) => .warn
  | (_, .directory) => .pass

/-- The choices for everything below the place that the root leads to. A directory whose path is
too long cannot be looked into. -/
def ofPlace (t : FileTree) (root : Path) (place : Place) : Except Fault (List Choice) :=
  let entries := t.below place
  match FileTree.overlong? root (entries.filter fun entry => entry.2 = .directory) with
  | some path => .error (.io path)
  | none => .ok (entries.map ofEntry)

/-- The choices for everything below the root. A root that is a link counts as a link and is
followed all the same. -/
def ofTreeIn (t : FileTree) (cwd : Place) (root : Path) : Except Fault (List Choice) :=
  match t.lookupIn cwd false root with
  | .error _ => .error (.io root)
  | .ok (_, .file _) => .ok [.ofFile Path.empty]
  | .ok (place, .directory) => ofPlace t root place
  | .ok (_, .link _) =>
    match t.lookupIn cwd true root with
    | .error _ => .error (.io root)
    | .ok (place, .directory) => (ofPlace t root place).map (.warn :: ·)
    | .ok _ => .ok [.warn]

/-- The choices of a pass with the given changes. -/
def makeIn (t : FileTree) (cwd : Place) (root : Path) (changes : Changes) : Except Fault Plan := do
  if changes.isEmpty then return ⟨← ofTreeIn t cwd root, true⟩
  else return ⟨← changes.toList.mapM (ofChangeIn t cwd root), false⟩

def make (t : FileTree) (root : Path) (changes : Changes) : Except Fault Plan :=
  makeIn t [] root changes

end Plan

end Retarget
