import Retarget.ClassFile.Rename
import Retarget.ClassPath
import Retarget.Pass.Plan
import Retarget.Pass.Report

/-!
A pass over a directory of classes. The planned class files are loaded,
changed and written below the output root, where their names put them; before
that the outputs of removed files are deleted. The first failure ends a pass,
and what was written before stays. Input and output may not lie inside each
other.
-/

set_option autoImplicit false

namespace Retarget.Pass

/-- A step on the tree that may fail; a failed step keeps what it changed. -/
abbrev Step (α : Type) := EStateM Fault FileTree α

def overlaps (a b : List Component) : Bool := a.isPrefixOf b || b.isPrefixOf a

/-- The check that roots used in the directory `cwd` do not lie inside each other. -/
def checkApartIn (t : FileTree) (cwd : Place) (input output : Path) : Except Fault Unit :=
  match t.anchorIn? cwd input with
  | none => .error (.io input)
  | some a =>
    match t.anchorIn? cwd output with
    | none => .error (.io output)
    | some b =>
      if overlaps a b then .error (.configuration (.overlap output input)) else .ok ()

def checkApart (t : FileTree) (input output : Path) : Except Fault Unit :=
  checkApartIn t [] input output

/-- Empties the output. This fails at something in it whose path is too long. -/
def emptyOutput (output : Path) : Step Unit := fun t =>
  match FileTree.overlong? output (t.children output) with
  | some path => .error (.io path) t
  | none =>
    match t.clean output with
    | .ok t => .ok () t
    | .error _ => .error (.io output) t

/-- Deletes the outputs of removed files and gives those that were there. -/
def deleteOutputs (output : Path) : List Path → Step (List Path)
  | [], t => .ok [] t
  | relative :: rest, t =>
    let path := output.join relative
    match t.removeFile path with
    | .ok t =>
      match deleteOutputs output rest t with
      | .ok deleted t => .ok (path :: deleted) t
      | .error fault t => .error fault t
    | .error .notFound => deleteOutputs output rest t
    | .error _ => .error (.io path) t

/-- Loads, changes and writes one class, and gives its name with dots. -/
def processClass (newNames : Renaming) (output relative : Path) (cp : ClassPath) :
    Step (String × Tally × ClassPath) := fun t =>
  let name := relative.binaryName
  match ClassPath.load t name cp with
  | .error fault _ => .error fault t
  | .ok c cp =>
    match c.rename newNames with
    | .error fault _ => .error fault t
    | .ok tally c =>
      match c.toBytes with
      | .error fault => .error (.rename name fault) t
      | .ok bytes =>
        match ClassFile.store bytes (ClassPath.pathOf output name) t with
        | .ok () t => .ok (name, tally, cp) t
        | .error fault t => .error fault t

/-- Processes classes one after the other, after those named in `names`. -/
def processClasses (newNames : Renaming) (output : Path) :
    List Path → List String → Tally → ClassPath → Step (List String × Tally)
  | [], names, tally, _, t => .ok (names, tally) t
  | relative :: rest, names, tally, cp, t =>
    match processClass newNames output relative cp t with
    | .ok (name, more, cp) t =>
      processClasses newNames output rest (name :: names) (tally.add more) cp t
    | .error fault t => .error fault t

/-- A pass over the files below `input` that the changes select. With the report comes the number
of warnings. -/
def run (config : PassConfig) (newNames : Renaming) (input : Path) (changes : Changes)
    (output : Path) : Step (Report × Nat) := do
  let t ← get
  MonadExcept.ofExcept (checkApart t input output)
  let plan ← MonadExcept.ofExcept (Plan.make t input changes)
  if plan.fullRebuild && config.clean then emptyOutput output
  let deleted ← deleteOutputs output plan.removed
  let (names, tally) ← processClasses newNames output plan.classes [] ⟨0, 0⟩
    (ClassPath.new input config.verify)
  let report : Report :=
    { processed := Report.sortNames names, deleted, renamed := tally.renamed,
      ignored := plan.ignored, fullRebuild := plan.fullRebuild }
  return (report, plan.warnings + tally.warnings)

end Retarget.Pass
