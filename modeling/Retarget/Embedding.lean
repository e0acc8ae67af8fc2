import Retarget.Pass.Run
import Retarget.Text.PackageName

/-!
Embedding libraries into an application. The accessor classes of the libraries
give way to those of the application's package, in all classes of all inputs;
the results share one output.
-/

set_option autoImplicit false

namespace Retarget

/-- The packages of an embedding and the settings of its passes. -/
structure Embedding where
  libraries : List String
  target : String
  pass : PassConfig
  deriving DecidableEq

namespace Embedding

def name : String := "fatAarRTransform"

/-- The embedding of some packages into another with the usual settings, if all are names of
packages. -/
def new (libraries : List String) (target : String) : Except Fault Embedding :=
  let checked := do
    PackageName.check "target" target
    libraries.forM (PackageName.check "library")
  match checked with
  | .ok () => .ok ⟨libraries, target, .usual⟩
  | .error problem => .error (.configuration problem)

def newNames (e : Embedding) : Renaming :=
  (Renaming.ofPackages e.libraries e.target).1

/-- A directory of classes and what happened to it. -/
structure Input where
  root : Path
  changes : Changes

/-- Processes the inputs in order, after those told of in the report. -/
def runInputs (pass : PassConfig) (newNames : Renaming) (output : Path) :
    List Input → Report → Nat → Pass.Step (Report × Nat)
  | [], report, warnings => pure (report, warnings)
  | input :: rest, report, warnings => do
    let (next, more) ← Pass.run pass newNames input.root input.changes output
    runInputs pass newNames output rest (report.append next) (warnings + more)

/-- Processes all inputs into one output. The output is emptied once, before the first input, if
everything is done again. With the report comes the number of warnings. -/
def run (e : Embedding) (inputs : List Input) (output : Path) : Pass.Step (Report × Nat) := do
  let t ← get
  inputs.forM fun input => MonadExcept.ofExcept (Pass.checkApart t input.root output)
  if inputs.all (·.changes.isEmpty) && e.pass.clean then Pass.emptyOutput output
  runInputs { e.pass with clean := false } e.newNames output inputs
    { Report.empty with fullRebuild := true } 0

end Embedding

end Retarget
