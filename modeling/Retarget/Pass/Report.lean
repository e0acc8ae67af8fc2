import Retarget.Path

/-!
The settings of a pass over a directory of classes, and what it reports.
-/

set_option autoImplicit false

namespace Retarget

/-- The settings of a pass. Whether classes are processed side by side changes no result of a
pass that succeeds. -/
structure PassConfig where
  parallel : Bool
  /-- Whether the output is emptied before everything is done again. -/
  clean : Bool
  /-- Whether a class has to declare the name its file has. -/
  verify : Bool
  deriving DecidableEq

namespace PassConfig

def usual : PassConfig := ⟨true, true, true⟩

def sequential : PassConfig := { usual with parallel := false }

def lenient : PassConfig := ⟨true, false, false⟩

def ofName? (name : String) : Option PassConfig :=
  [("default", usual), ("sequential", sequential), ("lenient", lenient)].lookup name

end PassConfig

structure Report where
  /-- The names of the processed classes, with dots, in order. -/
  processed : List String
  /-- The files deleted from the output. -/
  deleted : List Path
  /-- How many references lead to another class now. -/
  renamed : Nat
  /-- How many files were left out for not being class files. -/
  ignored : Nat
  /-- Whether everything was done again. -/
  fullRebuild : Bool
  deriving DecidableEq

namespace Report

def empty : Report := ⟨[], [], 0, 0, false⟩

def sortNames (names : List String) : List String :=
  names.mergeSort fun a b => a ≤ b

def append (a b : Report) : Report where
  processed := sortNames (a.processed ++ b.processed)
  deleted := a.deleted ++ b.deleted
  renamed := a.renamed + b.renamed
  ignored := a.ignored + b.ignored
  fullRebuild := a.fullRebuild && b.fullRebuild

end Report

end Retarget
