import Retarget.Path
import Std.Data.ExtTreeMap

/-!
What happened to the files of a directory since the last pass. Paths that have
the same components are the same file, under the spelling that was given first.
Nothing recorded means that nothing is known, and then everything is done again.
-/

set_option autoImplicit false

namespace Retarget

inductive FileChange where
  | added
  | changed
  | removed
  | unchanged
  deriving DecidableEq

namespace FileChange

def name : FileChange → String
  | added => "Added"
  | changed => "Changed"
  | removed => "Removed"
  | unchanged => "Unchanged"

def ofName? (name : String) : Option FileChange :=
  [added, changed, removed, unchanged].find? fun status => status.name = name

end FileChange

/-- The status of files, by components of their paths, with the spelling of each path. -/
structure Changes where
  entries : Std.ExtTreeMap (List Component) (Path × FileChange)

namespace Changes

def empty : Changes := ⟨∅⟩

/-- Records the status of a file. A file recorded before keeps its spelling. -/
def insert (path : Path) (status : FileChange) (s : Changes) : Changes :=
  let spelling := (s.entries[path.components]?.map Prod.fst).getD path
  ⟨s.entries.insert path.components (spelling, status)⟩

def ofList (changes : List (Path × FileChange)) : Changes :=
  changes.foldl (fun s (path, status) => s.insert path status) empty

def get? (s : Changes) (path : Path) : Option FileChange :=
  s.entries[path.components]?.map Prod.snd

def toList (s : Changes) : List (Path × FileChange) :=
  s.entries.toList.map Prod.snd

def size (s : Changes) : Nat := s.entries.size

/-- Whether nothing is recorded, which asks for everything. -/
def isEmpty (s : Changes) : Bool := s.entries.isEmpty

end Changes

end Retarget
