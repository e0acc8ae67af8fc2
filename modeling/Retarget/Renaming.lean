import Retarget.ResourceKind
import Retarget.Text.ModifiedUtf8
import Std.Data.ExtTreeMap

/-!
Which classes get which new names. A name is exchanged once: its new name is
not looked up again. No class has itself as its new name.
-/

set_option autoImplicit false

namespace Retarget

/-- New names of classes, by old name. -/
structure Renaming where
  entries : Std.ExtTreeMap String String

namespace Renaming

def empty : Renaming := ⟨∅⟩

def get? (t : Renaming) (name : String) : Option String := t.entries[name]?

def contains (t : Renaming) (name : String) : Bool := t.entries.contains name

/-- The new name of a class as a text of a class file, by its text. Only the text that a name is
written as finds the name. -/
def getText? (t : Renaming) (text : Bytes) : Option Bytes :=
  match ModifiedUtf8.decode text with
  | .error _ => none
  | .ok name =>
    match t.get? name with
    | none => none
    | some new =>
      if ModifiedUtf8.encode name = text then some (ModifiedUtf8.encode new) else none

/-- Gives a class a new name. A class that would keep its name is left out, and the answer is
false. -/
def insert (old new : String) (t : Renaming) : Bool × Renaming :=
  if old = new then (false, t) else (true, ⟨t.entries.insert old new⟩)

def size (t : Renaming) : Nat := t.entries.size

def isEmpty (t : Renaming) : Bool := t.entries.isEmpty

def toList (t : Renaming) : List (String × String) := t.entries.toList

/-- The renaming of the pairs; a later pair takes the place of an earlier one. -/
def ofList (pairs : List (String × String)) : Renaming :=
  pairs.foldl (fun t (old, new) => (t.insert old new).2) empty

def accessorPairs (target package : String) : List (String × String) :=
  ResourceKind.all.map fun kind => (kind.accessor package, kind.accessor target)

/-- The renaming that gives the accessors of the libraries the names of those of `target`, and the
number of libraries that were left out for being `target` themselves. -/
def ofPackages (libraries : List String) (target : String) : Renaming × Nat :=
  (ofList ((libraries.filter (· ≠ target)).flatMap (accessorPairs target)),
    libraries.count target)

end Renaming

end Retarget
