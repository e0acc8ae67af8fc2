import Retarget.ClassFile.Site
import Std.Data.ExtTreeSet

/-!
The classes a class file refers to.
-/

set_option autoImplicit false

namespace Retarget.ClassFile

/-- The names a site leads to. Text in an attribute need not be a proper symbol; the names before
the defect count all the same. -/
def namesAt (c : ClassFile) (site : Site) : Except Fault (List Bytes) := do
  let scan ← c.scanSite site
  match scan.defect with
  | some defect => if site.location.isSlot then return scan.names else throw (.malformed defect)
  | none => return scan.names

/-- The names of all classes a class file refers to, each once, in order. -/
def references (c : ClassFile) : Except Fault (List String) := do
  let (sites, _) ← c.sites
  let names ← sites.mapM c.namesAt
  let texts := Std.ExtTreeSet.ofList names.flatten
  let strings ← texts.toList.mapM fun text =>
    match ModifiedUtf8.decode text with
    | .ok s => Except.ok s
    | .error defect => .error (Fault.malformed defect)
  return (Std.ExtTreeSet.ofList strings).toList

end Retarget.ClassFile
