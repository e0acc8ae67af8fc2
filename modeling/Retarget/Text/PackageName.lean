import Retarget.Fault
import Retarget.Text.CharClass

/-!
Names of packages: identifiers with dots between them.
-/

set_option autoImplicit false

namespace Retarget.PackageName

def isStart (c : Char) : Bool := Text.isAlphabetic c || c = '_' || c = '$'

def isPart (c : Char) : Bool := Text.isAlphabetic c || Text.isNumeric c || c = '_' || c = '$'

def isIdentifier : List Char → Bool
  | [] => false
  | c :: cs => isStart c && cs.all isPart

/-- Fails unless `package` is a name of a package. `role` tells messages which one it is. -/
def check (role package : String) : Except Misconfiguration Unit :=
  if package = "" then .error (.emptyPackage role)
  else
    match (Text.split '.' package).find? fun segment => !isIdentifier segment.toList with
    | some segment => .error (.badSegment role package segment)
    | none => .ok ()

end Retarget.PackageName
