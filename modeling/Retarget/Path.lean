import Retarget.Text.Pieces

/-!
Paths as they are spelled. A path is kept cut at its slashes, so that joining
and printing keep the spelling, while `components` is the place a spelling
stands for: repeated slashes and inner dots do not count. Paths are compared
by components.
-/

set_option autoImplicit false

namespace Retarget

/-- A path, cut at its slashes: `/a//b` has the segments `""`, `"a"`, `""` and `"b"`. -/
structure Path where
  segments : List String
  deriving DecidableEq

/-- One meaningful step of a path. -/
inductive Component where
  | root
  | current
  | parent
  | normal (name : String)
  deriving DecidableEq

namespace Component

def rank : Component → Nat
  | root => 0
  | current => 1
  | parent => 2
  | normal _ => 3

def text : Component → String
  | root => "/"
  | current => "."
  | parent => ".."
  | normal name => name

/-- The root comes first, then `.`, then `..`, then names in their own order. -/
instance : Ord Component := ⟨compareLex (compareOn rank) (compareOn text)⟩

/-- The component a single segment stands for, none for an empty one and for a dot. -/
def ofSegment? (segment : String) : Option Component :=
  if segment = "" ∨ segment = "." then none
  else if segment = ".." then some parent
  else some (normal segment)

def isNormal : Component → Bool
  | normal _ => true
  | _ => false

private theorem compare_eq (a b : Component) :
    compare a b = compareLex (compareOn rank) (compareOn text) a b := rfl

instance : Std.TransOrd Component :=
  inferInstanceAs (Std.TransCmp (compareLex (compareOn rank) (compareOn text)))

instance : Std.LawfulEqOrd Component where
  eq_of_compare {a b} h := by
    rw [compare_eq, compareLex_eq_eq, compareOn, compareOn, Std.LawfulEqOrd.compare_eq_iff_eq,
      Std.LawfulEqOrd.compare_eq_iff_eq] at h
    obtain ⟨hr, ht⟩ := h
    cases a <;> cases b <;> simp_all [rank, text]

end Component

namespace Path

/-- Whether a segment stands for no step of its own. -/
def isVoid (segment : String) : Bool :=
  segment = "" || segment = "."

def ofString (s : String) : Path :=
  ⟨Text.split '/' s⟩

def toString (p : Path) : String :=
  Text.join "/" p.segments

instance : ToString Path := ⟨toString⟩

def empty : Path := ⟨[""]⟩

def isEmpty (p : Path) : Bool :=
  p.segments = [] || p.segments = [""]

def isAbsolute (p : Path) : Bool :=
  match p.segments with
  | "" :: _ :: _ => true
  | _ => false

def endsWithSlash (p : Path) : Bool :=
  match p.segments with
  | _ :: rest => rest.getLast? = some ""
  | [] => false

def withoutSlash (p : Path) : Path := ⟨(p.segments.reverse.dropWhile (· = "")).reverse⟩

/-- `p` below `base`. An absolute `p` stands alone; a slash is added unless `base` is empty
or already ends with one. -/
def join (base p : Path) : Path :=
  if p.isAbsolute || base.isEmpty then p
  else if base.endsWithSlash then ⟨base.segments.dropLast ++ p.segments⟩
  else ⟨base.segments ++ p.segments⟩

def child (base : Path) (segment : String) : Path :=
  base.join ⟨[segment]⟩

/-- What the spelling says about where the path starts, and the segments after that. -/
def anchorSplit (p : Path) : Option Component × List String :=
  match p.segments with
  | "" :: s :: rest => (some .root, s :: rest)
  | "." :: rest => (some .current, rest)
  | segments => (none, segments)

/-- The steps the spelling stands for. Empty segments and dots are dropped, except that a
leading dot counts. -/
def components (p : Path) : List Component :=
  let (anchor, body) := p.anchorSplit
  anchor.toList ++ body.filterMap Component.ofSegment?

def fileName? (p : Path) : Option String :=
  match p.components.getLast? with
  | some (.normal name) => some name
  | _ => none

def trimEnd (segments : List String) : List String :=
  (segments.reverse.dropWhile isVoid).reverse

def ofAnchor : Option Component → List String → Path
  | some .root, [] => ⟨["", ""]⟩
  | some .root, segments => ⟨"" :: segments⟩
  | some _, segments => ⟨"." :: segments⟩
  | none, [] => empty
  | none, segments => ⟨segments⟩

/-- The spelling without its last step and the slashes before it. The root and a path without
steps have no parent. -/
def parent? (p : Path) : Option Path :=
  let (anchor, body) := p.anchorSplit
  match trimEnd body with
  | [] => if anchor = some .current then some empty else none
  | steps => some (ofAnchor anchor (trimEnd steps.dropLast))

def dropSteps : Nat → List String → List String
  | 0, segments => segments
  | _ + 1, [] => []
  | n + 1, segment :: rest => dropSteps (if isVoid segment then n + 1 else n) rest

/-- The spelling of what follows `base` in `p`, if the steps of `p` start with those of
`base`. Slashes and dots around the remainder are dropped. -/
def relativeTo? (base p : Path) : Option Path :=
  let skipped := base.components.length
  let (anchor, body) := p.anchorSplit
  if base.components.isPrefixOf p.components then
    if skipped = 0 then some (ofAnchor anchor (trimEnd body))
    else
      let rest := dropSteps (skipped - anchor.toList.length) body
      some (ofAnchor none (trimEnd (rest.dropWhile isVoid)))
  else none

/-- The two parts of a file name around its last dot. A name that starts with its only dot has
no extension. -/
def splitExtension? (name : String) : Option (String × String) :=
  match Text.splitLast '.' name.toList with
  | some ([], _) => none
  | some (stem, extension) => some (String.ofList stem, String.ofList extension)
  | none => none

def extension? (p : Path) : Option String :=
  (p.fileName?.bind splitExtension?).map Prod.snd

/-- A file name without its extension. The dot before the extension goes too, unless only
`..` would have been left. -/
def withoutExtension (name : String) : String :=
  match splitExtension? name with
  | some (stem, _) => if stem = "." then ".." else stem
  | none => name

def hasClassExtension (p : Path) : Bool := p.extension? = some "class"

/-- The name, with dots, of the class that a relative path leads to: its steps with dots between
them, without the extension. -/
def binaryName (p : Path) : String :=
  let steps := p.components.map Component.text
  Text.join "." (steps.dropLast ++ steps.getLast?.toList.map withoutExtension)

end Path

end Retarget
