import Retarget.Fault
import Retarget.Bytes.Integer
import Std.Data.ExtTreeMap

/-!
Trees of files. Every file, directory and symbolic link has a place, the names
that lead to it from the root; the root itself is always there. A path is
resolved step by step from the root, or from a current directory if it is
relative: links in it are followed, a step below something that is no directory
fails, and only so many links are followed. Where no directory is named, the
root is the current one.

Two trees are equal when every place holds the same in both.
-/

set_option autoImplicit false

namespace Retarget

inductive Node where
  | directory
  | file (content : Bytes)
  | link (target : Path)
  deriving DecidableEq

/-- The names that lead from the root to a node. -/
abbrev Place := List String

/-- A tree of files: what is at which place. The root is a directory and is not listed. -/
structure FileTree where
  nodes : Std.ExtTreeMap Place Node

inductive Trouble where
  | notFound
  | notDirectory
  | isDirectory
  /-- There is something at the place already. -/
  | occupied
  | nameTooLong
  /-- The path holds a character that no path can hold. -/
  | badCharacter
  | tooManyLinks
  deriving DecidableEq

inductive Spot where
  /-- To something that is there. `links` is how many more links could have been followed. -/
  | found (place : Place) (node : Node) (links : Nat)
  /-- To nothing yet, but the directory it would be in is there. `slash` says whether the path
  ends with a slash. -/
  | vacant (directory : Place) (name : String) (slash : Bool)
  deriving DecidableEq

/-- The directory where a path that is used in `place` starts. -/
def Path.start (p : Path) (place : Place) : Place := if p.isAbsolute then [] else place

/-- The steps from the root that a path stands for that is used in `place`. -/
def Path.stepsIn (place : Place) (p : Path) : List Component :=
  (if p.isAbsolute then [] else place.map .normal) ++
    p.components.filter fun step => step ≠ .root && step ≠ .current

theorem Path.start_root (p : Path) : p.start [] = [] := ite_self _

namespace FileTree

def empty : FileTree := ⟨∅⟩

def nameLimit : Nat := 255

def pathLimit : Nat := 4095

def linkLimit : Nat := 40

def at? (t : FileTree) : Place → Option Node
  | [] => some .directory
  | name :: names => t.nodes[name :: names]?

def set (place : Place) (node : Node) (t : FileTree) : FileTree :=
  ⟨t.nodes.insert place node⟩

/-- Follows segments from a place, where `links` more links can be followed. What a link stands
for is left to `jump`, except that a last link is what was looked for if links are not to be
followed. -/
def descend (t : FileTree) (follow : Bool) (links : Nat)
    (jump : Place → List String → Except Trouble Spot) :
    Place → Node → List String → Except Trouble Spot
  | place, node, [] => .ok (.found place node links)
  | place, node, segment :: rest =>
    if node = .directory then
      if Path.isVoid segment then descend t follow links jump place node rest
      else if segment = ".." then descend t follow links jump place.dropLast .directory rest
      else if nameLimit < segment.utf8ByteSize then .error .nameTooLong
      else
        match t.at? (place ++ [segment]) with
        | none =>
          if rest.all (· = "") then .ok (.vacant place segment (!rest.isEmpty))
          else .error .notFound
        | some (.link target) =>
          if rest.isEmpty && !follow then .ok (.found (place ++ [segment]) (.link target) links)
          else jump (target.start place) (target.segments ++ rest)
        | some below => descend t follow links jump (place ++ [segment]) below rest
    else .error .notDirectory

/-- Follows segments from a directory, and at most `links` links on the way. -/
def resolveFrom (t : FileTree) (follow : Bool) :
    Nat → Place → List String → Except Trouble Spot
  | 0, place, segments =>
    descend t follow 0 (fun _ _ => .error .tooManyLinks) place .directory segments
  | links + 1, place, segments =>
    descend t follow (links + 1) (resolveFrom t follow links) place .directory segments

/-- Whether a path can be looked for at all: no path holds the null character. -/
def isSound (p : Path) : Bool := p.segments.all fun segment => !segment.toList.contains '\x00'

/-- Whether the spelling of a path has more bytes than a path can have. -/
def isOverlong (p : Path) : Bool := pathLimit < p.toString.utf8ByteSize

/-- Where a path leads that is used in the directory `cwd`. `follow` says whether a link at its
very end is followed. -/
def resolveIn (t : FileTree) (cwd : Place) (follow : Bool) (p : Path) : Except Trouble Spot :=
  if !isSound p then .error .badCharacter
  else if p.isEmpty then .error .notFound
  else if isOverlong p then .error .nameTooLong
  else resolveFrom t follow linkLimit (p.start cwd) p.segments

def resolve (t : FileTree) (follow : Bool) (p : Path) : Except Trouble Spot :=
  t.resolveIn [] follow p

/-- What a path leads to, with its place. -/
def lookupIn (t : FileTree) (cwd : Place) (follow : Bool) (p : Path) :
    Except Trouble (Place × Node) :=
  match t.resolveIn cwd follow p with
  | .ok (.found place node _) => .ok (place, node)
  | .ok (.vacant ..) => .error .notFound
  | .error trouble => .error trouble

def lookup (t : FileTree) (follow : Bool) (p : Path) : Except Trouble (Place × Node) :=
  t.lookupIn [] follow p

def isFile (t : FileTree) (p : Path) : Bool :=
  match t.lookup true p with
  | .ok (_, .file _) => true
  | _ => false

/-- The content of the file a path leads to, which may not be empty. -/
def contents (t : FileTree) (p : Path) : Except Fault Bytes :=
  match t.lookup true p with
  | .ok (_, .file content) => if content.isEmpty then .error .empty else .ok content
  | .ok (_, .directory) => .error .unreadable
  | .ok (_, .link _) => .error .unopened
  | .error _ => .error .unopened

/-- What is below a place, with the names from there on, in depth-first order. -/
def below (t : FileTree) (place : Place) : List (Place × Node) :=
  t.nodes.toList.filterMap fun (other, node) =>
    if place.isPrefixOf other && other ≠ place then some (other.drop place.length, node)
    else none

def children (t : FileTree) (p : Path) : List (Place × Node) :=
  match t.lookup true p with
  | .ok (place, .directory) => (t.below place).filter fun entry => entry.1.length = 1
  | _ => []

/-- The first of the entries, each with its names from `p` on, whose own path is too long. -/
def overlong? (p : Path) (entries : List (Place × Node)) : Option Path :=
  (entries.map fun entry => p.join ⟨entry.1⟩).find? isOverlong

/-- Everything below the directory a path leads to, by path from there on, in the order of these
paths as texts. -/
def list (t : FileTree) (p : Path) : List (String × Node) :=
  match t.lookup true p with
  | .ok (place, .directory) =>
    let entries := (t.below place).map fun (names, node) => (Text.join "/" names, node)
    entries.mergeSort fun a b => a.1 ≤ b.1
  | _ => []

def write (p : Path) (content : Bytes) (t : FileTree) : Except Trouble FileTree :=
  match t.resolve true p with
  | .ok (.found _ .directory _) => .error .isDirectory
  | .ok (.found place ..) => .ok (t.set place (.file content))
  | .ok (.vacant directory name slash) =>
    if slash then .error .isDirectory else .ok (t.set (directory ++ [name]) (.file content))
  | .error trouble => .error trouble

/-- Makes the directories that the segments name one below the other, from a directory on, as far
as they are not there. At most `links` links are followed. A failure leaves the directories made
before it. -/
def makeAlong : List String → Place → Nat → FileTree → FileTree × Except Trouble Unit
  | [], _, _, t => (t, .ok ())
  | segment :: rest, place, links, t =>
    if Path.isVoid segment then makeAlong rest place links t
    else if segment = ".." then makeAlong rest place.dropLast links t
    else if nameLimit < segment.utf8ByteSize then (t, .error .nameTooLong)
    else
      match t.at? (place ++ [segment]), links with
      | none, _ =>
        -- a dot cannot name the directory before it while that is not there
        if rest.all Path.isVoid && rest.contains "." then (t, .error .notFound)
        else makeAlong rest (place ++ [segment]) links (t.set (place ++ [segment]) .directory)
      | some .directory, _ => makeAlong rest (place ++ [segment]) links t
      | some (.file _), _ => (t, .error .occupied)
      | some (.link _), 0 => (t, .error .tooManyLinks)
      | some (.link target), links + 1 =>
        match t.resolveFrom true links (target.start place) target.segments with
        | .ok (.found below .directory left) => makeAlong rest below left t
        | _ => (t, .error .occupied)

/-- Makes a directory and all directories it lies in. Nothing is made if more is wrong with the
path than that something is not there. -/
def makeDirectoriesIn (cwd : Place) (p : Path) (t : FileTree) : FileTree × Except Trouble Unit :=
  if p.isEmpty then (t, .ok ())
  else
    match t.resolveIn cwd true p with
    | .ok (.found _ .directory _) => (t, .ok ())
    | .ok (.found ..) => (t, .error .occupied)
    | .ok (.vacant ..) | .error .notFound => makeAlong p.segments (p.start cwd) linkLimit t
    | .error trouble => (t, .error trouble)

def makeDirectories (p : Path) (t : FileTree) : FileTree × Except Trouble Unit :=
  t.makeDirectoriesIn [] p

def makeLink (target p : Path) (t : FileTree) : Except Trouble FileTree :=
  match t.resolve false p with
  | .ok (.found ..) => .error .occupied
  | .ok (.vacant directory name slash) =>
    if slash then .error .notFound else .ok (t.set (directory ++ [name]) (.link target))
  | .error trouble => .error trouble

/-- Removes a file or a link. A slash after the name of a link makes this fail, even if the link
leads nowhere. -/
def removeFile (p : Path) (t : FileTree) : Except Trouble FileTree :=
  match t.lookup false p with
  | .ok (_, .directory) => .error .isDirectory
  | .ok (place, _) => .ok ⟨t.nodes.erase place⟩
  | .error .notFound =>
    match t.lookup false p.withoutSlash with
    | .ok _ => .error .notDirectory
    | .error trouble => .error trouble
  | .error trouble => .error trouble

def clear (place : Place) (t : FileTree) : FileTree :=
  ⟨t.nodes.filter fun other _ => !(place.isPrefixOf other && other ≠ place)⟩

/-- Removes everything in a directory, which may itself be missing. -/
def clean (p : Path) (t : FileTree) : Except Trouble FileTree :=
  match t.lookup true p with
  | .ok (place, .directory) => .ok (t.clear place)
  | .ok _ => .error .notDirectory
  | .error .notFound => .ok t
  | .error trouble => .error trouble

def removeAll (p : Path) (t : FileTree) : Except Trouble FileTree :=
  match t.lookup false p with
  | .ok (place, _) => .ok ⟨(t.clear place).nodes.erase place⟩
  | .error trouble => .error trouble

/-- The place a path leads to, all links followed. -/
def canonical? (t : FileTree) (p : Path) : Option Place :=
  match t.lookup true p with
  | .ok (place, _) => some place
  | .error _ => none

/-- Follows steps from a directory as far as they lead to something, over at most `links` links and
with at most `room` bytes of spelling. Steps that are left over are kept as they are. -/
def anchorFrom (t : FileTree) : List Component → Place → Nat → Nat → List Component
  | [], place, _, _ => place.map .normal
  | step :: rest, place, links, room =>
    let size := step.text.utf8ByteSize + 1
    if room < size then place.map .normal ++ step :: rest
    else
      match t.resolveFrom true links place [step.text] with
      | .ok (.found below .directory left) => anchorFrom t rest below left (room - size)
      | .ok (.found below ..) => below.map .normal ++ rest
      | _ => place.map .normal ++ step :: rest

/-- The steps from the root that a path stands for where it is used, with links resolved for the
part that is there. The empty path stands for nothing. -/
def anchorIn? (t : FileTree) (cwd : Place) (p : Path) : Option (List Component) :=
  if p.isEmpty then none
  else
    let steps := p.stepsIn cwd
    let slash := if p.endsWithSlash then [""] else []
    match t.canonical? ⟨"" :: (steps.map Component.text ++ slash)⟩ with
    | some place => some (place.map .normal)
    | none => some (t.anchorFrom steps.dropLast [] linkLimit pathLimit ++ steps.getLast?.toList)

def anchor? (t : FileTree) (p : Path) : Option (List Component) := t.anchorIn? [] p

end FileTree

end Retarget
