/-!
Strings cut at a separator and put together again, and strings with one
character exchanged. Cutting keeps empty pieces: a text with `n` separators
has `n + 1` pieces.
-/

set_option autoImplicit false

namespace Retarget.Text

/-- Extends the first piece by `c`, or opens a new piece in front at a separator. -/
def cutAt (separator c : Char) : List (List Char) → List (List Char)
  | [] => if c = separator then [[], []] else [[c]]
  | piece :: pieces => if c = separator then [] :: piece :: pieces else (c :: piece) :: pieces

def pieces (separator : Char) (cs : List Char) : List (List Char) :=
  cs.foldr (cutAt separator) [[]]

def split (separator : Char) (s : String) : List String :=
  (pieces separator s.toList).map String.ofList

def join (separator : String) (parts : List String) : String :=
  separator.intercalate parts

/-- `s` with every `old` replaced by `new`. -/
def exchange (old new : Char) (s : String) : String :=
  String.ofList (s.toList.map fun c => if c = old then new else c)

/-- The two parts of `cs` around its last `mark`, if there is one. -/
def splitLast (mark : Char) (cs : List Char) : Option (List Char × List Char) :=
  let after := cs.reverse.takeWhile (· ≠ mark)
  match cs.reverse.dropWhile (· ≠ mark) with
  | [] => none
  | _ :: before => some (before.reverse, after.reverse)

theorem pieces_nil (separator : Char) : pieces separator [] = [[]] := rfl

theorem pieces_cons (separator c : Char) (cs : List Char) :
    pieces separator (c :: cs) = cutAt separator c (pieces separator cs) := rfl

theorem pieces_ne_nil (separator : Char) (cs : List Char) : pieces separator cs ≠ [] := by
  cases cs with
  | nil => simp [pieces_nil]
  | cons c cs =>
    rw [pieces_cons]
    cases pieces separator cs <;> simp only [cutAt] <;> split <;> simp

end Retarget.Text
