import Retarget.Proofs.Files.Current

/-!
What a path leads to when a last link is not followed, and why it leads to
nothing. From a directory the segments find a directory, or the entry that the
last of them names, or the walk breaks off: at a name that is too long or that
nothing has, at a file that more segments come after, or where no more links can
be followed. A link that leads to no directory does not end the walk by itself;
what comes after it is looked for behind what it stands for.
-/

set_option autoImplicit false

namespace Retarget

open Retarget.Path (IsName)

namespace FileTree

variable {t : FileTree} {links left less : Nat} {place q mid base cwd : Place} {s : String}
  {segments rest front more : List String} {target root p : Path} {node : Node}
  {content : Bytes} {trouble : Trouble}

/-- From the directory at a place the segments lead to a node. A link before the last segment is
followed, a last one is what is found. -/
inductive Finds (t : FileTree) (links : Nat) (place : Place) :
    List String → Place → Node → Prop where
  | here : Finds t links place [] place .directory
  | step {front : List String} {mid : Place} {left : Nat} {s : String}
      (hfront : t.Opens links place front mid left) (hstep : ¬ IsName s) :
      Finds t links place (front ++ [s]) (Path.step mid s) .directory
  | entry {front : List String} {mid : Place} {left : Nat} {s : String} {node : Node}
      (hfront : t.Opens links place front mid left) (hname : IsName s)
      (hshort : ¬ nameLimit < s.utf8ByteSize) (hat : t.at? (mid ++ [s]) = some node) :
      Finds t links place (front ++ [s]) (mid ++ [s]) node

/-- From the directory at a place the walk along the segments breaks off. -/
inductive Breaks (t : FileTree) : Nat → Place → List String → Trouble → Prop where
  | long {links left : Nat} {place mid : Place} {front rest : List String} {s : String}
      (hfront : t.Opens links place front mid left) (hname : IsName s)
      (hlong : nameLimit < s.utf8ByteSize) : Breaks t links place (front ++ s :: rest) .nameTooLong
  | missing {links left : Nat} {place mid : Place} {front rest : List String} {s : String}
      (hfront : t.Opens links place front mid left) (hname : IsName s)
      (hshort : ¬ nameLimit < s.utf8ByteSize) (hat : t.at? (mid ++ [s]) = none) :
      Breaks t links place (front ++ s :: rest) .notFound
  | file {links left : Nat} {place mid : Place} {front rest : List String} {s : String}
      {content : Bytes} (hfront : t.Opens links place front mid left) (hname : IsName s)
      (hshort : ¬ nameLimit < s.utf8ByteSize) (hat : t.at? (mid ++ [s]) = some (.file content))
      (hrest : rest ≠ []) : Breaks t links place (front ++ s :: rest) .notDirectory
  | spent {links : Nat} {place mid : Place} {front rest : List String} {s : String} {target : Path}
      (hfront : t.Opens links place front mid 0) (hname : IsName s)
      (hshort : ¬ nameLimit < s.utf8ByteSize) (hat : t.at? (mid ++ [s]) = some (.link target))
      (hrest : rest ≠ []) : Breaks t links place (front ++ s :: rest) .tooManyLinks
  | link {links left : Nat} {place mid : Place} {front rest : List String} {s : String}
      {target : Path} {trouble : Trouble} (hfront : t.Opens links place front mid (left + 1))
      (hname : IsName s) (hshort : ¬ nameLimit < s.utf8ByteSize)
      (hat : t.at? (mid ++ [s]) = some (.link target)) (hrest : rest ≠ [])
      (hbehind : Breaks t left (target.start mid) (target.segments ++ rest) trouble) :
      Breaks t links place (front ++ s :: rest) trouble

def lookupFrom (t : FileTree) (links : Nat) (place : Place) (segments : List String) :
    Except Trouble (Place × Node) :=
  match t.resolveFrom false links place segments with
  | .ok (.found place node _) => .ok (place, node)
  | .ok (.vacant ..) => .error .notFound
  | .error trouble => .error trouble

private theorem Finds.opens (h : t.Finds links place (front ++ s :: rest) q node) :
    ∃ mid left, t.Opens links place front mid left := by
  have hsplit : ∀ {fore : List String} {last : String} {mid : Place} {left : Nat},
      t.Opens links place fore mid left → front ++ s :: rest = fore ++ [last] →
      ∃ mid left, t.Opens links place front mid left := by
    intro fore last mid left hfore hsegments
    have hdrop := congrArg List.dropLast hsegments
    rw [List.dropLast_append_cons, List.dropLast_concat] at hdrop
    rw [← hdrop] at hfore
    obtain ⟨between, more, hfront, -⟩ := hfore.split
    exact ⟨between, more, hfront⟩
  generalize hsegments : front ++ s :: rest = segments at h
  cases h with
  | here => cases front <;> cases hsegments
  | step hfront => exact hsplit hfront hsegments
  | entry hfront => exact hsplit hfront hsegments

/-- Segments find something, or the walk along them breaks off. -/
theorem finds_or_breaks (t : FileTree) (links : Nat) (place : Place) (segments : List String) :
    (∃ q node, t.Finds links place segments q node) ∨
      ∃ trouble, t.Breaks links place segments trouble := by
  induction links using Nat.strongRecOn generalizing place segments with
  | ind links ih =>
    -- the last segment may be a link, which only the walk before it has to pass
    rcases segments.eq_nil_or_concat' with rfl | ⟨front, last, rfl⟩
    · exact .inl ⟨place, .directory, .here⟩
    · rcases opens_or_stops t links place front with ⟨mid, left, hfront⟩ |
        ⟨fore, s, rest, mid, left, rfl, hfore, hstop⟩
      · by_cases hname : IsName last
        · by_cases hlong : nameLimit < last.utf8ByteSize
          · exact .inr ⟨_, .long hfront hname hlong⟩
          · cases hat : t.at? (mid ++ [last]) with
            | none => exact .inr ⟨_, .missing hfront hname hlong hat⟩
            | some node => exact .inl ⟨_, _, .entry hfront hname hlong hat⟩
        · exact .inl ⟨_, _, .step hfront hname⟩
      · have hrest : rest ++ [last] ≠ [] := List.append_ne_nil_of_right_ne_nil rest (by simp)
        rw [List.append_assoc, List.cons_append]
        refine .inr ?_
        cases hstop with
        | long hname hlong => exact ⟨_, .long hfore hname hlong⟩
        | missing hname hshort hat => exact ⟨_, .missing hfore hname hshort hat⟩
        | file hname hshort hat => exact ⟨_, .file hfore hname hshort hat hrest⟩
        | @link target hname hshort hat hclosed =>
          cases left with
          | zero => exact ⟨_, .spent hfore hname hshort hat hrest⟩
          | succ left =>
            have hlt : left < links := hfore.left_le
            rcases ih left hlt (target.start mid) (target.segments ++ (rest ++ [last])) with
              ⟨q, node, hfinds⟩ | ⟨trouble, hbehind⟩
            · obtain ⟨next, more, hmore⟩ := List.exists_cons_of_ne_nil hrest
              rw [hmore] at hfinds
              obtain ⟨mid', left', hopen⟩ := hfinds.opens
              exact absurd hopen (hclosed rfl)
            · exact ⟨trouble, .link hfore hname hshort hat hrest hbehind⟩

theorem Finds.lookupFrom_eq (h : t.Finds links place segments q node) :
    t.lookupFrom links place segments = .ok (q, node) := by
  cases h with
  | here =>
    rw [lookupFrom, resolveFrom_nil]
  | @step front mid left s hfront hstep =>
    rw [lookupFrom, hfront.resolveFrom_append_of rfl, Path.step]
    split_ifs with hvoid hparent
    · rw [resolveFrom_void hvoid, resolveFrom_nil]
    · rw [hparent, resolveFrom_parent, resolveFrom_nil]
    · exact absurd ⟨Bool.eq_false_iff.mpr hvoid, hparent⟩ hstep
  | entry hfront hname hshort hat =>
    rw [lookupFrom, hfront.resolveFrom_append_of rfl]
    cases node with
    | directory => rw [resolveFrom_directory hname hshort hat, resolveFrom_nil]
    | file content => rw [resolveFrom_file hname hshort hat, if_pos rfl]
    | link target => rw [resolveFrom_link_end hname hshort hat]

theorem Breaks.lookupFrom_eq (h : t.Breaks links place segments trouble) :
    t.lookupFrom links place segments = .error trouble := by
  induction h with
  | long hfront hname hlong =>
    rw [lookupFrom, hfront.resolveFrom_append_of rfl, resolveFrom_long hname hlong]
  | missing hfront hname hshort hat =>
    rw [lookupFrom, hfront.resolveFrom_append_of rfl, resolveFrom_missing hname hshort hat]
    split_ifs <;> rfl
  | file hfront hname hshort hat hrest =>
    rw [lookupFrom, hfront.resolveFrom_append_of rfl, resolveFrom_file hname hshort hat,
      if_neg hrest]
  | spent hfront hname hshort hat hrest =>
    have hfollow := List.isEmpty_eq_false_iff.mpr hrest
    rw [lookupFrom, hfront.resolveFrom_append_of rfl,
      resolveFrom_link_zero hname hshort hat (by rw [hfollow, Bool.false_and])]
  | link hfront hname hshort hat hrest _ ih =>
    have hfollow := List.isEmpty_eq_false_iff.mpr hrest
    rw [lookupFrom, hfront.resolveFrom_append_of rfl,
      resolveFrom_link_succ hname hshort hat (by rw [hfollow, Bool.false_and])]
    exact ih

private theorem lookupFrom_ok_iff :
    t.lookupFrom links place segments = .ok (q, node) ↔ t.Finds links place segments q node := by
  refine ⟨fun h => ?_, Finds.lookupFrom_eq⟩
  rcases finds_or_breaks t links place segments with ⟨q', node', hfinds⟩ | ⟨trouble, hbreaks⟩
  · cases hfinds.lookupFrom_eq.symm.trans h
    exact hfinds
  · cases hbreaks.lookupFrom_eq.symm.trans h

theorem lookupFrom_error_iff :
    t.lookupFrom links place segments = .error trouble ↔
      t.Breaks links place segments trouble := by
  refine ⟨fun h => ?_, Breaks.lookupFrom_eq⟩
  rcases finds_or_breaks t links place segments with ⟨q', node', hfinds⟩ | ⟨trouble, hbreaks⟩
  · cases hfinds.lookupFrom_eq.symm.trans h
  · cases hbreaks.lookupFrom_eq.symm.trans h
    exact hbreaks

def FindsFile (t : FileTree) (links : Nat) (place : Place) (segments : List String) : Prop :=
  ∃ q content, t.Finds links place segments q (.file content)

def isFileFound : Except Trouble (Place × Node) → Bool
  | .ok (_, .file _) => true
  | _ => false

private theorem isFileFound_iff :
    isFileFound (t.lookupFrom links place segments) = true ↔ t.FindsFile links place segments := by
  constructor
  · intro h
    cases hlookup : t.lookupFrom links place segments with
    | error trouble =>
      rw [hlookup] at h
      cases h
    | ok found =>
      obtain ⟨q, node⟩ := found
      rw [hlookup] at h
      cases node with
      | file content => exact ⟨q, content, lookupFrom_ok_iff.mp hlookup⟩
      | directory | link target => cases h
  · rintro ⟨q, content, hfinds⟩
    rw [hfinds.lookupFrom_eq]
    rfl

instance (t : FileTree) (links : Nat) (place : Place) (segments : List String) :
    Decidable (t.FindsFile links place segments) :=
  decidable_of_iff _ isFileFound_iff

section Below

private theorem start_join (hroot : root.isEmpty = false) (hp : p.isAbsolute = false)
    (hne : p.segments ≠ []) : (root.join p).start cwd = root.start cwd := by
  rw [Path.start, Path.start, Path.isAbsolute_join hroot hp hne]

theorem Opens.lookupIn_join (hroot : root.isEmpty = false) (hsound : isSound root = true)
    (hp : p.isAbsolute = false) (hne : p.segments ≠ [])
    (h : t.Opens linkLimit (root.start cwd) root.segments base left) :
    t.lookupIn cwd false (root.join p) =
      if isSound p = false then .error .badCharacter
      else if isOverlong (root.join p) = true then .error .nameTooLong
      else t.lookupFrom left base p.segments := by
  obtain ⟨front, slash, hsegments, hslash, -, hjoin⟩ := Path.segments_join hroot hp
  have hvoid := Path.isVoid_of_slash hslash
  rw [hsegments] at h
  obtain ⟨mid, less, hfront, hback⟩ := h.split
  obtain ⟨rfl, rfl⟩ := hback.unique (.of_void hvoid less mid)
  have hsame : isSound (root.join p) = isSound p := by
    rw [isSound, hsegments, List.all_append, Bool.and_eq_true] at hsound
    rw [isSound, hjoin, List.all_append, hsound.1, Bool.true_and, isSound]
  have hmore : (p.segments.isEmpty && !false) = false := by
    rw [List.isEmpty_eq_false_iff.mpr hne, Bool.false_and]
  rw [lookupIn, resolveIn, hsame, Path.isEmpty_join hroot hp hne, start_join hroot hp hne, hjoin,
    hfront.resolveFrom_append_of hmore, lookupFrom]
  cases isSound p with
  | false => rfl
  | true =>
    cases isOverlong (root.join p) with
    | true => rfl
    | false => rfl

end Below

end FileTree

end Retarget
