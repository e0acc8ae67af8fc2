import Retarget.Proofs.Files.Findings
import Retarget.Proofs.Pass.Choosing

/-!
What a plan does about recorded changes whose paths are names below the input.
Of the files marked as added or changed those that are there are processed or
counted, and those that are gone need nothing. But gone means that the walk to
the file comes to a name that nothing has. Where a file has taken the place of a
directory on the way, or the walk breaks off for another reason, the file is
gone as well and yet the plan is not made.
-/

set_option autoImplicit false

namespace Retarget

namespace FileTree

variable {t : FileTree} {root p : Path} {links : Nat} {base q : Place} {node : Node}

/-- Nothing is where a path below a root leads: the walk from the directory at the root comes to a
name that nothing has. -/
def Gone (t : FileTree) (root : Path) (links : Nat) (base : Place) (p : Path) : Prop :=
  isSound p = true ∧ isOverlong (root.join p) = false ∧ t.Breaks links base p.segments .notFound

/-- A path below a root leads to nothing, for another reason than that nothing is there: it is no
path to look for, or the walk from the directory at the root breaks off. -/
def Blocked (t : FileTree) (root : Path) (links : Nat) (base : Place) (p : Path) : Prop :=
  isSound p = false ∨ isOverlong (root.join p) = true ∨
    ∃ trouble, trouble ≠ .notFound ∧ t.Breaks links base p.segments trouble

private theorem Gone.not_blocked (h : t.Gone root links base p) :
    ¬ t.Blocked root links base p := by
  obtain ⟨hsound, hlong, hgone⟩ := h
  rintro (hunsound | hoverlong | ⟨trouble, hne, hbreaks⟩)
  · cases hsound.symm.trans hunsound
  · cases hlong.symm.trans hoverlong
  · cases hgone.lookupFrom_eq.symm.trans hbreaks.lookupFrom_eq
    exact hne rfl

private theorem Finds.not_blocked (h : t.Finds links base p.segments q node)
    (hsound : isSound p = true)
    (hlong : isOverlong (root.join p) = false) : ¬ t.Blocked root links base p := by
  rintro (hunsound | hoverlong | ⟨trouble, -, hbreaks⟩)
  · cases hsound.symm.trans hunsound
  · cases hlong.symm.trans hoverlong
  · cases h.lookupFrom_eq.symm.trans hbreaks.lookupFrom_eq

def isBrokenOff : Except Trouble (Place × Node) → Bool
  | .error trouble => trouble ≠ .notFound
  | .ok _ => false

private theorem blocked_iff : t.Blocked root links base p ↔ isSound p = false ∨
    isOverlong (root.join p) = true ∨ isBrokenOff (t.lookupFrom links base p.segments) = true := by
  refine or_congr_right (or_congr_right ⟨?_, fun h => ?_⟩)
  · rintro ⟨trouble, hne, hbreaks⟩
    rw [hbreaks.lookupFrom_eq]
    exact decide_eq_true hne
  · cases hlookup : t.lookupFrom links base p.segments with
    | ok found =>
      rw [hlookup] at h
      cases h
    | error trouble =>
      rw [hlookup] at h
      exact ⟨trouble, of_decide_eq_true h, lookupFrom_error_iff.mp hlookup⟩

instance (t : FileTree) (root : Path) (links : Nat) (base : Place) (p : Path) :
    Decidable (t.Blocked root links base p) :=
  decidable_of_iff _ blocked_iff.symm

end FileTree

namespace Plan

open FileTree

variable {t : FileTree} {cwd base : Place} {root path : Path} {left : Nat} {changes : Changes}
  {plan : Plan} {change : Path × FileChange} {status : FileChange} {choice : Choice}
  {fault : Fault} {answer : Except Fault Choice}

def ofNode (path : Path) : Node → Choice
  | .file _ => .ofFile path
  | .link _ => .warn
  | .directory => .pass

/-- The answer to a recorded change whose path is relative to the root, which is open and from
where `left` more links can be followed. -/
inductive Answers (t : FileTree) (root : Path) (left : Nat) (base : Place) :
    Path × FileChange → Except Fault Choice → Prop where
  | empty {path : Path} {status : FileChange} (hpath : path.isEmpty = true) :
      Answers t root left base (path, status) (.error (.configuration (.noFile path root)))
  | removed {path : Path} (hpath : path.isEmpty = false) :
      Answers t root left base (path, .removed) (.ok (.delete path))
  | unchanged {path : Path} (hpath : path.isEmpty = false) :
      Answers t root left base (path, .unchanged) (.ok .pass)
  | blocked {path : Path} {status : FileChange} (hpath : path.isEmpty = false)
      (hstatus : status.isUpdate = true) (hblocked : t.Blocked root left base path) :
      Answers t root left base (path, status) (.error (.io (root.join path)))
  | gone {path : Path} {status : FileChange} (hpath : path.isEmpty = false)
      (hstatus : status.isUpdate = true) (hgone : t.Gone root left base path) :
      Answers t root left base (path, status) (.ok .pass)
  | found {path : Path} {status : FileChange} {q : Place} {node : Node}
      (hpath : path.isEmpty = false) (hstatus : status.isUpdate = true)
      (hfree : ¬ t.Blocked root left base path)
      (hfinds : t.Finds left base path.segments q node) :
      Answers t root left base (path, status) (.ok (ofNode path node))

private theorem answers_update (hpath : path.isEmpty = false) (hstatus : status.isUpdate = true) :
    Answers t root left base (path, status) (ofFound path (root.join path)
      (if isSound path = false then .error .badCharacter
      else if isOverlong (root.join path) = true then .error .nameTooLong
      else t.lookupFrom left base path.segments)) := by
  split_ifs with hsound hlong
  · exact .blocked hpath hstatus (.inl hsound)
  · exact .blocked hpath hstatus (.inr (.inl hlong))
  · rw [Bool.not_eq_false] at hsound
    rw [Bool.not_eq_true] at hlong
    rcases finds_or_breaks t left base path.segments with ⟨q, node, hfinds⟩ | ⟨trouble, hbreaks⟩
    · rw [hfinds.lookupFrom_eq]
      have hfound := Answers.found hpath hstatus (hfinds.not_blocked hsound hlong) hfinds
      cases node <;> exact hfound
    · rw [hbreaks.lookupFrom_eq]
      by_cases hgone : trouble = .notFound
      · subst hgone
        exact .gone hpath hstatus ⟨hsound, hlong, hbreaks⟩
      · have hblocked : t.Blocked root left base path := .inr (.inr ⟨trouble, hgone, hbreaks⟩)
        have hfails := Answers.blocked hpath hstatus hblocked
        cases trouble with
        | notFound => exact absurd rfl hgone
        | _ => exact hfails

theorem answers_ofChangeIn (hroot : root.isEmpty = false) (hsound : isSound root = true)
    (hopen : t.Opens linkLimit (root.start cwd) root.segments base left)
    (hnormal : change.1.components.all Component.isNormal = true) :
    Answers t root left base change (ofChangeIn t cwd root change) := by
  obtain ⟨path, status⟩ := change
  rw [ofChangeIn, relative_of_normal hnormal]
  cases hpath : path.isEmpty with
  | true => exact .empty hpath
  | false =>
    have hinner : path.Inner := Path.inner_of_components hpath hnormal
    have hlookup := hopen.lookupIn_join hroot hsound hinner.relative hinner.segments_ne_nil
    have hupdate : ∀ status : FileChange, status.isUpdate = true → Answers t root left base
        (path, status) (ofFound path (root.join path) (t.lookupIn cwd false (root.join path))) := by
      intro status hstatus
      rw [hlookup]
      exact answers_update hpath hstatus
    cases status with
    | removed => exact .removed hpath
    | unchanged => exact .unchanged hpath
    | added => exact hupdate .added rfl
    | changed => exact hupdate .changed rfl

/-- The change is that a file was added or changed, and the file is there. -/
def Picks (t : FileTree) (left : Nat) (base : Place) (change : Path × FileChange) : Prop :=
  change.2.isUpdate = true ∧ t.FindsFile left base change.1.segments

instance (t : FileTree) (left : Nat) (base : Place) (change : Path × FileChange) :
    Decidable (Picks t left base change) :=
  inferInstanceAs (Decidable (_ ∧ _))

private theorem Answers.ok_iff (h : Answers t root left base change answer) :
    (∃ choice, answer = .ok choice) ↔ change.1.isEmpty = false ∧
      (change.2.isUpdate = true → ¬ t.Blocked root left base change.1) := by
  cases h with
  | empty hpath =>
    refine ⟨?_, fun hok => ?_⟩
    · rintro ⟨choice, hchoice⟩
      cases hchoice
    · cases hok.1.symm.trans hpath
  | removed hpath | unchanged hpath => exact ⟨fun _ => ⟨hpath, Bool.noConfusion⟩, fun _ => ⟨_, rfl⟩⟩
  | blocked hpath hstatus hblocked =>
    refine ⟨?_, fun hok => absurd hblocked (hok.2 hstatus)⟩
    rintro ⟨choice, hchoice⟩
    cases hchoice
  | gone hpath hstatus hgone => exact ⟨fun _ => ⟨hpath, fun _ => hgone.not_blocked⟩, fun _ => ⟨_, rfl⟩⟩
  | found hpath hstatus hfree => exact ⟨fun _ => ⟨hpath, fun _ => hfree⟩, fun _ => ⟨_, rfl⟩⟩

private theorem Answers.error (h : Answers t root left base change (.error fault)) :
    change.1.isEmpty = true ∧ fault = .configuration (.noFile change.1 root) ∨
      change.2.isUpdate = true ∧ t.Blocked root left base change.1 ∧
        fault = .io (root.join change.1) := by
  cases h with
  | empty hpath => exact .inl ⟨hpath, rfl⟩
  | blocked hpath hstatus hblocked => exact .inr ⟨hstatus, hblocked, rfl⟩

theorem Answers.of_blocked (h : Answers t root left base change answer)
    (hpath : change.1.isEmpty = false) (hstatus : change.2.isUpdate = true)
    (hblocked : t.Blocked root left base change.1) :
    answer = .error (.io (root.join change.1)) := by
  cases h with
  | empty hempty => cases hpath.symm.trans hempty
  | removed | unchanged => cases hstatus
  | blocked => rfl
  | gone _ _ hgone => exact absurd hblocked hgone.not_blocked
  | found _ _ hfree => exact absurd hblocked hfree

private theorem Answers.of_gone (h : Answers t root left base change answer)
    (hpath : change.1.isEmpty = false) (hstatus : change.2.isUpdate = true)
    (hgone : t.Gone root left base change.1) : answer = .ok .pass := by
  cases h with
  | empty hempty => cases hpath.symm.trans hempty
  | removed => cases hstatus
  | unchanged | gone => rfl
  | blocked _ _ hblocked => exact absurd hblocked hgone.not_blocked
  | found _ _ _ hfinds => cases hgone.2.2.lookupFrom_eq.symm.trans hfinds.lookupFrom_eq

private theorem picks_iff_of_finds {q : Place} {node : Node} (hstatus : status.isUpdate = true)
    (h : t.Finds left base path.segments q node) :
    Picks t left base (path, status) ↔ ∃ content, node = .file content := by
  rw [Picks, and_iff_right hstatus]
  constructor
  · rintro ⟨q', content, hfile⟩
    cases h.lookupFrom_eq.symm.trans hfile.lookupFrom_eq
    exact ⟨content, rfl⟩
  · rintro ⟨content, rfl⟩
    exact ⟨q, content, h⟩

private theorem not_picks_of_gone (h : t.Gone root left base path) :
    ¬ Picks t left base (path, status) := by
  rintro ⟨-, q, content, hfile⟩
  cases h.2.2.lookupFrom_eq.symm.trans hfile.lookupFrom_eq

private theorem Answers.parts (h : Answers t root left base change (.ok choice)) :
    choice.process? = (if Picks t left base change ∧ change.1.hasClassExtension = true then
      some change.1 else none) ∧
    choice.delete? = (if change.2 = .removed then some change.1 else none) ∧
    (choice = .ignore ↔ Picks t left base change ∧ change.1.hasClassExtension = false) := by
  cases h with
  | removed hpath => simp [Choice.process?, Choice.delete?, Picks, FileChange.isUpdate]
  | unchanged hpath => simp [Choice.process?, Choice.delete?, Picks, FileChange.isUpdate]
  | @gone path status hpath hstatus hgone =>
    have hremoved : status ≠ .removed := by
      rintro rfl
      cases hstatus
    simp [Choice.process?, Choice.delete?, not_picks_of_gone hgone, hremoved]
  | @found path status q node hpath hstatus hfree hfinds =>
    have hremoved : status ≠ .removed := by
      rintro rfl
      cases hstatus
    have hpicks := picks_iff_of_finds hstatus hfinds
    cases node with
    | directory => simp [ofNode, Choice.process?, Choice.delete?, hpicks, hremoved]
    | link target => simp [ofNode, Choice.process?, Choice.delete?, hpicks, hremoved]
    | file content =>
      cases hclass : path.hasClassExtension <;>
        simp [ofNode, Choice.ofFile, Choice.process?, Choice.delete?, hpicks, hremoved, hclass]

/-- A plan for changes whose paths are names below the input. It is made unless a path is empty,
which names no file, or leads to nothing for another reason than that nothing is there. It has, in
the order of the changes, the class files among the files that were added or changed and are there;
it counts the others, and it has the paths marked as removed. A file that is gone needs nothing. -/
theorem selects_what_is_there (hroot : t.lookupIn cwd true root = .ok (base, .directory))
    (hsome : changes.isEmpty = false)
    (hnormal : ∀ change ∈ changes.toList, change.1.components.all Component.isNormal = true) :
    ∃ left, t.Opens linkLimit (root.start cwd) root.segments base left ∧
      ((∃ plan, makeIn t cwd root changes = .ok plan) ↔ ∀ change ∈ changes.toList,
        change.1.isEmpty = false ∧
          (change.2.isUpdate = true → ¬ t.Blocked root left base change.1)) ∧
      (∀ plan, makeIn t cwd root changes = .ok plan → plan.fullRebuild = false ∧
        plan.classes = (changes.toList.filter fun change =>
          Picks t left base change ∧ change.1.hasClassExtension = true).map Prod.fst ∧
        plan.ignored = changes.toList.countP (fun change =>
          Picks t left base change ∧ change.1.hasClassExtension = false) ∧
        plan.removed = (changes.toList.filter fun change => change.2 = .removed).map Prod.fst) ∧
      (∀ change ∈ changes.toList, change.1.isEmpty = false → change.2.isUpdate = true →
        t.Gone root left base change.1 → ofChangeIn t cwd root change = .ok .pass) ∧
      ∀ fault, makeIn t cwd root changes = .error fault → ∃ change ∈ changes.toList,
        change.1.isEmpty = true ∧ fault = .configuration (.noFile change.1 root) ∨
          change.2.isUpdate = true ∧ t.Blocked root left base change.1 ∧
            fault = .io (root.join change.1) := by
  obtain ⟨⟨hsound, -⟩, hempty, left, hmakes⟩ := makes_of_lookupIn hroot
  have hopen := hmakes.opens
  have hanswers : ∀ change ∈ changes.toList,
      Answers t root left base change (ofChangeIn t cwd root change) :=
    fun change hmem => answers_ofChangeIn hempty hsound hopen (hnormal change hmem)
  refine ⟨left, hopen, ?_, fun plan hplan => ?_, fun change hmem hpath hstatus hgone => ?_,
    fun fault hfault => ?_⟩
  · rw [exists_makeIn_iff hsome]
    exact forall₂_congr fun change hmem => (hanswers change hmem).ok_iff
  · obtain ⟨hfull, hchoices⟩ := choices_of_makeIn hsome hplan
    have hparts : ∀ change ∈ changes.toList, ∀ choice, ofChangeIn t cwd root change = .ok choice →
        Answers t root left base change (.ok choice) := by
      intro change hmem choice hchoice
      rw [← hchoice]
      exact hanswers change hmem
    refine ⟨hfull, ?_, ?_, ?_⟩
    · rw [← filterMap_if]
      exact filterMap_of_mem_mapM hchoices fun change hmem choice hchoice =>
        (hparts change hmem choice hchoice).parts.1
    · refine countP_of_mem_mapM hchoices fun change hmem choice hchoice => ?_
      rw [Bool.eq_iff_iff, beq_iff_eq, decide_eq_true_iff]
      exact (hparts change hmem choice hchoice).parts.2.2
    · rw [← filterMap_if]
      exact filterMap_of_mem_mapM hchoices fun change hmem choice hchoice =>
        (hparts change hmem choice hchoice).parts.2.1
  · exact (hanswers change hmem).of_gone hpath hstatus hgone
  · obtain ⟨change, hmem, hchange⟩ := error_of_makeIn hsome hfault
    have hanswer := hanswers change hmem
    rw [hchange] at hanswer
    exact ⟨change, hmem, hanswer.error⟩

section Sample

def vanishedSample : FileTree :=
  ((((FileTree.empty.set ["w"] .directory).set ["w", "in"] .directory).set
    ["w", "in", "A.class"] (.file [])).set ["w", "in", "b.txt"] (.file [])).set
    ["w", "in", "old"] (.file [])

def vanishedChanges : Changes :=
  .ofList [(⟨["A.class"]⟩, .changed), (⟨["b.txt"]⟩, .added), (⟨["gone", "B.class"]⟩, .changed),
    (⟨["C.class"]⟩, .removed)]

def blockedChanges : Changes := vanishedChanges.insert ⟨["old", "D.class"]⟩ .changed

/-- The class that is gone with its directory is passed over. One whose directory has become a file
is gone as well, and keeps the plan from being made. -/
theorem selects_vanishedSample :
    (∃ plan, makeIn vanishedSample ["w"] ⟨["in"]⟩ vanishedChanges = .ok plan ∧
      plan.classes = [⟨["A.class"]⟩] ∧ plan.ignored = 1 ∧ plan.removed = [⟨["C.class"]⟩]) ∧
    ¬ ∃ plan, makeIn vanishedSample ["w"] ⟨["in"]⟩ blockedChanges = .ok plan := by
  have hroot : vanishedSample.lookupIn ["w"] true ⟨["in"]⟩ = .ok (["w", "in"], .directory) := by
    decide +kernel
  have hleft : vanishedSample.Opens linkLimit (Path.start ⟨["in"]⟩ ["w"]) ["in"] ["w", "in"] 40 :=
    opens_of_resolveFrom (by decide +kernel)
  refine ⟨?_, fun hmade => ?_⟩
  · have hsome : vanishedChanges.isEmpty = false := by decide +kernel
    obtain ⟨left, hopen, hsucceeds, hplan, -⟩ :=
      selects_what_is_there hroot hsome (by decide +kernel)
    obtain ⟨-, rfl⟩ := hleft.unique hopen
    obtain ⟨plan, hmake⟩ := hsucceeds.mpr (by decide +kernel)
    obtain ⟨-, hclasses, hignored, hremoved⟩ := hplan plan hmake
    exact ⟨plan, hmake, hclasses.trans (by decide +kernel), hignored.trans (by decide +kernel),
      hremoved.trans (by decide +kernel)⟩
  · have hsome : blockedChanges.isEmpty = false := by decide +kernel
    obtain ⟨left, hopen, hsucceeds, -⟩ := selects_what_is_there hroot hsome (by decide +kernel)
    obtain ⟨-, rfl⟩ := hleft.unique hopen
    exact absurd (hsucceeds.mp hmade) (by decide +kernel)

end Sample

end Plan

end Retarget
