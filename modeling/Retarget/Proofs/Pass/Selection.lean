import Retarget.Pass.Plan
import Retarget.Proofs.Files.Effect
import Retarget.Proofs.Pass.Choosing
import Retarget.Proofs.Pass.Names

/-!
What a plan selects, told as places below the input. Without changes these are
the class files; with changes, the class files marked as added or changed are to
be processed and what is marked as removed is to be deleted, and nothing else.
-/

set_option autoImplicit false

namespace Retarget

open Retarget.Path (IsName)

namespace Pass

variable {t : FileTree} {input output : Path} {names : Place} {content : Bytes}

/-- A tree of files and directories with the input in it. The names of its directories and the
stems of its class files hold no dot, and of the two roots none lies inside the other. -/
structure Laid (t : FileTree) (input output : Path) : Prop where
  plain : t.Plain
  found : t.lookup true input = .ok (input.place, .directory)
  apart : ¬ input.place <+: output.place ∧ ¬ output.place <+: input.place
  slash : ∀ {names : Place} {name : String} {node : Node},
    t.at? (input.place ++ names ++ [name]) = some node → '/' ∉ name.toList
  directory : ∀ {names : Place} {name : String},
    t.at? (input.place ++ names ++ [name]) = some .directory → '.' ∉ name.toList
  stem : ∀ {names : Place} {stem : String} {content : Bytes},
    t.at? (input.place ++ names ++ [stem ++ ".class"]) = some (.file content) → '.' ∉ stem.toList

def isTidy (input : Place) : Place × Node → Bool
  | (q, node) => !input.isPrefixOf q.dropLast ||
      (!(q.getLastD "").toList.contains '/' &&
        (q.getLastD "").toList.count '.' ≤ if node = .directory then 0 else 1)

theorem Laid.of_all (hplain : t.nodes.toList.all t.isSettled = true)
    (hfound : t.lookup true input = .ok (input.place, .directory))
    (hapart : ¬ input.place <+: output.place ∧ ¬ output.place <+: input.place)
    (htidy : t.nodes.toList.all (isTidy input.place) = true) : Laid t input output := by
  have hnode : ∀ {names : Place} {name : String} {node : Node},
      t.at? (input.place ++ names ++ [name]) = some node →
      '/' ∉ name.toList ∧ name.toList.count '.' ≤ if node = .directory then 0 else 1 := by
    intro names name node hat
    have hok := List.all_eq_true.mp htidy _ (FileTree.mem_toList_of_at? (by simp) hat)
    have hbelow : input.place.isPrefixOf (input.place ++ names) = true :=
      List.isPrefixOf_iff_prefix.mpr (List.prefix_append _ _)
    simpa [isTidy, hbelow] using hok
  refine ⟨.of_all hplain, hfound, hapart, fun hat => (hnode hat).1, fun hat => ?_, fun hat => ?_⟩
  · have hcount := (hnode hat).2
    rw [if_pos rfl, Nat.le_zero] at hcount
    exact List.count_eq_zero.mp hcount
  · have hcount := (hnode hat).2
    rw [if_neg Node.noConfusion, String.toList_append, List.count_append] at hcount
    have hone : ".class".toList.count '.' = 1 := by decide
    exact List.count_eq_zero.mp (by omega)

def classAt? (t : FileTree) (input : Path) (names : Place) : Option Bytes :=
  if (⟨names⟩ : Path).hasClassExtension then t.fileAt? (input.place ++ names) else none

theorem classAt?_eq_some_iff : classAt? t input names = some content ↔
    (⟨names⟩ : Path).hasClassExtension = true ∧
      t.at? (input.place ++ names) = some (.file content) := by
  rw [classAt?]
  split_ifs with hclass
  · rw [FileTree.fileAt?_eq_some_iff, and_iff_right hclass]
  · simp [hclass]

theorem ne_nil_of_hasClassExtension (h : (⟨names⟩ : Path).hasClassExtension = true) :
    names ≠ [] := by
  rintro rfl
  cases h

namespace Laid

theorem isEmpty_input (h : Laid t input output) : input.isEmpty = false :=
  (FileTree.fromRoot_of_lookup h.found).2.1

theorem isName_of_classAt? (h : Laid t input output) (hclass : classAt? t input names = some content) :
    ∀ name ∈ names, IsName name :=
  h.plain.isName_of_mem (classAt?_eq_some_iff.mp hclass).2

theorem pathOf_binaryName (h : Laid t input output) (hclass : classAt? t input names = some content)
    (root : Path) : ClassPath.pathOf root (⟨names⟩ : Path).binaryName = root.join ⟨names⟩ := by
  have hnames := h.isName_of_classAt? hclass
  obtain ⟨hextension, hfile⟩ := classAt?_eq_some_iff.mp hclass
  refine ClassPath.pathOf_binaryName root hnames hextension (fun name hname => ?_)
    (fun name hname => ?_) (fun stem hstem => ?_)
  · obtain ⟨front, back, rfl⟩ := List.append_of_mem hname
    cases hnode : t.at? (input.place ++ front ++ [name]) with
    | some node => exact h.slash hnode
    | none =>
      have hnone := h.plain.none_below hnode back
      rw [List.append_assoc, List.append_assoc, List.singleton_append, hfile] at hnone
      cases hnone
  · obtain ⟨front, back, hfront⟩ := List.append_of_mem hname
    have hwhole : names = front ++ [name] ++ (back ++ [names.getLast (List.ne_nil_of_mem
        (List.dropLast_subset _ hname))]) := by
      rw [← List.append_assoc, List.append_assoc front, List.singleton_append, ← hfront,
        List.dropLast_concat_getLast]
    cases hback : back ++ [names.getLast (List.ne_nil_of_mem
        (List.dropLast_subset _ hname))] with
    | nil => exact absurd hback (by simp)
    | cons next rest =>
      rw [hback] at hwhole
      rw [hwhole, ← List.append_assoc, ← List.append_assoc] at hfile
      exact h.directory (h.plain.directory_of_below hfile)
  · have hwhole : names = names.dropLast ++ [stem ++ ".class"] :=
      (List.dropLast_append_getLast? _ hstem).symm
    rw [hwhole, ← List.append_assoc] at hfile
    exact h.stem hfile

end Laid

/-- The changes hold an entry of that status for the file at a place below the input. Its path
may start at the root or at the input. -/
def Marks (changes : Changes) (input : Path) (names : Place) (status : FileChange) : Prop :=
  ∃ change ∈ changes.toList, change.2 = status ∧
    (input.join change.1).place = input.place ++ names

instance (changes : Changes) (input : Path) (names : Place) (status : FileChange) :
    Decidable (Marks changes input names status) :=
  inferInstanceAs (Decidable (∃ change ∈ changes.toList, change.2 = status ∧
    (input.join change.1).place = input.place ++ names))

theorem relative_ok {path rest : Path} (hinput : input.isEmpty = false)
    (h : Plan.relative input path = .ok rest) :
    rest.Inner ∧ (input.join path).place = input.place ++ rest.place := by
  obtain ⟨rest', hspelled, hok⟩ : ∃ rest' : Path,
      (path.isAbsolute = true ∧ input.relativeTo? path = some rest' ∨
        path.isAbsolute = false ∧ path = rest') ∧
      (if (rest'.isEmpty || !rest'.components.all Component.isNormal) = true then
        (.error (.configuration (.noFile path input)) : Except Fault Path) else .ok rest') =
          .ok rest := by
    rw [Plan.relative] at h
    cases habsolute : path.isAbsolute with
    | true =>
      rw [habsolute, if_pos rfl] at h
      cases hrelative : input.relativeTo? path with
      | none =>
        rw [hrelative] at h
        cases h
      | some rest' =>
        rw [hrelative] at h
        exact ⟨rest', .inl ⟨rfl, rfl⟩, h⟩
    | false =>
      rw [habsolute, if_neg Bool.false_ne_true] at h
      exact ⟨path, .inr ⟨rfl, rfl⟩, h⟩
  split_ifs at hok with hbad
  cases hok
  simp only [Bool.or_eq_true, Bool.not_eq_true', not_or, Bool.not_eq_true, Bool.not_eq_false]
    at hbad
  obtain ⟨hempty, hnormal⟩ := hbad
  have hinner := Path.inner_of_components hempty hnormal
  refine ⟨hinner, ?_⟩
  rcases hspelled with ⟨habsolute, hrelative⟩ | ⟨habsolute, rfl⟩
  · rw [Path.join, habsolute, Bool.true_or, if_pos rfl]
    exact Path.place_of_relativeTo? habsolute hinner hrelative
  · exact hinner.place_join hinput

namespace Laid

variable {changes : Changes} {plan : Plan} {choices : List Choice} {relative path : Path}
  {status : FileChange} {choice : Choice}

theorem mem_classes {r : Path} : r ∈ plan.classes ↔ Choice.process r ∈ plan.choices := by
  rw [Plan.classes, List.mem_filterMap]
  constructor
  · rintro ⟨choice, hmem, hchoice⟩
    cases choice <;> cases hchoice
    exact hmem
  · exact fun hmem => ⟨_, hmem, rfl⟩

theorem mem_removed {r : Path} : r ∈ plan.removed ↔ Choice.delete r ∈ plan.choices := by
  rw [Plan.removed, List.mem_filterMap]
  constructor
  · rintro ⟨choice, hmem, hchoice⟩
    cases choice <;> cases hchoice
    exact hmem
  · exact fun hmem => ⟨_, hmem, rfl⟩

theorem make_full (h : Laid t input output) (hempty : changes.isEmpty = true)
    (hplan : Plan.make t input changes = .ok plan) :
    plan.fullRebuild = true ∧ plan.removed = [] ∧
      (∀ r ∈ plan.classes, r.Inner ∧ ∃ content, classAt? t input r.place = some content) ∧
      ∀ names content, classAt? t input names = some content →
        ∃ r ∈ plan.classes, r.place = names := by
  have hfound : t.lookup false input = .ok (input.place, .directory) :=
    FileTree.lookup_mono h.plain (fun hq => hq) h.found
  obtain ⟨hchoices, hfull⟩ : plan.choices = (t.below input.place).map Plan.ofEntry ∧
      plan.fullRebuild = true := by
    obtain ⟨hfull, hchoices⟩ := Plan.ofTreeIn_of_makeIn hempty hplan
    refine ⟨?_, hfull⟩
    rw [Plan.ofTreeIn, ← FileTree.lookup, hfound] at hchoices
    simp only [Plan.ofPlace] at hchoices
    split at hchoices
    · cases hchoices
    · exact (Except.ok.inj hchoices).symm
  refine ⟨hfull, ?_, fun r hr => ?_, fun names content hclass => ?_⟩
  · refine List.eq_nil_iff_forall_not_mem.mpr fun r hr => ?_
    rw [mem_removed, hchoices, List.mem_map] at hr
    obtain ⟨⟨names, node⟩, -, hchoice⟩ := hr
    cases node with
    | file content =>
      simp only [Plan.ofEntry, Choice.ofFile] at hchoice
      split_ifs at hchoice
    | directory | link target => cases hchoice
  · rw [mem_classes, hchoices, List.mem_map] at hr
    obtain ⟨⟨names, node⟩, hmem, hchoice⟩ := hr
    obtain ⟨hne, hnode⟩ := FileTree.mem_below.mp hmem
    cases node with
    | file content =>
      simp only [Plan.ofEntry, Choice.ofFile] at hchoice
      split_ifs at hchoice with hextension
      cases hchoice
      have hclass := classAt?_eq_some_iff.mpr ⟨hextension, hnode⟩
      have hnames := h.isName_of_classAt? hclass
      exact ⟨Path.inner_of_names hnames hne, content, by rwa [Path.place_of_names hnames]⟩
    | directory | link target => cases hchoice
  · obtain ⟨hextension, hnode⟩ := classAt?_eq_some_iff.mp hclass
    refine ⟨⟨names⟩, ?_, Path.place_of_names (h.isName_of_classAt? hclass)⟩
    rw [mem_classes, hchoices, List.mem_map]
    refine ⟨(names, .file content), FileTree.mem_below.mpr
      ⟨ne_nil_of_hasClassExtension hextension, hnode⟩, ?_⟩
    rw [Plan.ofEntry, Choice.ofFile, if_pos hextension]

private theorem ofFound_ok (h : Laid t input output) (hinner : relative.Inner)
    (hchoice : Plan.ofFound relative (input.join relative) (t.lookup false (input.join relative)) =
      .ok choice) :
    (∀ r, choice ≠ .delete r) ∧ ∀ r, choice = .process r ↔
      r = relative ∧ ∃ content, classAt? t input relative.place = some content := by
  have hwhole := hinner.place_join h.isEmpty_input
  cases hlookup : t.lookup false (input.join relative) with
  | ok found =>
    obtain ⟨q, node⟩ := found
    obtain ⟨-, hnode⟩ := FileTree.at?_of_lookup h.plain hlookup
    rw [hwhole] at hnode
    rw [hlookup] at hchoice
    cases node with
    | link target => exact absurd hnode h.plain.noLink
    | directory =>
      cases hchoice
      refine ⟨fun r => Choice.noConfusion, fun r => ⟨fun hprocess => ?_, ?_⟩⟩
      · cases hprocess
      · rintro ⟨-, content, hclass⟩
        cases hnode.symm.trans (classAt?_eq_some_iff.mp hclass).2
    | file content =>
      cases hchoice
      rw [Choice.ofFile, hinner.hasClassExtension]
      refine ⟨fun r hdelete => ?_, fun r => ⟨fun hprocess => ?_, ?_⟩⟩
      · split_ifs at hdelete
      · split_ifs at hprocess with hclass
        cases hprocess
        exact ⟨rfl, content, classAt?_eq_some_iff.mpr ⟨hclass, hnode⟩⟩
      · rintro ⟨rfl, content', hclass⟩
        rw [if_pos (classAt?_eq_some_iff.mp hclass).1]
  | error trouble =>
    rw [hlookup] at hchoice
    cases trouble with
    | notFound =>
      cases hchoice
      have hnone := FileTree.none_of_lookup_join h.plain h.found hinner.relative
        hinner.segments_ne_nil hinner.noParent hlookup
      refine ⟨fun r => Choice.noConfusion, fun r => ⟨fun hprocess => ?_, ?_⟩⟩
      · cases hprocess
      · rintro ⟨-, content, hclass⟩
        rw [hwhole] at hnone
        cases hnone.symm.trans (classAt?_eq_some_iff.mp hclass).2
    | _ => cases hchoice

private theorem ofChange_ok (h : Laid t input output)
    (hchoice : Plan.ofChangeIn t [] input (path, status) = .ok choice) :
    ∃ relative : Path, relative.Inner ∧
      (input.join path).place = input.place ++ relative.place ∧
      match status with
      | .removed => choice = .delete relative
      | .unchanged => choice = .pass
      | .added | .changed => (∀ r, choice ≠ .delete r) ∧ ∀ r, choice = .process r ↔
          r = relative ∧ ∃ content, classAt? t input relative.place = some content := by
  rw [Plan.ofChangeIn] at hchoice
  obtain ⟨relative, hrelative, hchoice⟩ := bind_eq_ok_iff.mp hchoice
  obtain ⟨hinner, hplace⟩ := relative_ok h.isEmpty_input hrelative
  refine ⟨relative, hinner, hplace, ?_⟩
  cases status with
  | removed =>
    cases hchoice
    rfl
  | unchanged =>
    cases hchoice
    rfl
  | added | changed => exact h.ofFound_ok hinner hchoice

/-- A plan with changes selects what they mark: the class files marked as added or changed, and
all that is marked as removed. -/
theorem make_changes (h : Laid t input output) (hne : changes.isEmpty = false)
    (hplan : Plan.make t input changes = .ok plan) : plan.fullRebuild = false ∧
      (∀ r ∈ plan.removed, r.Inner ∧ Marks changes input r.place .removed) ∧
      (∀ names, Marks changes input names .removed → ∃ r ∈ plan.removed, r.place = names) ∧
      (∀ r ∈ plan.classes, r.Inner ∧ ∃ content, classAt? t input r.place = some content) ∧
      ∀ names content, Marks changes input names .added ∨ Marks changes input names .changed →
        classAt? t input names = some content → ∃ r ∈ plan.classes, r.place = names := by
  obtain ⟨hfull, hchoices⟩ := Plan.choices_of_makeIn hne hplan
  refine ⟨hfull, fun r hr => ?_, fun names hmark => ?_, fun r hr => ?_,
    fun names content hmark hclass => ?_⟩
  · obtain ⟨⟨path, status⟩, hmem, hchoice⟩ := (mem_iff_of_mapM hchoices).mp (mem_removed.mp hr)
    obtain ⟨relative, hinner, hplace, hstatus⟩ := h.ofChange_ok hchoice
    cases status with
    | removed =>
      cases hstatus
      exact ⟨hinner, (path, .removed), hmem, rfl, hplace⟩
    | unchanged => cases hstatus
    | added | changed => exact absurd rfl (hstatus.1 r)
  · obtain ⟨⟨path, status⟩, hmem, rfl, hplace⟩ := hmark
    obtain ⟨choice, hchoice⟩ := ok_of_mem_mapM hchoices hmem
    obtain ⟨relative, hinner, hplace', hstatus⟩ := h.ofChange_ok hchoice
    refine ⟨relative, mem_removed.mpr ?_, ?_⟩
    · exact (mem_iff_of_mapM hchoices).mpr ⟨_, hmem, hstatus ▸ hchoice⟩
    · exact List.append_cancel_left (hplace'.symm.trans hplace)
  · obtain ⟨⟨path, status⟩, hmem, hchoice⟩ := (mem_iff_of_mapM hchoices).mp (mem_classes.mp hr)
    obtain ⟨relative, hinner, hplace, hstatus⟩ := h.ofChange_ok hchoice
    cases status with
    | removed | unchanged => cases hstatus
    | added | changed =>
      obtain ⟨rfl, hclass⟩ := (hstatus.2 r).mp rfl
      exact ⟨hinner, hclass⟩
  · have hselected : ∀ status, status = .added ∨ status = .changed →
        Marks changes input names status →
        ∃ r ∈ plan.classes, r.place = names := by
      rintro _ hstatus ⟨⟨path, status⟩, hmem, rfl, hplace⟩
      obtain ⟨choice, hchoice⟩ := ok_of_mem_mapM hchoices hmem
      obtain ⟨relative, hinner, hplace', hprocess⟩ := h.ofChange_ok hchoice
      have hnames : relative.place = names := List.append_cancel_left (hplace'.symm.trans hplace)
      have hprocess' : choice = .process relative := by
        rcases hstatus with rfl | rfl
        · exact (hprocess.2 relative).mpr ⟨rfl, content, hnames ▸ hclass⟩
        · exact (hprocess.2 relative).mpr ⟨rfl, content, hnames ▸ hclass⟩
      refine ⟨relative, mem_classes.mpr ?_, hnames⟩
      exact (mem_iff_of_mapM hchoices).mpr ⟨_, hmem, hprocess' ▸ hchoice⟩
    exact hmark.elim (hselected _ (.inl rfl)) (hselected _ (.inr rfl))

end Laid

end Pass

end Retarget
