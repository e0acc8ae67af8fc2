import Retarget.Proofs.Pass.Outcome

/-!
Passes over changes add up to a pass over everything. A build starts with a pass
over everything and goes on with passes that are told what happened to the class
files since the pass before. After each pass the files below the output are the
ones a pass into an empty output would make, as long as every pass could clear
the output: it is found when the pass starts, or holds nothing that has to go.
An output path without `..` is always found when it has to be.
-/

set_option autoImplicit false

namespace Retarget.Pass

open FileTree

variable {s t u u' : FileTree} {starts : List FileTree} {input output : Path}
  {config : PassConfig} {newNames : Renaming} {changes : Changes} {answer : Report × Nat}
  {verify : Bool}

/-- Nothing has happened to a tree but below the input. -/
def Edited (t s : FileTree) (input : Path) : Prop :=
  ∀ q : Place, ¬ input.place <+: q → s.at? q = t.at? q

/-- The changes tell what happened to the class files from the first tree to the second. Further
entries do no harm, unless they mark a file that is there as removed. -/
structure Covers (changes : Changes) (input : Path) (t s : FileTree) : Prop where
  touched : ∀ {names : Place} {content : Bytes}, classAt? s input names = some content →
    classAt? t input names ≠ some content →
    Marks changes input names .added ∨ Marks changes input names .changed
  removed : ∀ {names : Place} {content : Bytes}, classAt? t input names = some content →
    classAt? s input names = none → Marks changes input names .removed
  present : ∀ {names : Place} {content : Bytes},
    s.fileAt? (input.place ++ names) = some content → ¬ Marks changes input names .removed

/-- The passes of a build lead to a tree. `starts` are the trees they started on, the last pass
first. -/
inductive Passes (config : PassConfig) (newNames : Renaming) (input output : Path) :
    List FileTree → FileTree → Prop where
  | full {s t : FileTree} {answer : Report × Nat} (laid : Laid s input output)
      (pass : run config newNames input Changes.empty output s = .ok answer t) :
      Passes config newNames input output [s] t
  | changes {starts : List FileTree} {t s t' : FileTree} {changes : Changes}
      {answer : Report × Nat} (before : Passes config newNames input output starts t)
      (laid : Laid s input output) (edited : Edited t s input) (covers : Covers changes input t s)
      (nonempty : changes.isEmpty = false)
      (pass : run config newNames input changes output s = .ok answer t') :
      Passes config newNames input output (s :: starts) t'

private theorem isEmpty_empty : Changes.empty.isEmpty = true := rfl

private theorem right_full_iff (hs : Laid s input output) (hclean : config.clean = true)
    (h : run config newNames input Changes.empty output s = .ok answer t) :
    Right config.verify newNames t input output ↔ Clears s input output := by
  obtain ⟨-, classes, houtcome, hall⟩ := outcome_full hs isEmpty_empty hclean h
  refine houtcome.right_iff (fun names hother _ => hall names hother) fun names _ _ hgone => ?_
  exact absurd trivial hgone

private theorem right_changes_iff (hs : Laid s input output) (hedited : Edited t s input)
    (hcovers : Covers changes input t s) (hne : changes.isEmpty = false)
    (hright : Right config.verify newNames t input output)
    (h : run config newNames input changes output s = .ok answer u) :
    Right config.verify newNames u input output ↔ Clears s input output := by
  obtain ⟨classes, houtcome, hselected⟩ := outcome_changes hs hne h
  refine houtcome.right_iff (fun names hother hmark => ?_) fun names hnames hother hmark => ?_
  · cases hclass : classAt? s input names with
    | none => rfl
    | some content =>
      have hfile := fileAt?_eq_some_iff.mpr (classAt?_eq_some_iff.mp hclass).2
      exact absurd hmark (hcovers.present hfile)
  · have houtside := not_input_of_output hs.apart names
    -- an unmarked class file is the one that was there before
    have hclass : classAt? s input names = classAt? t input names := by
      cases hnew : classAt? s input names with
      | some content =>
        by_contra hold
        obtain ⟨r, hr, hplace⟩ :=
          hselected names content (hcovers.touched hnew (Ne.symm hold)) hnew
        exact hother r hr hplace
      | none =>
        cases hold : classAt? t input names with
        | none => rfl
        | some content => exact absurd (hcovers.removed hold hnew) hmark
    rw [fileAt?_congr (hedited _ houtside), hright names hnames, converted, converted, hclass]

namespace Passes

variable {s' : FileTree}

private theorem right (hclean : config.clean = true)
    (h : Passes config newNames input output starts t)
    (hstarts : ∀ s ∈ starts, Clears s input output) :
    Right config.verify newNames t input output := by
  induction h with
  | full laid pass => exact (right_full_iff laid hclean pass).mpr (hstarts _ List.mem_cons_self)
  | changes before laid edited covers nonempty pass ih =>
    have hright := ih fun s hs => hstarts s (List.mem_cons_of_mem _ hs)
    exact (right_changes_iff laid edited covers nonempty hright pass).mpr
      (hstarts _ List.mem_cons_self)

private theorem right_iff (hclean : config.clean = true)
    (h : Passes config newNames input output (s :: starts) t)
    (hstarts : ∀ s ∈ starts, Clears s input output) :
    Right config.verify newNames t input output ↔ Clears s input output := by
  cases h with
  | full laid pass => exact right_full_iff laid hclean pass
  | changes before laid edited covers nonempty pass =>
    exact right_changes_iff laid edited covers nonempty (before.right hclean hstarts) pass

private theorem same (hclean : config.clean = true)
    (h : Passes config newNames input output (s :: starts) t) (names : Place) :
    t.fileAt? (input.place ++ names) = s.fileAt? (input.place ++ names) := by
  cases h with
  | full laid pass =>
    obtain ⟨-, classes, houtcome, -⟩ := outcome_full laid isEmpty_empty hclean pass
    exact houtcome.same names
  | changes before laid edited covers nonempty pass =>
    obtain ⟨classes, houtcome, -⟩ := outcome_changes laid nonempty pass
    exact houtcome.same names

end Passes

private theorem Seen.edited (h : Seen t output) (ht : t.Plain) (hs : Laid s input output)
    (hedited : Edited t s input) (hparent : ".." ∉ output.segments) : Seen s output := by
  rcases h with hfound | hnone
  · refine .inl (lookup_of_way ht hparent (fun {q} hq hdirectory => ?_) hfound)
    rw [hedited q fun hinput => hs.apart.1 (hinput.trans hq)]
    exact hdirectory
  · refine .inr fun names hne => ?_
    rw [fileAt?_congr (hedited _ (not_input_of_output hs.apart names))]
    exact hnone names hne

private theorem Passes.seen (hclean : config.clean = true)
    (h : Passes config newNames input output starts t) (hparent : ".." ∉ output.segments) :
    t.Plain ∧ Seen t output ∧ ∀ s ∈ starts, Seen s output := by
  induction h with
  | full laid pass =>
    rename_i s t answer
    obtain ⟨hstart, classes, houtcome, -⟩ := outcome_full laid isEmpty_empty hclean pass
    have hseen : Seen s output := by
      refine hstart.imp id fun ⟨hmissing, hempty⟩ names _ => ?_
      have hnone := none_of_lookup laid.plain hempty hparent hmissing
      rw [fileAt?, laid.plain.none_below hnone]
    exact ⟨houtcome.plain, houtcome.seen hseen, fun s hs => List.mem_singleton.mp hs ▸ hseen⟩
  | changes before laid edited covers nonempty pass ih =>
    obtain ⟨hplain, hseen, hall⟩ := ih
    obtain ⟨classes, houtcome, -⟩ := outcome_changes laid nonempty pass
    have hnext := hseen.edited hplain laid edited hparent
    exact ⟨houtcome.plain, houtcome.seen hnext, List.forall_mem_cons.mpr ⟨hnext, hall⟩⟩

/-- A build leaves the files below the output that a pass over everything makes of the same input
in an empty output, exactly if its last pass could clear the output, as long as the passes before
could. With an output path without `..` all passes can. -/
theorem Passes.same_as_rebuild_iff (hclean : config.clean = true)
    (h : Passes config newNames input output (s :: starts) t) (hu : Laid u input output)
    (hfresh : ∀ names ≠ [], u.fileAt? (output.place ++ names) = none)
    (hsame : ∀ names, u.fileAt? (input.place ++ names) = s.fileAt? (input.place ++ names))
    (hrebuild : run config newNames input Changes.empty output u = .ok answer u') :
    ((∀ s' ∈ starts, Clears s' input output) →
      ((∀ names ≠ [], t.fileAt? (output.place ++ names) = u'.fileAt? (output.place ++ names)) ↔
        Clears s input output)) ∧
    (".." ∉ output.segments → ∀ s' ∈ s :: starts, Clears s' input output) := by
  have hrebuilt : Passes config newNames input output [u] u' := .full hu hrebuild
  have hclears : Clears u input output := .inr fun names hne hfile => absurd (hfresh names hne) hfile
  have hright : Right config.verify newNames u' input output :=
    (right_full_iff hu hclean hrebuild).mpr hclears
  have hconverted : ∀ names, converted config.verify newNames u' input names =
      converted config.verify newNames t input names := by
    intro names
    refine converted_congr fun names => ?_
    rw [hrebuilt.same hclean, hsame, h.same hclean]
  refine ⟨fun hstarts => ?_, fun hparent s' hs' => ?_⟩
  · rw [← h.right_iff hclean hstarts]
    constructor
    · intro hequal names hne
      rw [hequal names hne, hright names hne, hconverted]
    · intro hright' names hne
      rw [hright' names hne, hright names hne, hconverted]
  · exact ((h.seen hclean hparent).2.2 s' hs').clears input

section Sample

def sampleClass (letter version : UInt8) : Bytes :=
  ClassFile.magic ++ [0, 0, 0, version] ++ [0, 3, 1, 0, 1, letter, 7, 0, 1] ++
    [0, 0x21, 0, 2, 0, 0] ++ [0, 0] ++ [0, 0] ++ [0, 0] ++ [0, 0]

def sampleInput : Path := ⟨["in"]⟩

def sampleOutput : Path := ⟨["out"]⟩

def sampleNames : Renaming := .ofList [("A", "C")]

def sampleStart : FileTree :=
  FileTree.empty |>.set ["in"] .directory
    |>.set ["in", "A.class"] (.file (sampleClass 65 52))
    |>.set ["in", "B.class"] (.file (sampleClass 66 52))
    |>.set ["out"] .directory
    |>.set ["out", "Old.class"] (.file [])

def passed (changes : Changes) (output : Path) (s : FileTree) : FileTree × Bool :=
  match run .sequential sampleNames sampleInput changes output s with
  | .ok _ t => (t, true)
  | .error _ t => (t, false)

private theorem run_of_passed (changes : Changes) (output : Path) (s : FileTree)
    (h : (passed changes output s).2 = true) :
    ∃ answer, run .sequential sampleNames sampleInput changes output s =
      .ok answer (passed changes output s).1 := by
  rw [passed] at h ⊢
  cases hrun : run .sequential sampleNames sampleInput changes output s with
  | ok answer t => exact ⟨answer, rfl⟩
  | error fault t =>
    rw [hrun] at h
    cases h

def sampleBuilt : FileTree := (passed .empty sampleOutput sampleStart).1

def sampleEdited : FileTree :=
  (⟨sampleBuilt.nodes.erase ["in", "B.class"]⟩ : FileTree).set ["in", "A.class"]
    (.file (sampleClass 65 53))

def sampleChanges : Changes := .ofList [(⟨["A.class"]⟩, .changed), (⟨["B.class"]⟩, .removed)]

def sampleFresh : FileTree := sampleEdited.clear ["out"]

private theorem laid_sampleStart : Laid sampleStart sampleInput sampleOutput :=
  .of_all (by decide +kernel) (by decide +kernel) (by decide) (by decide +kernel)

private theorem laid_sampleEdited : Laid sampleEdited sampleInput sampleOutput :=
  .of_all (by decide +kernel) (by decide +kernel) (by decide) (by decide +kernel)

private theorem laid_sampleFresh : Laid sampleFresh sampleInput sampleOutput :=
  .of_all (by decide +kernel) (by decide +kernel) (by decide) (by decide +kernel)

private theorem edited_sampleEdited : Edited sampleBuilt sampleEdited sampleInput := by
  intro q hq
  have hset : ["in", "A.class"] ≠ q := fun heq => hq ⟨["A.class"], heq⟩
  have herase : ["in", "B.class"] ≠ q := fun heq => hq ⟨["B.class"], heq⟩
  rw [sampleEdited, at?_set (List.cons_ne_nil _ _), if_neg hset.symm,
    at?_erase (List.cons_ne_nil _ _), if_neg herase.symm]

private theorem covers_sampleChanges :
    Covers sampleChanges sampleInput sampleBuilt sampleEdited := by
  have hnew : sampleEdited.below ["in"] = [(["A.class"], .file (sampleClass 65 53))] := by
    decide +kernel
  have hold : sampleBuilt.below ["in"] = [(["A.class"], .file (sampleClass 65 52)),
      (["B.class"], .file (sampleClass 66 52))] := by
    decide +kernel
  have hplace : sampleInput.place = ["in"] := rfl
  have hfile : ∀ {names : Place} {content : Bytes},
      sampleEdited.fileAt? (sampleInput.place ++ names) = some content → names = ["A.class"] := by
    intro names content h
    have hroot : sampleEdited.fileAt? ["in"] = none := by decide +kernel
    have hne : names ≠ [] := by
      rintro rfl
      rw [List.append_nil, hplace, hroot] at h
      cases h
    have hmem := mem_below.mpr ⟨hne, fileAt?_eq_some_iff.mp h⟩
    rw [hplace, hnew] at hmem
    exact (Prod.mk.inj (List.mem_singleton.mp hmem)).1
  refine ⟨fun {names content} hclass _ => ?_, fun {names content} hclass hgone => ?_,
    fun {names content} hthere => ?_⟩
  · obtain ⟨-, hat⟩ := classAt?_eq_some_iff.mp hclass
    rw [hfile (fileAt?_eq_some_iff.mpr hat)]
    decide +kernel
  · obtain ⟨hextension, hat⟩ := classAt?_eq_some_iff.mp hclass
    have hmem := mem_below.mpr ⟨ne_nil_of_hasClassExtension hextension, hat⟩
    have hkept : classAt? sampleEdited sampleInput ["A.class"] ≠ none := by decide +kernel
    rw [hplace, hold] at hmem
    rcases List.mem_cons.mp hmem with heq | hmem
    · rw [(Prod.mk.inj heq).1] at hgone
      exact absurd hgone hkept
    · rw [(Prod.mk.inj (List.mem_singleton.mp hmem)).1]
      decide +kernel
  · rw [hfile hthere]
    decide +kernel

/-- A pass over everything and one over two changes, against a rebuild. -/
theorem same_as_rebuild_sample :
    Passes .sequential sampleNames sampleInput sampleOutput [sampleEdited, sampleStart]
      (passed sampleChanges sampleOutput sampleEdited).1 ∧
    ∀ names ≠ [], (passed sampleChanges sampleOutput sampleEdited).1.fileAt? ("out" :: names) =
      (passed .empty sampleOutput sampleFresh).1.fileAt? ("out" :: names) := by
  obtain ⟨first, hfirst⟩ := run_of_passed .empty sampleOutput sampleStart (by decide +kernel)
  obtain ⟨second, hsecond⟩ :=
    run_of_passed sampleChanges sampleOutput sampleEdited (by decide +kernel)
  obtain ⟨rebuild, hrebuild⟩ := run_of_passed .empty sampleOutput sampleFresh (by decide +kernel)
  have hpasses : Passes .sequential sampleNames sampleInput sampleOutput
      [sampleEdited, sampleStart] (passed sampleChanges sampleOutput sampleEdited).1 :=
    .changes (.full laid_sampleStart hfirst) laid_sampleEdited edited_sampleEdited
      covers_sampleChanges (by decide +kernel) hsecond
  obtain ⟨hiff, hall⟩ := Passes.same_as_rebuild_iff rfl hpasses laid_sampleFresh
    (fun names hne => fileAt?_clear_below _ _ hne)
    (fun names => fileAt?_clear_apart _ fun ⟨rest, heq⟩ =>
      absurd (List.cons.inj heq).1 (by decide)) hrebuild
  have hclears := hall (by decide)
  refine ⟨hpasses, (hiff fun s' hs' => hclears s' ?_).mpr (hclears _ List.mem_cons_self)⟩
  exact List.mem_cons_of_mem _ hs'

/-- An output behind `..` that is not found is not cleared: the file of a class that is no more
stays where the pass writes. -/
example : (passed .empty ⟨["x", "..", "out"]⟩ sampleStart).2 = true ∧
    (passed .empty ⟨["x", "..", "out"]⟩ sampleStart).1.fileAt? ["out", "A.class"] ≠ none ∧
    (passed .empty ⟨["x", "..", "out"]⟩ sampleStart).1.fileAt? ["out", "Old.class"] = some [] := by
  decide +kernel

end Sample

end Retarget.Pass
