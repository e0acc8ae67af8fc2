import Mathlib.Data.List.Nodup
import Retarget.Proofs.Pass.Course
import Retarget.Proofs.Pass.Delivery

/-!
Class files that are processed as themselves. A full pass has a name for each
class file below its input, and reads and stores the files that the name leads
to. These are the file itself and the one under its own path below the output
exactly if no name of a directory and no stem holds a dot or a slash. Otherwise
another class file is processed in its place, and that one twice.
-/

set_option autoImplicit false

namespace Retarget.Pass

open FileTree
open Retarget.Path (IsName)

variable {t t' : FileTree} {input output base : Path} {newNames : Renaming} {i names : Place}
  {config : PassConfig} {changes : Changes} {answer : Report × Nat} {classes : List Place}

def nameOf (names : Place) : String := (⟨names⟩ : Path).binaryName

private theorem pathOf_nameOf_iff (hbase : base.isEmpty = false)
    (hnames : ∀ name ∈ names, IsName name)
    (hwell : ClassPath.isWellFormed (nameOf names) = true) :
    ClassPath.pathOf base (nameOf names) = base.join ⟨names⟩ ↔ Tidy names := by
  constructor
  · intro h
    rw [ClassPath.pathOf_eq base hwell] at h
    have hplace := Path.join_injective hbase
      (Path.isAbsolute_of_names (ClassPath.isName_placeOf hwell))
      (Path.isAbsolute_of_names hnames) h
    exact (tidy_iff hwell).mpr (congrArg Path.segments hplace)
  · intro htidy
    exact htidy.pathOf_binaryName base

private theorem nodup_iff_tidy (hnodup : classes.Nodup)
    (hwell : ∀ names ∈ classes, ClassPath.isWellFormed (nameOf names) = true)
    (hled : ∀ names ∈ classes, ClassPath.placeOf (nameOf names) ∈ classes) :
    (classes.map nameOf).Nodup ↔ ∀ names ∈ classes, Tidy names := by
  constructor
  · intro h names hnames
    have hback : nameOf (ClassPath.placeOf (nameOf names)) = nameOf names :=
      (ClassPath.binaryName_placeOf (hwell names hnames)).2
    have hplace := List.inj_on_of_nodup_map h (hled names hnames) hnames hback
    exact (tidy_iff (hwell names hnames)).mpr hplace
  · intro htidy
    apply hnodup.map_on
    intro names hnames names' hnames' heq
    have hplaces := congrArg ClassPath.placeOf heq
    rwa [nameOf, nameOf, (htidy names hnames).placeOf_binaryName,
      (htidy names' hnames').placeOf_binaryName] at hplaces

theorem handled_of_full (ht : t.Rooted) (hempty : changes.isEmpty = true)
    (h : run config newNames input changes output t = .ok answer t') :
    ∃ (i : Place) (t₁ : FileTree) (classes : List Place), t.Reaches [] input.segments i ∧
      (if config.clean then emptyOutput output t = .ok () t₁ else t₁ = t) ∧
      classes.Nodup ∧ (∀ names, names ∈ classes ↔ classIn? t i names ≠ none) ∧
      answer.1.processed.Perm (classes.map nameOf) ∧
      ∀ names ∈ classes,
        Nonempty (Handling config.verify newNames input output t₁ t' (nameOf names)) := by
  obtain ⟨-, plan, t₁, deletions, stores, hplan, hemptied, hcourse, -, hstores, -⟩ :=
    course_of_run h
  obtain ⟨plan', hplan', hperm⟩ := processed_perm h
  cases hplan.symm.trans hplan'
  rw [(Plan.ofTreeIn_of_makeIn hempty hplan).1, Bool.true_and] at hemptied
  obtain ⟨i, hi, hnodup, hclasses⟩ := classes_full ht hempty hplan
  have hmem : ∀ {names : Place}, names ∈ plan.classes.map Path.segments ↔
      (⟨names⟩ : Path) ∈ plan.classes := by
    intro names
    rw [List.mem_map]
    constructor
    · rintro ⟨r, hr, rfl⟩
      exact hr
    · intro hr
      exact ⟨_, hr, rfl⟩
  refine ⟨i, t₁, plan.classes.map Path.segments, hi, hemptied, ?_, fun names => ?_, ?_, ?_⟩
  · apply hnodup.map
    intro r r' heq
    exact congrArg Path.mk heq
  · rw [hmem, hclasses]
    constructor
    · rintro ⟨names', heq, hclass⟩
      cases heq
      exact hclass
    · intro hclass
      exact ⟨names, rfl, hclass⟩
  · rw [List.map_map]
    exact hperm
  · intro names hnames
    obtain ⟨⟨u, act⟩, hstep, w, hact⟩ := exists_of_forall₂ hstores.flip (hmem.mp hnames)
    dsimp only at hact
    subst hact
    obtain ⟨t₂, hdoes⟩ := hcourse.does_of_mem (List.mem_append_right deletions hstep)
    obtain ⟨front, back, rfl⟩ := List.append_of_mem hstep
    rw [← List.append_assoc] at hcourse
    obtain ⟨done, -⟩ := exists_handling hcourse
    cases hdoes with
    | stored hyields =>
      rw [hyields.name_eq] at done
      exact ⟨done⟩

theorem Handling.data_of_emptied {verify clean : Bool} {t₁ : FileTree} {name : String}
    (hs : Settled t input output) (hinput : input.isEmpty = false)
    (houtput : output.isEmpty = false) (hi : t.Reaches [] input.segments i)
    (hemptied : if clean then emptyOutput output t = .ok () t₁ else t₁ = t)
    (done : Handling verify newNames input output t₁ t' name) :
    t.fileAt? (i ++ ClassPath.placeOf name) = some done.data := by
  obtain ⟨hs₁, hlinks, hsame⟩ := settled_of_emptied hs hi hemptied
  obtain ⟨i', hi', hfile⟩ := done.data_eq hs₁ houtput hinput
  rwa [(hlinks.reaches_iff.mp hi').unique hi, hsame] at hfile

/-- A full pass handles each class file below its input once, by its name. Under its own path it is
read and stored exactly if its names are tidy, and stays what was stored unless a later step hits
it. Where the roots are apart and without links below, no class file is processed twice exactly if
the names of all are tidy; one with tidy names is found under them below the output as the renamed
bytes of what it was, and for one without, another one is processed, and under its own names the
output is left as it was. -/
theorem processed_as_itself (ht : t.Rooted) (hempty : changes.isEmpty = true)
    (h : run config newNames input changes output t = .ok answer t') :
    ∃ (i : Place) (t₁ : FileTree) (classes : List Place), t.Reaches [] input.segments i ∧
      (if config.clean then emptyOutput output t = .ok () t₁ else t₁ = t) ∧
      classes.Nodup ∧ (∀ names, names ∈ classes ↔ classIn? t i names ≠ none) ∧
      answer.1.processed.Perm (classes.map nameOf) ∧
      (∀ names ∈ classes,
        (ClassPath.pathOf input (nameOf names) = input.join ⟨names⟩ ↔ Tidy names) ∧
        (ClassPath.pathOf output (nameOf names) = output.join ⟨names⟩ ↔ Tidy names) ∧
        ∃ done : Handling config.verify newNames input output t₁ t' (nameOf names),
          (∀ step ∈ done.rest, ¬ Hits output step.1 done.place step.2) →
            t'.lookup true (ClassPath.pathOf output (nameOf names)) =
              .ok (done.place, .file done.bytes)) ∧
      (Settled t input output →
        (answer.1.processed.Nodup ↔ ∀ names ∈ classes, Tidy names) ∧
        (∀ names data, Tidy names → classIn? t i names = some data → ∃ o bytes,
          t.Reaches [] output.segments o ∧ ClassFile.renameBytes newNames data = .ok bytes ∧
          t'.fileAt? (o ++ names) = some bytes) ∧
        ∀ names ∈ classes, ¬ Tidy names →
          (∃ other ∈ classes, other ≠ names ∧ nameOf other = nameOf names ∧ Tidy other) ∧
          ∀ o, t.Reaches [] output.segments o →
            t'.fileAt? (o ++ names) = t₁.fileAt? (o ++ names)) := by
  obtain ⟨hinput, houtput⟩ := isEmpty_of_checkApart (course_of_run h).1
  obtain ⟨i, t₁, classes, hi, hemptied, hnodup, hclasses, hperm, hhandled⟩ :=
    handled_of_full ht hempty h
  have hwell : ∀ names ∈ classes, ClassPath.isWellFormed (nameOf names) = true := by
    intro names hmem
    obtain ⟨done⟩ := hhandled names hmem
    exact done.wellFormed
  refine ⟨i, t₁, classes, hi, hemptied, hnodup, hclasses, hperm, fun names hmem => ?_,
    fun hs => ?_⟩
  · obtain ⟨data, hdata⟩ := Option.ne_none_iff_exists'.mp ((hclasses names).mp hmem)
    have hnames := ht.isName_of_mem (classIn?_eq_some_iff.mp hdata).2
    obtain ⟨done⟩ := hhandled names hmem
    exact ⟨pathOf_nameOf_iff hinput hnames (hwell names hmem),
      pathOf_nameOf_iff houtput hnames (hwell names hmem), done, done.stays_found⟩
  · -- what is read in place of a class file is one itself
    have hled : ∀ names ∈ classes, ClassPath.placeOf (nameOf names) ∈ classes := by
      intro names hmem
      obtain ⟨done⟩ := hhandled names hmem
      have hfile := done.data_of_emptied hs hinput houtput hi hemptied
      rw [hclasses, classIn?, if_pos (tidy_placeOf (hwell names hmem)).extension, hfile]
      exact Option.some_ne_none _
    obtain ⟨-, hlinks, -⟩ := settled_of_emptied hs hi hemptied
    obtain ⟨t₂, i', hemptied', hi', -, hdelivered⟩ := delivered_of_full hs hempty h
    have htree : t₂ = t₁ := by
      split_ifs at hemptied hemptied'
      · cases hemptied.symm.trans hemptied'
        rfl
      · rw [hemptied, hemptied']
    rw [hi'.unique hi, htree] at hdelivered
    refine ⟨?_, ?_, ?_⟩
    · rw [hperm.nodup_iff]
      exact nodup_iff_tidy hnodup hwell hled
    · intro names data htidy hclass
      rw [← properIn?_of_tidy htidy] at hclass
      obtain ⟨o, bytes, ho, hstored⟩ := hdelivered.stored hclass
      exact ⟨o, bytes, hlinks.reaches_iff.mp ho, hstored⟩
    · intro names hmem huntidy
      have hproper : ClassPath.placeOf (nameOf names) ≠ names :=
        fun heq => huntidy ((tidy_iff (hwell names hmem)).mpr heq)
      refine ⟨⟨_, hled names hmem, hproper, (ClassPath.binaryName_placeOf (hwell names hmem)).2,
        tidy_placeOf (hwell names hmem)⟩, fun o ho => ?_⟩
      exact hdelivered.kept (hlinks.reaches_iff.mpr ho) (if_neg hproper)

section Sample

def namedClass (name : String) : Bytes :=
  ClassFile.magic ++ [0, 0, 0, 52] ++ [0, 3, 1, 0, UInt8.ofNat name.utf8ByteSize] ++
    Bytes.ascii name ++ [7, 0, 1] ++ [0, 0x21, 0, 2, 0, 0] ++
    [0, 0] ++ [0, 0] ++ [0, 0] ++ [0, 0]

def dottedSample : FileTree :=
  FileTree.empty |>.set ["in"] .directory
    |>.set ["in", "a.b.class"] (.file [0])
    |>.set ["in", "a"] .directory
    |>.set ["in", "a", "b.class"] (.file (namedClass "a/b"))
    |>.set ["out"] .directory

/-- The class file without a dot is processed twice, the other one is not. -/
theorem processed_dottedSample : ∃ answer t',
    run .sequential .empty ⟨["in"]⟩ .empty ⟨["out"]⟩ dottedSample = .ok answer t' ∧
    ¬ answer.1.processed.Nodup ∧
    t'.fileAt? ["out", "a", "b.class"] = some (namedClass "a/b") ∧
    t'.fileAt? ["out", "a.b.class"] = none := by
  have hrooted : dottedSample.Rooted := .of_all (by decide +kernel)
  have hnolink : dottedSample.Linkless [] := linkless_of_all (by decide +kernel)
  have hreaches : ∀ p : Path, dottedSample.Reaches [] p.segments p.place :=
    fun p => .of_no_link fun q target => hnolink q target
  have hin : dottedSample.Reaches [] ["in"] ["in"] := hreaches ⟨["in"]⟩
  have hout : dottedSample.Reaches [] ["out"] ["out"] := hreaches ⟨["out"]⟩
  have hs : Settled dottedSample ⟨["in"]⟩ ⟨["out"]⟩ :=
    .of_all (by decide +kernel) hin hout (by decide +kernel) (by decide +kernel) (by decide)
  have hdone : ((run .sequential .empty ⟨["in"]⟩ .empty ⟨["out"]⟩).run' dottedSample).isSome =
      true := by decide +kernel
  obtain ⟨answer, t', hrun⟩ := ok_of_run' hdone
  obtain ⟨i, t₁, classes, hi, hemptied, -, hclasses, -, -, happly⟩ :=
    processed_as_itself hrooted rfl hrun
  obtain ⟨hnodup, hstored, huntidy⟩ := happly hs
  have hplace : i = ["in"] := hi.unique hin
  subst hplace
  have hdotted : ["a.b.class"] ∈ classes := (hclasses _).mpr (by decide +kernel)
  have hnot : ¬ Tidy ["a.b.class"] := by
    intro htidy
    exact absurd (htidy.stem "a.b" rfl) (by decide)
  refine ⟨answer, t', hrun, fun h => hnot (hnodup.mp h _ hdotted), ?_, ?_⟩
  · obtain ⟨o, bytes, ho, hbytes, hfile⟩ := hstored ["a", "b.class"] (namedClass "a/b")
      (.of_all (by decide) (by decide) (by decide) (by decide)) (by decide +kernel)
    rw [ho.unique hout] at hfile
    have hsame : ClassFile.renameBytes .empty (namedClass "a/b") = .ok (namedClass "a/b") := by
      decide +kernel
    rw [← Except.ok.inj (hbytes.symm.trans hsame)]
    exact hfile
  · have hkept := (huntidy _ hdotted hnot).2 _ hout
    rw [show ["out", "a.b.class"] = ["out"] ++ ["a.b.class"] from rfl, hkept]
    rcases emptyOutput_cases hemptied with ⟨o, hlookup, rfl⟩ | ⟨-, rfl⟩
    · rw [(reaches_of_lookup hlookup).unique hout]
      exact fileAt?_clear_below _ _ (by decide)
    · decide +kernel

end Sample

end Retarget.Pass
