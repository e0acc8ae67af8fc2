import Retarget.Proofs.Pass.Orders

/-!
What a full pass that cleans nothing delivers. Every class file below the place
the input leads to is renamed and stored under the same names below the output,
whatever was there; all other files are as they were.
-/

set_option autoImplicit false

namespace Retarget.Pass

open FileTree

variable {t t' : FileTree} {input output : Path} {i names : Place} {newNames : Renaming}
  {config : PassConfig} {changes : Changes} {plan : Plan} {data : Bytes} {w : Work}
  {verify : Bool}

def classIn? (t : FileTree) (i : Place) (names : Place) : Option Bytes :=
  if (⟨names⟩ : Path).hasClassExtension then t.fileAt? (i ++ names) else none

theorem classIn?_eq_some_iff : classIn? t i names = some data ↔
    (⟨names⟩ : Path).hasClassExtension = true ∧ t.at? (i ++ names) = some (.file data) := by
  rw [classIn?]
  split_ifs with hclass
  · rw [fileAt?_eq_some_iff, and_iff_right hclass]
  · simp [hclass]

theorem classIn?_congr (h : ∀ names : Place, t'.fileAt? (i ++ names) = t.fileAt? (i ++ names))
    (names : Place) : classIn? t' i names = classIn? t i names := by
  rw [classIn?, classIn?, h]

/-- The names of directories and the stems of class files below a place hold no dot, and no name
holds a slash. -/
structure Neat (t : FileTree) (i : Place) : Prop where
  slash : ∀ {names : Place} {name : String} {node : Node},
    t.at? (i ++ names ++ [name]) = some node → '/' ∉ name.toList
  directory : ∀ {names : Place} {name : String},
    t.at? (i ++ names ++ [name]) = some .directory → '.' ∉ name.toList
  stem : ∀ {names : Place} {stem : String} {content : Bytes},
    t.at? (i ++ names ++ [stem ++ ".class"]) = some (.file content) → '.' ∉ stem.toList

section Laid

theorem Laid.reaches (h : Laid t input output) (p : Path) : t.Reaches [] p.segments p.place :=
  .of_no_link fun _ _ => h.plain.noLink

theorem Laid.settled (h : Laid t input output) (ht : t.Rooted) : Settled t input output where
  rooted := ht
  linklessInput _ _ _ _ := h.plain.noLink
  linklessOutput _ _ _ _ := h.plain.noLink
  apart i o hi ho := by
    rw [hi.unique (h.reaches input), ho.unique (h.reaches output)]
    exact h.apart

theorem Laid.neat (h : Laid t input output) (hi : t.Reaches [] input.segments i) : Neat t i := by
  rw [hi.unique (h.reaches input)]
  exact ⟨h.slash, h.directory, h.stem⟩

end Laid

theorem Neat.tidy (h : Neat t i) (ht : t.Rooted) (hclass : classIn? t i names = some data) :
    Tidy names := by
  obtain ⟨hextension, hfile⟩ := classIn?_eq_some_iff.mp hclass
  have hne := ne_nil_of_hasClassExtension hextension
  have hnode : ∀ {front back : Place} {name : String}, names = front ++ name :: back →
      ∃ node, t.at? (i ++ front ++ [name]) = some node ∧ (back ≠ [] → node = .directory) := by
    intro front back name heq
    rw [heq, ← List.singleton_append, ← List.append_assoc, ← List.append_assoc] at hfile
    by_cases hback : back = []
    · rw [hback, List.append_nil] at hfile
      exact ⟨_, hfile, fun hnot => absurd hback hnot⟩
    · exact ⟨.directory, ht.directory_above hfile hback, fun _ => rfl⟩
  refine ⟨ht.isName_of_mem hfile, hextension, ?_, ?_, ?_⟩
  · intro name hname
    obtain ⟨front, back, heq⟩ := List.append_of_mem hname
    obtain ⟨node, hat, -⟩ := hnode heq
    exact h.slash hat
  · intro name hname
    obtain ⟨front, back, heq⟩ := List.append_of_mem hname
    have hwhole : names = front ++ name :: (back ++ [names.getLast hne]) := by
      rw [← List.cons_append, ← List.append_assoc, ← heq, List.dropLast_concat_getLast]
    obtain ⟨node, hat, hdirectory⟩ := hnode hwhole
    rw [hdirectory (append_singleton_ne_nil _ _)] at hat
    exact h.directory hat
  · intro stem hstem
    have hwhole : names = names.dropLast ++ [stem ++ ".class"] :=
      (List.dropLast_append_getLast? _ hstem).symm
    rw [hwhole, ← List.append_assoc] at hfile
    exact h.stem hfile

section Selected

private theorem classIn?_of_file {content : Bytes} (ht : t.Rooted)
    (h : t.at? i = some (.file content)) :
    classIn? t i names = none := by
  cases hclass : classIn? t i names with
  | none => rfl
  | some data =>
    obtain ⟨hextension, hfile⟩ := classIn?_eq_some_iff.mp hclass
    cases h.symm.trans (ht.directory_above hfile (ne_nil_of_hasClassExtension hextension))

private theorem process_mem_map_ofEntry {r : Path} : .process r ∈ (t.below i).map Plan.ofEntry ↔
    ∃ names, r = ⟨names⟩ ∧ classIn? t i names ≠ none := by
  rw [List.mem_map]
  constructor
  · rintro ⟨⟨names, node⟩, hmem, hchoice⟩
    obtain ⟨-, hnode⟩ := mem_below.mp hmem
    cases node with
    | file content =>
      simp only [Plan.ofEntry, Choice.ofFile] at hchoice
      split_ifs at hchoice with hextension
      cases hchoice
      refine ⟨names, rfl, ?_⟩
      rw [classIn?_eq_some_iff.mpr ⟨hextension, hnode⟩]
      exact Option.some_ne_none content
    | directory | link target => cases hchoice
  · rintro ⟨names, rfl, hclass⟩
    obtain ⟨content, hcontent⟩ := Option.ne_none_iff_exists'.mp hclass
    obtain ⟨hextension, hnode⟩ := classIn?_eq_some_iff.mp hcontent
    refine ⟨(names, .file content),
      mem_below.mpr ⟨ne_nil_of_hasClassExtension hextension, hnode⟩, ?_⟩
    rw [Plan.ofEntry, Choice.ofFile, if_pos hextension]

private theorem pairwise_below (t : FileTree) (i : Place) :
    (t.below i).Pairwise fun a b => a.1 ≠ b.1 := by
  rw [below, List.pairwise_filterMap]
  apply Std.ExtTreeMap.distinct_keys_toList.imp
  rintro ⟨place, node⟩ ⟨place', node'⟩ hne entry hentry entry' hentry' heq
  simp only at hentry hentry'
  split_ifs at hentry with hbelow
  split_ifs at hentry' with hbelow'
  cases hentry
  cases hentry'
  simp only [Bool.and_eq_true, decide_eq_true_eq, List.isPrefixOf_iff_prefix] at hbelow hbelow'
  obtain ⟨⟨names, rfl⟩, -⟩ := hbelow
  obtain ⟨⟨names', rfl⟩, -⟩ := hbelow'
  rw [List.drop_left, List.drop_left] at heq
  subst heq
  exact hne Std.ReflCmp.compare_self

private theorem nodup_process_below (t : FileTree) (i : Place) :
    (((t.below i).map Plan.ofEntry).filterMap Choice.process?).Nodup := by
  have hnames : ∀ {entry : Place × Node} {r : Path},
      (Plan.ofEntry entry).process? = some r → r = ⟨entry.1⟩ := by
    rintro ⟨names, node⟩ r hr
    cases node with
    | file content =>
      simp only [Plan.ofEntry, Choice.ofFile] at hr
      split_ifs at hr
      · exact (Option.some.inj hr).symm
      · cases hr
    | directory | link target => cases hr
  rw [List.filterMap_map, List.Nodup, List.pairwise_filterMap]
  apply (pairwise_below t i).imp
  intro entry entry' hne r hr r' hr' heq
  rw [hnames hr, hnames hr'] at heq
  exact hne (congrArg Path.segments heq)

theorem classes_full (ht : t.Rooted) (hempty : changes.isEmpty = true)
    (h : Plan.make t input changes = .ok plan) :
    ∃ i, t.Reaches [] input.segments i ∧ plan.classes.Nodup ∧
      ∀ r, r ∈ plan.classes ↔ ∃ names, r = ⟨names⟩ ∧ classIn? t i names ≠ none := by
  obtain ⟨i, hi, hchoices⟩ := ofTree_cases (Plan.ofTreeIn_of_makeIn hempty h).2
  refine ⟨i, hi, ?_⟩
  have hbelow : (⟨(t.below i).map Plan.ofEntry, true⟩ : Plan).classes.Nodup ∧
      ∀ r, r ∈ (⟨(t.below i).map Plan.ofEntry, true⟩ : Plan).classes ↔
        ∃ names, r = ⟨names⟩ ∧ classIn? t i names ≠ none :=
    ⟨nodup_process_below t i, fun r => Laid.mem_classes.trans process_mem_map_ofEntry⟩
  have hnone : (∃ content, t.at? i = some (.file content)) → ([] : List Path).Nodup ∧
      ∀ r : Path, r ∈ [] ↔ ∃ names, r = ⟨names⟩ ∧ classIn? t i names ≠ none := by
    rintro ⟨content, hfile⟩
    refine ⟨List.nodup_nil, fun r => ⟨fun hr => absurd hr List.not_mem_nil, ?_⟩⟩
    rintro ⟨names, -, hclass⟩
    exact absurd (classIn?_of_file ht hfile) hclass
  rw [Plan.classes]
  rcases hchoices with (heq | heq) | ⟨hfile, heq | heq⟩
  · rw [heq]
    exact hbelow
  · rw [heq]
    exact hbelow
  · rw [heq]
    exact hnone hfile
  · rw [heq]
    exact hnone hfile

end Selected

/-- Some class files are renamed and stored below the output under their names. The other files
there are as they were. -/
structure Delivered (newNames : Renaming) (output : Path) (classes : Place → Option Bytes)
    (t t' : FileTree) : Prop where
  stored : ∀ {names : Place} {data : Bytes}, classes names = some data →
    ∃ o bytes, t.Reaches [] output.segments o ∧ ClassFile.renameBytes newNames data = .ok bytes ∧
      t'.fileAt? (o ++ names) = some bytes
  kept : ∀ {o names : Place}, t.Reaches [] output.segments o → classes names = none →
    t'.fileAt? (o ++ names) = t.fileAt? (o ++ names)

/-- The content of the class file at a place below another one, if there is one and its name leads
back to it. -/
def properIn? (t : FileTree) (i names : Place) : Option Bytes :=
  if ClassPath.placeOf (⟨names⟩ : Path).binaryName = names then classIn? t i names else none

theorem properIn?_of_tidy (h : Tidy names) : properIn? t i names = classIn? t i names := by
  rw [properIn?, if_pos h.placeOf_binaryName]

private theorem properIn?_placeOf {name : String} (h : ClassPath.isWellFormed name = true) :
    properIn? t i (ClassPath.placeOf name) = t.fileAt? (i ++ ClassPath.placeOf name) := by
  have htidy := tidy_placeOf h
  rw [properIn?_of_tidy htidy, classIn?, if_pos htidy.extension]

private theorem Yields.delivers {r : Path} (hs : Settled t input output)
    (hinput : input.isEmpty = false)
    (hi : t.Reaches [] input.segments i) (h : Yields verify newNames t input r w) :
    ∃ data, properIn? t i w.file.1 = some data ∧
      ClassFile.renameBytes newNames data = .ok w.bytes := by
  obtain ⟨-, hwell, hdata, hparsed, -, hrenamed, hwritten⟩ := h
  obtain ⟨-, -, -, i', left, hopen, hfile⟩ := (hs.contents_ok_iff hinput hwell).mp hdata
  obtain ⟨bytes, hbytes, hrename, -⟩ := ClassFile.renameBytes_of_rename hparsed hrenamed
  cases hbytes.symm.trans hwritten
  rw [hopen.reaches.unique hi] at hfile
  exact ⟨_, (properIn?_placeOf hwell).trans hfile, hrename⟩

theorem settled_of_emptied {clean : Bool} {t₁ : FileTree} (hs : Settled t input output)
    (hi : t.Reaches [] input.segments i)
    (h : if clean then emptyOutput output t = .ok () t₁ else t₁ = t) :
    Settled t₁ input output ∧ SameLinks t t₁ ∧
      ∀ names : Place, t₁.fileAt? (i ++ names) = t.fileAt? (i ++ names) := by
  split_ifs at h
  · obtain ⟨-, hlinks⟩ := kept_of_emptyOutput hs.rooted hs.linklessOutput h
    refine ⟨hs.of_emptyOutput h, hlinks, fun names => ?_⟩
    apply fileAt?_congr (at?_of_emptyOutput _ h)
    rintro o ho ⟨names', heq⟩
    exact hs.ne_of_reaches hi ho names names' heq.symm
  · subst h
    exact ⟨hs, fun _ _ => Iff.rfl, fun _ => rfl⟩

/-- A full pass delivers the class files below its input whose names lead back to them, after the
output was emptied if need be. -/
theorem delivered_of_full {report : Report × Nat} (hs : Settled t input output)
    (hempty : changes.isEmpty = true)
    (h : run config newNames input changes output t = .ok report t') :
    ∃ t₁ i, (if config.clean then emptyOutput output t = .ok () t₁ else t₁ = t) ∧
      t.Reaches [] input.segments i ∧ Touched t₁ t' output ∧
      Delivered newNames output (properIn? t i) t₁ t' := by
  rw [run_eq_runIn] at h
  obtain ⟨hcheck, plan, t₁, t₂, deleted, found, hplan, hemptied, hdeleted, hprocessed, -⟩ :=
    runIn_ok_iff.mp h
  obtain ⟨hinput, houtput⟩ := isEmpty_of_checkApart hcheck
  rw [(Plan.ofTreeIn_of_makeIn hempty hplan).1, Bool.true_and] at hemptied
  rw [removed_full hempty hplan] at hdeleted
  cases hdeleted
  obtain ⟨i, hi, -, hclasses⟩ := classes_full hs.rooted hempty hplan
  obtain ⟨hs₁, hlinks, hsame⟩ := settled_of_emptied hs hi hemptied
  obtain ⟨works, hworks, -, hfilled⟩ := (processClasses_ok_iff hs₁ hinput houtput
    (ClassPath.grown_new input config.verify) rfl rfl).mp hprocessed
  have hproper : properIn? t₁ i = properIn? t i := by
    funext names
    rw [properIn?, properIn?, classIn?_congr hsame]
  have hwork : ∀ w ∈ works, ∃ data, properIn? t i w.file.1 = some data ∧
      ClassFile.renameBytes newNames data = .ok w.bytes := by
    intro w hw
    obtain ⟨r, -, hyields, -⟩ := exists_of_forall₂ hworks hw
    rw [← hproper]
    exact hyields.delivers hs₁ hinput (hlinks.reaches_iff.mpr hi)
  -- a class file whose name leads back to it is among those that were processed
  have hthere : ∀ {names data}, properIn? t i names = some data →
      ∃ w ∈ works, w.file.1 = names := by
    intro names data hdata
    rw [properIn?] at hdata
    split_ifs at hdata with hback
    have hr : (⟨names⟩ : Path) ∈ plan.classes :=
      (hclasses _).mpr ⟨names, rfl, by rw [hdata]; exact Option.some_ne_none data⟩
    obtain ⟨w, hw, hyields, -⟩ := exists_of_forall₂ hworks.flip hr
    refine ⟨w, hw, ?_⟩
    rw [Work.file, hyields.name_eq]
    exact hback
  refine ⟨t₁, i, hemptied, hi, touched_of_filled hs₁ hfilled, ?_⟩
  cases hfilled with
  | nothing =>
    refine ⟨fun hdata => ?_, fun _ _ => rfl⟩
    obtain ⟨w, hw, -⟩ := hthere hdata
    cases hw
  | stored hne hmakes hstores =>
    rename_i t₂ b left
    constructor
    · intro names data hdata
      obtain ⟨w, hw, rfl⟩ := hthere hdata
      obtain ⟨data', hdata', hrename⟩ := hwork w hw
      cases hdata.symm.trans hdata'
      refine ⟨b, w.bytes, hmakes.reaches, hrename, fileAt?_eq_some_iff.mpr ?_⟩
      exact hstores.file w.file (List.mem_map_of_mem hw)
    · intro o names ho hnone
      have hother : ∀ file ∈ works.map Work.file, o ++ names ≠ b ++ file.1 := by
        intro file hfile heq
        obtain ⟨w, hw, rfl⟩ := List.mem_map.mp hfile
        obtain ⟨data, hdata, -⟩ := hwork w hw
        rw [hmakes.reaches.unique ho] at heq
        rw [List.append_cancel_left heq, hdata] at hnone
        cases hnone
      rw [hstores.fileAt?_eq hother, hmakes.adds.fileAt?_eq]

theorem delivered_of_run {report : Report × Nat} (hs : Settled t input output)
    (htidy : ∀ {i names data}, t.Reaches [] input.segments i → classIn? t i names = some data →
      Tidy names)
    (hempty : changes.isEmpty = true) (hclean : config.clean = false)
    (h : run config newNames input changes output t = .ok report t') : Touched t t' output ∧
      ∃ i, t.Reaches [] input.segments i ∧ Delivered newNames output (classIn? t i) t t' := by
  obtain ⟨t₁, i, hemptied, hi, htouched, hdelivered⟩ := delivered_of_full hs hempty h
  rw [hclean, if_neg Bool.false_ne_true] at hemptied
  subst hemptied
  have hproper : properIn? t₁ i = classIn? t₁ i := by
    funext names
    cases hclass : classIn? t₁ i names with
    | none => rw [properIn?, hclass, ite_self]
    | some data => rw [properIn?_of_tidy (htidy hi hclass), hclass]
  rw [hproper] at hdelivered
  exact ⟨htouched, i, hi, hdelivered⟩

end Retarget.Pass
