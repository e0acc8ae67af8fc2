import Retarget.Proofs.Pass.Course
import Retarget.Proofs.Pass.Embedded

/-!
What passes that share an output leave of each other's classes. Emptying is kept
from undoing an earlier pass, deleting is not: the file of a class is there in
the end, as the last pass that processed it left it, exactly if no later input
has it marked as removed. Where links lie below the output, it is there if no
later step hits its file or takes a link away.
-/

set_option autoImplicit false

namespace Retarget

open FileTree

namespace Pass

variable {t t' t₁ : FileTree} {input output : Path} {newNames : Renaming} {verify : Bool}
  {names : Place} {config : PassConfig} {changes : Changes} {name : String} {bytes : Bytes}
  {steps : List (FileTree × Act)} {answer : Report × Nat}

private theorem exists_last_stored (h : name ∈ storedNames steps) :
    ∃ front u input relative w back, steps = front ++ (u, Act.store input relative w) :: back ∧
      w.name = name ∧ name ∉ storedNames back := by
  induction steps with
  | nil => cases h
  | cons step rest ih =>
    by_cases hrest : name ∈ storedNames rest
    · obtain ⟨front, u, input, relative, w, back, rfl, hname, hlast⟩ := ih hrest
      exact ⟨step :: front, u, input, relative, w, back, rfl, hname, hlast⟩
    · obtain ⟨u, input, relative, w, hmem, hname⟩ := mem_storedNames.mp h
      rcases List.mem_cons.mp hmem with heq | hmem
      · exact ⟨[], u, input, relative, w, rest, by rw [heq]; rfl, hname, hrest⟩
      · exact absurd (mem_storedNames.mpr ⟨u, input, relative, w, hmem, hname⟩) hrest

private theorem fileAfter_of_ne (h : ∀ step ∈ steps, step.2.place ≠ names) (file : Option Bytes) :
    fileAfter steps names file = file := by
  induction steps with
  | nil => rfl
  | cons step rest ih =>
    obtain ⟨hfirst, hrest⟩ := List.forall_mem_cons.mp h
    rw [fileAfter_cons, if_neg hfirst]
    exact ih hrest

private theorem fileAfter_eq_none
    (hdelete : ∀ step ∈ steps, step.2.place = names → step.2.leaves = none)
    (h : ∃ step ∈ steps, step.2.place = names) (file : Option Bytes) :
    fileAfter steps names file = none := by
  induction steps generalizing file with
  | nil =>
    obtain ⟨step, hstep, -⟩ := h
    cases hstep
  | cons step rest ih =>
    obtain ⟨hfirst, hlater⟩ := List.forall_mem_cons.mp hdelete
    rw [fileAfter_cons]
    by_cases hrest : ∃ step ∈ rest, step.2.place = names
    · exact ih hlater hrest _
    · have hplace : step.2.place = names := by
        obtain ⟨step', hstep', hplace⟩ := h
        rcases List.mem_cons.mp hstep' with rfl | hstep'
        · exact hplace
        · exact absurd ⟨step', hstep', hplace⟩ hrest
      push Not at hrest
      rw [if_pos hplace, hfirst hplace, fileAfter_of_ne hrest]

private theorem course_of_pass (hclean : config.clean = false)
    (h : run config newNames input changes output t = .ok answer t') :
    output.isEmpty = false ∧ ∃ deletions stores,
      Course config.verify newNames output t (deletions ++ stores) t' ∧
      (∀ step ∈ deletions, step.2.name? = none) ∧
      (∀ names, (∃ step ∈ deletions, step.2.place = names) ↔ Marks changes input names .removed) ∧
      (∀ step ∈ stores, ∃ r w, step.2 = .store input r w) ∧
      ∀ name, name ∈ answer.1.processed ↔ name ∈ storedNames stores := by
  obtain ⟨hcheck, plan, t₁, deletions, stores, hplan, hemptied, hcourse, hacts, hstores, hnames, -⟩ :=
    course_of_run h
  obtain ⟨hinput, houtput⟩ := isEmpty_of_checkApart hcheck
  rw [hclean, Bool.and_false, if_neg Bool.false_ne_true] at hemptied
  subst hemptied
  have hdeletion : ∀ act, act ∈ deletions.map Prod.snd ↔ ∃ r ∈ plan.removed, .delete r = act := by
    intro act
    rw [hacts, List.mem_map]
  refine ⟨houtput, deletions, stores, hcourse, ?_, fun names => ?_, ?_, fun name => hnames.mem_iff⟩
  · intro step hstep
    obtain ⟨r, -, hact⟩ := (hdeletion _).mp (List.mem_map_of_mem hstep)
    rw [← hact]
    rfl
  · rw [← removed_iff_marks hinput hplan]
    constructor
    · rintro ⟨step, hstep, hplace⟩
      obtain ⟨r, hr, hact⟩ := (hdeletion _).mp (List.mem_map_of_mem hstep)
      rw [← hact] at hplace
      exact ⟨r, hr, hplace⟩
    · rintro ⟨r, hr, hplace⟩
      obtain ⟨step, hstep, hact⟩ := List.mem_map.mp ((hdeletion (.delete r)).mpr ⟨r, hr, rfl⟩)
      refine ⟨step, hstep, ?_⟩
      rw [hact]
      exact hplace
  · intro step hstep
    obtain ⟨r, -, w, hact⟩ := exists_of_forall₂ hstores hstep
    exact ⟨r, w, hact⟩

private theorem changed_of_processed (hne : changes.isEmpty = false)
    (h : run config newNames input changes output t = .ok answer t')
    (hname : name ∈ answer.1.processed) :
    ∃ change ∈ changes.toList, change.2 = .added ∨ change.2 = .changed := by
  obtain ⟨plan, hplan, hnames⟩ := processed_perm h
  obtain ⟨r, hr, -⟩ := List.mem_map.mp (hnames.mem_iff.mp hname)
  have hprocess : .process r ∈ plan.choices := Laid.mem_classes.mp hr
  have hchoices := (Plan.choices_of_makeIn hne hplan).2
  obtain ⟨⟨path, status⟩, hmem, hchoice⟩ := (mem_iff_of_mapM hchoices).mp hprocess
  obtain ⟨relative, -, hchooses⟩ := chooses_of_ofChange hchoice
  refine ⟨(path, status), hmem, ?_⟩
  dsimp only at hchooses ⊢
  cases hchooses with
  | process hstatus => exact hstatus
  | left hstatus => exact hstatus

private theorem found_or_gone (ht : t.Rooted) (houtput : output.isEmpty = false)
    (hlinkless : t.LinklessBelow output) (hname : ClassPath.isWellFormed name = true)
    (hstore : ClassFile.store bytes (ClassPath.pathOf output name) t = .ok () t₁)
    (h : Course verify newNames output t₁ steps t') (hlast : name ∉ storedNames steps) :
    ((∀ step ∈ steps, step.2.place ≠ ClassPath.placeOf name) →
      ∃ q, t'.lookup true (ClassPath.pathOf output name) = .ok (q, .file bytes)) ∧
    ((∃ step ∈ steps, step.2.place = ClassPath.placeOf name) →
      t'.isFile (ClassPath.pathOf output name) = false) := by
  obtain ⟨⟨hsay, hshort⟩, t₂, o, left, hmakes, hstores⟩ :=
    (store_work_iff (w := ⟨name, ⟨0, 0⟩, bytes⟩) ht houtput hlinkless hname).mp hstore
  dsimp only [Work.file] at hsay hshort hstores
  have htouched : Touched t t₁ output := .of_stored ht hlinkless hmakes hstores
  have hlinkless₁ := htouched.links.linklessBelow hlinkless
  have hmade := (Touched.of_makes ht hmakes).links.linklessBelow hlinkless
  have hopen : t₁.Opens linkLimit [] output.segments o left :=
    hmakes.opens.mono (hstores.carries (hmade o hmakes.opens.reaches))
  have hfile : t₁.fileAt? (o ++ ClassPath.placeOf name) = some bytes :=
    fileAt?_eq_some_iff.mpr (hstores.file _ List.mem_cons_self)
  have hcourse := h.touched htouched.rooted houtput hlinkless₁
  have hopen' : t'.Opens linkLimit [] output.segments o left := hopen.mono hcourse.carries
  have hafter := h.fileAt? htouched.rooted houtput hlinkless₁ hopen.reaches (.inl ⟨left, hopen⟩)
    (ClassPath.placeOf name)
  rw [hfile] at hafter
  have hlinkless' := hcourse.links.linklessBelow hlinkless₁
  have hnames := ClassPath.isName_placeOf hname
  have hne : ClassPath.placeOf name ≠ [] := append_singleton_ne_nil _ _
  rw [ClassPath.pathOf_eq output hname] at hsay ⊢
  constructor
  · intro hmiss
    rw [fileAfter_of_ne hmiss] at hafter
    refine ⟨o ++ ClassPath.placeOf name, ?_⟩
    apply (lookup_join_file_iff hcourse.rooted houtput hlinkless' hnames hne).mpr
    exact ⟨hsay, hshort, o, left, hopen', rfl, fileAt?_eq_some_iff.mp hafter⟩
  · intro hhit
    rw [fileAfter_eq_none _ hhit] at hafter
    · apply Bool.eq_false_iff.mpr
      intro hfound
      obtain ⟨q, content, hfound⟩ := isFile_iff.mp hfound
      obtain ⟨-, -, o', left', ho', -, hat⟩ :=
        (lookup_join_file_iff hcourse.rooted houtput hlinkless' hnames hne).mp hfound
      obtain ⟨rfl, rfl⟩ := hopen'.unique ho'
      cases hafter.symm.trans (fileAt?_eq_some_iff.mpr hat)
    · intro step hstep hplace
      exact Act.leaves_of_name? (name?_of_place hlast hstep hplace)

end Pass

namespace Embedding

open Pass

variable {t t' s : FileTree} {e : Embedding} {pass : PassConfig} {newNames : Renaming}
  {inputs : List Input} {output : Path} {report : Report} {warnings : Nat}
  {answer : Report × Nat} {name : String}

private theorem course_of_runInputs (hclean : pass.clean = false)
    (h : runInputs pass newNames output inputs report warnings t = .ok answer t') :
    ∃ steps, Course pass.verify newNames output t steps t' ∧
      (∀ name, name ∈ answer.1.processed ↔ name ∈ report.processed ∨ name ∈ storedNames steps) ∧
      ∀ names, (∃ step ∈ steps, step.2.name? = none ∧ step.2.place = names) ↔
        ∃ input ∈ inputs, Marks input.changes input.root names .removed := by
  induction inputs generalizing t report warnings with
  | nil =>
    cases h
    exact ⟨[], .done, by simp [storedNames], by simp⟩
  | cons input rest ih =>
    rw [runInputs] at h
    obtain ⟨⟨next, more⟩, t₁, hrun, hruns⟩ := bind_ok_iff.mp h
    obtain ⟨-, deletions, stores, hcourse, hdeletions, hmarks, hstores, hnames⟩ :=
      course_of_pass hclean hrun
    obtain ⟨steps, hcourse', hnames', hmarks'⟩ := ih hruns
    refine ⟨deletions ++ stores ++ steps, hcourse.append hcourse', fun name => ?_, fun names => ?_⟩
    · have hnone : storedNames deletions = [] := List.filterMap_eq_nil_iff.mpr hdeletions
      have hstored : storedNames (deletions ++ stores ++ steps) =
          storedNames stores ++ storedNames steps := by
        rw [storedNames, List.filterMap_append, List.filterMap_append, ← storedNames,
          ← storedNames, ← storedNames, hnone, List.nil_append]
      rw [hnames', hstored, Report.append, Report.sortNames, List.mem_mergeSort, List.mem_append,
        List.mem_append, hnames, or_assoc]
    · rw [List.exists_mem_cons_iff, ← hmarks, ← hmarks']
      constructor
      · rintro ⟨step, hstep, hdelete, hplace⟩
        rcases List.mem_append.mp hstep with hstep | hstep
        · rcases List.mem_append.mp hstep with hstep | hstep
          · exact .inl ⟨step, hstep, hplace⟩
          · obtain ⟨r, w, hact⟩ := hstores step hstep
            rw [hact] at hdelete
            cases hdelete
        · exact .inr ⟨step, hstep, hdelete, hplace⟩
      · rintro (⟨step, hstep, hplace⟩ | ⟨step, hstep, hdelete, hplace⟩)
        · exact ⟨step, List.mem_append_left _ (List.mem_append_left _ hstep),
            hdeletions step hstep, hplace⟩
        · exact ⟨step, List.mem_append_right _ hstep, hdelete, hplace⟩

/-- Passes over inputs around the last one of them that processes some class. -/
structure LastPass (pass : PassConfig) (newNames : Renaming) (inputs : List Input) (output : Path)
    (s t' : FileTree) (name : String) where
  before : List Input
  input : Input
  after : List Input
  inputs_eq : inputs = before ++ input :: after
  /-- What the passes before that one tell, and the tree that they leave. -/
  earlier : Report × Nat
  left : FileTree
  /-- What the pass itself tells, and the tree that it leaves. -/
  own : Report × Nat
  done : FileTree
  later : Report × Nat
  runs_before : runInputs pass newNames output before .empty 0 s = .ok earlier left
  runs : Pass.run pass newNames input.root input.changes output left = .ok own done
  runs_after : runInputs pass newNames output after .empty 0 done = .ok later t'
  processed : name ∈ own.1.processed
  not_later : name ∉ later.1.processed

private theorem LastPass.mem {s : FileTree}
    (last : LastPass pass newNames inputs output s t' name) :
    last.input ∈ inputs := by
  have hmem : last.input ∈ last.before ++ last.input :: last.after :=
    List.mem_append_right _ List.mem_cons_self
  rw [← last.inputs_eq] at hmem
  exact hmem

private theorem exists_lastPass
    (h : runInputs pass newNames output inputs .empty 0 t = .ok answer t')
    (hname : name ∈ answer.1.processed) :
    Nonempty (LastPass pass newNames inputs output t t' name) := by
  induction inputs generalizing t answer with
  | nil =>
    cases h
    cases hname
  | cons input rest ih =>
    rw [runInputs] at h
    obtain ⟨⟨next, more⟩, t₁, hrun, hruns⟩ := bind_ok_iff.mp h
    obtain ⟨names, deleted, htold⟩ := told_of_runInputs hruns
    obtain ⟨later, hlater, hnames, -⟩ := htold .empty 0
    by_cases hmem : name ∈ later.1.processed
    · obtain ⟨last⟩ := ih hlater hmem
      obtain ⟨_, _, htold'⟩ := told_of_runInputs last.runs_before
      obtain ⟨earlier, hearlier, -⟩ := htold' (Report.empty.append next) (0 + more)
      exact ⟨{ last with
        before := input :: last.before
        inputs_eq := congrArg (input :: ·) last.inputs_eq
        earlier := earlier
        runs_before := bind_ok_iff.mpr ⟨(next, more), t₁, hrun, hearlier⟩ }⟩
    · have hnext : name ∈ next.processed := by
        obtain ⟨answer', hanswer', hnames', -⟩ := htold (Report.empty.append next) (0 + more)
        cases hruns.symm.trans hanswer'
        rcases (hnames' name).mp hname with hnext | hrest
        · rw [Report.append, Report.sortNames, List.mem_mergeSort] at hnext
          exact hnext
        · exact absurd ((hnames name).mpr (.inr hrest)) hmem
      exact ⟨⟨[], input, rest, rfl, (.empty, 0), t, (next, more), t₁, later, rfl, hrun, hlater, hnext,
        hmem⟩⟩

/-- The last time that some class is stored when inputs are embedded: what comes after that stores
other classes, and deletes what later inputs have marked as removed. -/
structure LastStored (e : Embedding) (inputs : List Input) (output : Path) (s t' : FileTree)
    (name : String) extends LastPass e.eachPass e.newNames inputs output s t' name,
      Handling e.pass.verify e.newNames input.root output s t' name where
  last : name ∉ storedNames rest
  deletes : ∀ names, (∃ step ∈ rest, step.2.name? = none ∧ step.2.place = names) ↔
    ∃ later ∈ after, Marks later.changes later.root names .removed

private theorem exists_lastStored (h : runInputs e.eachPass e.newNames output inputs .empty 0 s =
    .ok answer t') (hname : name ∈ answer.1.processed) :
    Nonempty (LastStored e inputs output s t' name) := by
  obtain ⟨pass⟩ := exists_lastPass h hname
  obtain ⟨before, hbefore, -⟩ := course_of_runInputs rfl pass.runs_before
  obtain ⟨-, deletions, stores, hown, -, -, hstores, hnames⟩ := course_of_pass rfl pass.runs
  obtain ⟨after, hafter, hlater, hdeletes⟩ := course_of_runInputs rfl pass.runs_after
  obtain ⟨front, u, input, relative, w, back, rfl, rfl, hlast⟩ :=
    exists_last_stored ((hnames name).mp pass.processed)
  obtain ⟨r, w', hact⟩ := hstores _ (List.mem_append_right front List.mem_cons_self)
  cases hact
  have hwhole := (hbefore.append hown).append hafter
  rw [← List.append_assoc deletions, ← List.append_assoc before, List.append_assoc _ _ after,
    List.cons_append] at hwhole
  obtain ⟨done, -, hrest⟩ := exists_handling hwhole
  refine ⟨⟨pass, done, ?_, fun names => ?_⟩⟩
  · rw [hrest, storedNames, List.filterMap_append, List.mem_append]
    rintro (hmem | hmem)
    · exact hlast hmem
    · exact pass.not_later ((hlater _).mpr (.inr hmem))
  · rw [← hdeletes, hrest]
    constructor
    · rintro ⟨step, hstep, hdelete, hplace⟩
      rcases List.mem_append.mp hstep with hstep | hstep
      · obtain ⟨r', w', hact⟩ := hstores step
          (List.mem_append_right front (List.mem_cons_of_mem _ hstep))
        rw [hact] at hdelete
        cases hdelete
      · exact ⟨step, hstep, hdelete, hplace⟩
    · rintro ⟨step, hstep, hrest⟩
      exact ⟨step, List.mem_append_right back hstep, hrest⟩

namespace LastStored

variable (last : LastStored e inputs output s t' name)

private theorem hit_iff : (∃ step ∈ last.rest, step.2.place = ClassPath.placeOf name) ↔
    ∃ later ∈ last.after, Marks later.changes later.root (ClassPath.placeOf name) .removed := by
  rw [← last.deletes]
  constructor
  · rintro ⟨step, hstep, hplace⟩
    exact ⟨step, hstep, name?_of_place last.last hstep hplace, hplace⟩
  · rintro ⟨step, hstep, -, hplace⟩
    exact ⟨step, hstep, hplace⟩

private theorem kept (hs : s.Rooted) (houtput : output.isEmpty = false)
    (hlinkless : s.LinklessBelow output) :
    ((∀ later ∈ last.after, ¬ Marks later.changes later.root (ClassPath.placeOf name) .removed) →
      ∃ q, t'.lookup true (ClassPath.pathOf output name) = .ok (q, .file last.bytes)) ∧
    ((∃ later ∈ last.after, Marks later.changes later.root (ClassPath.placeOf name) .removed) →
      t'.isFile (ClassPath.pathOf output name) = false) := by
  have hread := last.course_front.touched hs houtput hlinkless
  obtain ⟨hfound, hgone⟩ := found_or_gone hread.rooted houtput
    (hread.links.linklessBelow hlinkless) last.wellFormed last.store last.course_rest last.last
  rw [last.hit_iff] at hgone
  refine ⟨fun hmarks => hfound fun step hstep hplace => ?_, hgone⟩
  obtain ⟨later, hlater, hmark⟩ := last.hit_iff.mp ⟨step, hstep, hplace⟩
  exact hmarks later hlater hmark

end LastStored

/-- Every class that embedding tells of was stored by the pass over some input, the last one that
processed it, and from what this input held in the beginning, if it lies apart from the output. The
file is still there unless a later step hits it. Where no links lie below the output, this is to say
that it is still there unless a later input has it marked as removed, and then it is gone. -/
theorem kept_unless_removed (ht : t.Rooted) (h : e.run inputs output t = .ok answer t')
    (hname : name ∈ answer.1.processed) :
    ∃ s, e.Starts inputs output t s ∧ ∃ last : LastStored e inputs output s t' name,
      ((∀ step ∈ last.rest, ¬ Hits output step.1 last.place step.2) →
        t'.lookup true (ClassPath.pathOf output name) = .ok (last.place, .file last.bytes)) ∧
      (t.LinklessBelow output →
        ((∀ later ∈ last.after,
            ¬ Marks later.changes later.root (ClassPath.placeOf name) .removed) →
          ∃ q, t'.lookup true (ClassPath.pathOf output name) = .ok (q, .file last.bytes)) ∧
        ((∃ later ∈ last.after,
            Marks later.changes later.root (ClassPath.placeOf name) .removed) →
          t'.isFile (ClassPath.pathOf output name) = false)) ∧
      (Settled t last.input.root output → ∃ i, t.Reaches [] last.input.root.segments i ∧
        t.fileAt? (i ++ ClassPath.placeOf name) = some last.data) := by
  obtain ⟨hall, s, hstarts, hruns⟩ := run_steps h
  obtain ⟨_, _, htold⟩ := told_of_runInputs hruns
  obtain ⟨told, htold', hnames, -⟩ := htold { Report.empty with fullRebuild := true } 0
  cases hruns.symm.trans htold'
  obtain ⟨own, hown, hnames', -⟩ := htold .empty 0
  obtain ⟨last⟩ := exists_lastStored hown ((hnames' name).mpr ((hnames name).mp hname))
  obtain ⟨hroot, houtput⟩ := isEmpty_of_checkApart (hall last.input last.mem)
  refine ⟨s, hstarts, last, last.toHandling.stays_found, ?_, ?_⟩
  · intro hlinkless
    obtain ⟨hs, hlinks, -⟩ := hstarts.kept ht hlinkless
    exact last.kept hs houtput (hlinks.linklessBelow hlinkless)
  · intro hsettled
    obtain ⟨hs, hlinks, hsame⟩ := hstarts.kept ht hsettled.linklessOutput
    obtain ⟨i, hi, hfile⟩ := Handling.data_eq (hsettled.of_sameLinks hs hlinks) houtput hroot
      last.toHandling
    have hi' : t.Reaches [] last.input.root.segments i := hlinks.reaches_iff.mp hi
    refine ⟨i, hi', ?_⟩
    rw [← hfile]
    apply (fileAt?_congr (hsame _ _)).symm
    rintro o ho ⟨names, heq⟩
    exact hsettled.ne_of_reaches hi' ho _ names heq.symm

section Sample

def lostInput : Input := ⟨⟨["app"]⟩, .ofList [(⟨["A.class"]⟩, .removed)]⟩

private theorem toList_lost :
    lostInput.changes.toList = [(⟨["A.class"]⟩, .removed)] := by decide +kernel

def movedInputs : List Input := [⟨⟨["lib"]⟩, .empty⟩, lostInput]

private theorem LastPass.of_moved {s : FileTree}
    (last : LastPass pass newNames movedInputs output s t' name) :
    last.input.root = ⟨["lib"]⟩ ∧ last.after = [lostInput] := by
  have hinputs : [⟨⟨["lib"]⟩, .empty⟩, lostInput] = last.before ++ last.input :: last.after :=
    last.inputs_eq
  cases hbefore : last.before with
  | nil =>
    rw [hbefore, List.nil_append] at hinputs
    obtain ⟨hinput, hafter⟩ := List.cons.inj hinputs
    exact ⟨congrArg Input.root hinput.symm, hafter.symm⟩
  | cons first rest =>
    rw [hbefore, List.cons_append] at hinputs
    obtain ⟨-, hrest⟩ := List.cons.inj hinputs
    have hmem : last.input ∈ rest ++ last.input :: last.after :=
      List.mem_append_right _ List.mem_cons_self
    rw [← hrest, List.mem_singleton] at hmem
    have hruns := last.runs
    rw [hmem] at hruns
    obtain ⟨change, hchange, hstatus⟩ :=
      changed_of_processed (by decide +kernel) hruns last.processed
    rw [toList_lost, List.mem_singleton] at hchange
    subst hchange
    rcases hstatus with hstatus | hstatus
    all_goals cases hstatus

private theorem processed_of_moved
    (h : embedding.run movedInputs ⟨["out"]⟩ embedSample = .ok answer t') :
    ∀ name ∈ ["A", "B"], name ∈ answer.1.processed := by
  obtain ⟨-, s, hstarts, hruns⟩ := run_steps h
  have hagain : (movedInputs.all (fun input => input.changes.isEmpty) && embedding.pass.clean) =
      false := by decide +kernel
  rw [Starts, hagain, if_neg Bool.false_ne_true] at hstarts
  subst hstarts
  rw [movedInputs, runInputs] at hruns
  obtain ⟨⟨next, more⟩, t₁, hrun, hruns⟩ := bind_ok_iff.mp hruns
  obtain ⟨plan, hplan, hnames⟩ := processed_perm hrun
  obtain ⟨steps, -, htold, -⟩ := course_of_runInputs rfl hruns
  have hclasses : (Plan.make embedSample ⟨["lib"]⟩ .empty).toOption.map Plan.classes =
      some [⟨["A.class"]⟩, ⟨["B.class"]⟩] := by decide +kernel
  rw [hplan] at hclasses
  have hplanned : plan.classes = [⟨["A.class"]⟩, ⟨["B.class"]⟩] := Option.some.inj hclasses
  intro name hname
  apply (htold name).mpr
  left
  rw [Report.append, Report.sortNames, List.mem_mergeSort]
  apply List.mem_append_right
  apply hnames.mem_iff.mpr
  rw [hplanned]
  exact hname

/-- Both classes of the first input are told of. The file of the one is there, but that of the other
is gone. -/
theorem kept_movedSample : ∃ answer t',
    embedding.run movedInputs ⟨["out"]⟩ embedSample = .ok answer t' ∧
    "A" ∈ answer.1.processed ∧ "B" ∈ answer.1.processed ∧
    t'.isFile (ClassPath.pathOf ⟨["out"]⟩ "A") = false ∧
    ∃ q, t'.lookup true (ClassPath.pathOf ⟨["out"]⟩ "B") = .ok (q, .file (sampleClass 66 52)) := by
  have hrooted : embedSample.Rooted := .of_all (by decide +kernel)
  have hlaid := laid_embedSample ⟨⟨["lib"]⟩, .empty⟩ List.mem_cons_self
  have hlinkless : embedSample.LinklessBelow ⟨["out"]⟩ := fun _ _ _ _ => hlaid.plain.noLink
  have hdone : ((embedding.run movedInputs ⟨["out"]⟩).run' embedSample).isSome = true := by
    decide +kernel
  obtain ⟨answer, t', hrun⟩ := ok_of_run' hdone
  have hA := processed_of_moved hrun "A" List.mem_cons_self
  have hB := processed_of_moved hrun "B" (List.mem_cons_of_mem _ List.mem_cons_self)
  refine ⟨answer, t', hrun, hA, hB, ?_, ?_⟩
  · obtain ⟨s, -, last, -, hkept, -⟩ := kept_unless_removed hrooted hrun hA
    apply (hkept hlinkless).2
    rw [last.of_moved.2]
    exact ⟨_, List.mem_singleton_self _, by decide +kernel⟩
  · obtain ⟨s, -, last, -, hkept, hdata⟩ := kept_unless_removed hrooted hrun hB
    obtain ⟨hroot, hafter⟩ := last.of_moved
    have hsettled : Settled embedSample last.input.root ⟨["out"]⟩ := by
      rw [hroot]
      exact hlaid.settled hrooted
    obtain ⟨i, hi, hfile⟩ := hdata hsettled
    rw [hroot] at hi
    rw [hi.unique (hlaid.reaches ⟨["lib"]⟩)] at hfile
    have hheld : embedSample.fileAt? ["lib", "B.class"] = some (sampleClass 66 52) := by
      decide +kernel
    have hbytes : last.bytes = sampleClass 66 52 := by
      have hrenamed := last.renamed
      rw [← Option.some.inj (hheld.symm.trans hfile)] at hrenamed
      have hsame : ClassFile.renameBytes embedding.newNames (sampleClass 66 52) =
          .ok (sampleClass 66 52) := by decide +kernel
      exact Except.ok.inj (hrenamed.symm.trans hsame)
    rw [← hbytes]
    apply (hkept hlinkless).1
    rw [hafter]
    intro later hlater
    rw [List.mem_singleton.mp hlater]
    decide +kernel

end Sample

end Embedding

end Retarget
