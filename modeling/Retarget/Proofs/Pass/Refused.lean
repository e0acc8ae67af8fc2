import Retarget.Proofs.ClassFile.Stopped
import Retarget.Proofs.Pass.Course
import Retarget.Proofs.Pass.Embedded

/-!
What a misconfiguration leaves behind. A pass finds out about overlapping roots
and about recorded changes outside its input before it touches anything. But
embedding asks all inputs only whether they overlap the output; about a change
outside its input it finds out when the passes over the inputs before that one
are done. So what these left is there, and nothing is touched if they had
nothing to do.
-/

set_option autoImplicit false

namespace Retarget

open FileTree

variable {t t' : FileTree} {cp cp' : ClassPath} {name : String} {newNames : Renaming}
  {input output relative : Path} {fault : Fault} {problem : Misconfiguration} {changes : Changes}
  {config : PassConfig}

private theorem Fault.asClassLoad_ne (path : Path) (fault : Fault) :
    fault.asClassLoad path ≠ .configuration problem := by
  cases fault <;> exact Fault.noConfusion

private theorem ClassPath.load_error_ne (h : load t name cp = .error fault cp') :
    fault ≠ .configuration problem := by
  rw [load] at h
  split at h
  · cases h
    exact Fault.asClassLoad_ne _ _
  · split at h
    · cases h
      exact Fault.asClassLoad_ne _ _
    · split at h
      · split at h
        · cases h
          exact Fault.asClassLoad_ne _ _
        · cases h
      · cases h

private theorem ClassFile.store_error_ne {bytes : Bytes} {path : Path}
    (h : store bytes path t = .error fault t') : fault ≠ .configuration problem := by
  have hfinish : ∀ {t₁ : FileTree}, store.finish bytes path t₁ = .error fault t' →
      fault ≠ .configuration problem := by
    intro t₁ hfinish
    rw [store.finish] at hfinish
    split at hfinish
    · cases hfinish
    · cases hfinish
      exact Fault.noConfusion
  rw [store] at h
  split at h
  · exact hfinish h
  · split at h
    · exact hfinish h
    · cases h
      exact Fault.noConfusion

namespace Pass

variable {found : List String} {tally : Tally} {relatives removed : List Path}

private theorem processClass_error_ne
    (h : processClass newNames output relative cp t = .error fault t') :
    fault ≠ .configuration problem := by
  rw [processClass] at h
  cases hload : ClassPath.load t relative.binaryName cp with
  | error fault' cp₁ =>
    rw [hload] at h
    cases h
    exact ClassPath.load_error_ne hload
  | ok c cp₁ =>
    obtain ⟨path, data, -, -, hparsed, -⟩ := load_steps hload
    rw [hload] at h
    simp only at h
    cases hrename : c.rename newNames with
    | error fault' c' =>
      obtain ⟨⟨cause, hcause, -⟩, -⟩ := ClassFile.rename_stopped hparsed hrename
      rw [hrename] at h
      cases h
      rw [hcause]
      exact Fault.noConfusion
    | ok tally c' =>
      rw [hrename] at h
      simp only at h
      cases hbytes : c'.toBytes with
      | error fault' =>
        rw [hbytes] at h
        cases h
        exact Fault.noConfusion
      | ok bytes =>
        rw [hbytes] at h
        simp only at h
        split at h
        · cases h
        · next hstore =>
          cases h
          exact ClassFile.store_error_ne hstore

private theorem processClasses_error_ne
    (h : processClasses newNames output relatives found tally cp t = .error fault t') :
    fault ≠ .configuration problem := by
  induction relatives generalizing t found tally cp with
  | nil => cases h
  | cons r rest ih =>
    rw [processClasses] at h
    split at h
    · exact ih h
    · next hprocess =>
      cases h
      exact processClass_error_ne hprocess

private theorem deleteOutputs_error_ne (h : deleteOutputs output removed t = .error fault t') :
    fault ≠ .configuration problem := by
  induction removed generalizing t with
  | nil => cases h
  | cons r rest ih =>
    rcases deleteOutputs_cons_error h with ⟨t₁, -, hrest⟩ | ⟨-, hrest⟩ | ⟨rfl, -⟩
    · exact ih hrest
    · exact ih hrest
    · exact Fault.noConfusion

private theorem emptyOutput_error_ne (h : emptyOutput output t = .error fault t') :
    fault ≠ .configuration problem := by
  rw [emptyOutput] at h
  split at h
  · cases h
    exact Fault.noConfusion
  · split at h
    · cases h
    · cases h
      exact Fault.noConfusion

private theorem ofPlace_error_ne {place : Place} (h : Plan.ofPlace t input place = .error fault) :
    fault ≠ .configuration problem := by
  simp only [Plan.ofPlace] at h
  split at h
  · cases h
    exact Fault.noConfusion
  · cases h

private theorem ofTree_error_ne (h : Plan.ofTreeIn t [] input = .error fault) :
    fault ≠ .configuration problem := by
  rw [Plan.ofTreeIn] at h
  split at h
  · cases h
    exact Fault.noConfusion
  · cases h
  · exact ofPlace_error_ne h
  · split at h
    · cases h
      exact Fault.noConfusion
    · next place _ =>
      cases hplace : Plan.ofPlace t input place with
      | error fault' =>
        rw [hplace] at h
        cases h
        exact ofPlace_error_ne hplace
      | ok choices =>
        rw [hplace] at h
        cases h
    · cases h

private theorem make_misconfigured
    (h : Plan.make t input changes = .error (.configuration problem)) :
    ∃ change ∈ changes.toList, Plan.relative input change.1 = .error (.configuration problem) := by
  cases hempty : changes.isEmpty with
  | true =>
    rw [Plan.make, Plan.makeIn, if_pos hempty] at h
    cases htree : Plan.ofTreeIn t [] input with
    | error fault =>
      rw [htree] at h
      cases h
      exact absurd rfl (ofTree_error_ne htree)
    | ok choices =>
      rw [htree] at h
      cases h
  | false =>
    obtain ⟨⟨path, status⟩, hmem, hchange⟩ := Plan.error_of_makeIn hempty h
    refine ⟨(path, status), hmem, ?_⟩
    rw [Plan.ofChangeIn] at hchange
    cases hrelative : Plan.relative input path with
    | error fault =>
      rw [hrelative] at hchange
      cases hchange
      rfl
    | ok relative =>
      rw [hrelative] at hchange
      cases status with
      | removed | unchanged => cases hchange
      | added | changed =>
        simp only [bind, Except.bind, Plan.ofFound.eq_def] at hchange
        split at hchange
        all_goals cases hchange

/-- A pass that is refused for its configuration has touched nothing: its roots overlap, or one of
its changes names no file below the input. -/
theorem misconfigured_of_run
    (h : run config newNames input changes output t = .error (.configuration problem) t') :
    t' = t ∧ (checkApart t input output = .error (.configuration problem) ∨
      ∃ change ∈ changes.toList, Plan.relative input change.1 = .error (.configuration problem)) := by
  rw [run] at h
  rcases bind_error_iff.mp h with hget | ⟨t₀, t₁, hget, hchecked⟩
  · cases hget
  cases hget
  rcases bind_error_iff.mp hchecked with happart | ⟨u, t₁, happart, hplanned⟩
  · obtain ⟨hcheck, rfl⟩ := ofExcept_error happart
    exact ⟨rfl, .inl hcheck⟩
  obtain ⟨-, rfl⟩ := ofExcept_ok happart
  rcases bind_error_iff.mp hplanned with hmake | ⟨plan, t₁, hmake, hrest⟩
  · obtain ⟨hplan, rfl⟩ := ofExcept_error hmake
    exact ⟨rfl, .inr (make_misconfigured hplan)⟩
  -- what comes after the plan fails for other reasons
  exfalso
  have hdone : ∀ {s : FileTree}, ((do
      let deleted ← deleteOutputs output plan.removed
      let found ← processClasses newNames output plan.classes [] ⟨0, 0⟩
        (ClassPath.new input config.verify)
      return ((⟨Report.sortNames found.1, deleted, found.2.renamed, plan.ignored,
        plan.fullRebuild⟩ : Report), plan.warnings + found.2.warnings)) : Step (Report × Nat)) s ≠
        .error (.configuration problem) t' := by
    intro s hdone
    rcases bind_error_iff.mp hdone with hdelete | ⟨deleted, t₂, -, hprocess⟩
    · exact deleteOutputs_error_ne hdelete rfl
    · rcases bind_error_iff.mp hprocess with hprocess | ⟨found, t₃, -, hreport⟩
      · exact processClasses_error_ne hprocess rfl
      · cases hreport
  dsimp only at hrest
  split_ifs at hrest with hclean
  · rcases bind_error_iff.mp hrest with hempty | ⟨u, s, -, hrest⟩
    · exact emptyOutput_error_ne hempty rfl
    · exact hdone hrest
  · exact hdone hrest

section Idle

variable {answer : Report × Nat} {deleted : List Path}

private theorem eq_of_deleteOutputs (h : deleteOutputs output removed t = .ok [] t') : t' = t := by
  induction removed generalizing t with
  | nil =>
    cases h
    rfl
  | cons r rest ih =>
    rcases deleteOutputs_cons_ok h with ⟨t₁, more, -, -, htold⟩ | ⟨-, hrest⟩
    · cases htold
    · exact ih hrest

private theorem eq_of_run (hclean : config.clean = false)
    (h : run config newNames input changes output t = .ok answer t')
    (hprocessed : answer.1.processed = []) (hdeleted : answer.1.deleted = []) : t' = t := by
  rw [run_eq_runIn] at h
  obtain ⟨-, plan, t₁, t₂, deleted, found, -, hemptied, hdelete, hprocess, rfl⟩ :=
    runIn_ok_iff.mp h
  rw [hclean, Bool.and_false, if_neg Bool.false_ne_true] at hemptied
  subst hemptied
  dsimp only at hdeleted hprocessed
  rw [hdeleted] at hdelete
  rw [← eq_of_deleteOutputs hdelete]
  obtain ⟨steps, hcourse, hsteps, hnames⟩ :=
    course_of_processClasses (ClassPath.grown_new input config.verify) hprocess
  have hnone : storedNames steps = [] := by
    rw [Report.sortNames, ← List.length_eq_zero_iff, List.length_mergeSort,
      List.length_eq_zero_iff] at hprocessed
    rw [hprocessed, List.append_nil] at hnames
    exact List.reverse_eq_nil_iff.mp hnames.symm
  cases hcourse with
  | done => rfl
  | step hdoes hrest =>
    have hfirst := List.filterMap_eq_nil_iff.mp hnone _ List.mem_cons_self
    exact absurd hfirst (name?_of_forall₂ hsteps _ List.mem_cons_self)

end Idle

end Pass

namespace Embedding

open Pass

variable {e : Embedding} {pass : PassConfig} {inputs : List Input} {report : Report}
  {warnings : Nat} {answer : Report × Nat}

private theorem misconfigured_of_runInputs
    (h : runInputs pass newNames output inputs report warnings t =
      .error (.configuration problem) t') :
    ∃ before input after first, inputs = before ++ input :: after ∧
      runInputs pass newNames output before report warnings t = .ok first t' ∧
      (checkApart t' input.root output = .error (.configuration problem) ∨
        ∃ change ∈ input.changes.toList,
          Plan.relative input.root change.1 = .error (.configuration problem)) := by
  induction inputs generalizing t report warnings with
  | nil => cases h
  | cons input rest ih =>
    rw [runInputs] at h
    rcases bind_error_iff.mp h with hrun | ⟨⟨next, more⟩, t₁, hrun, hruns⟩
    · obtain ⟨rfl, hcause⟩ := misconfigured_of_run hrun
      exact ⟨[], input, rest, (report, warnings), rfl, rfl, hcause⟩
    · obtain ⟨before, refused, after, first, hinputs, hbefore, hcause⟩ := ih hruns
      refine ⟨input :: before, refused, after, first, by rw [hinputs]; rfl, ?_, hcause⟩
      exact bind_ok_iff.mpr ⟨(next, more), t₁, hrun, hbefore⟩

private theorem eq_of_runInputs (hclean : pass.clean = false)
    (h : runInputs pass newNames output inputs report warnings t = .ok answer t')
    (hprocessed : answer.1.processed = []) (hdeleted : answer.1.deleted = []) : t' = t := by
  induction inputs generalizing t report warnings with
  | nil =>
    cases h
    rfl
  | cons input rest ih =>
    rw [runInputs] at h
    obtain ⟨⟨next, more⟩, t₁, hrun, hruns⟩ := bind_ok_iff.mp h
    rw [ih hruns]
    obtain ⟨names, deleted, htold⟩ := told_of_runInputs hruns
    obtain ⟨answer', hanswer', hnames, hpaths⟩ := htold (report.append next) (warnings + more)
    cases hruns.symm.trans hanswer'
    apply eq_of_run hclean hrun
    · apply List.eq_nil_iff_forall_not_mem.mpr
      intro name hname
      have hadded : name ∈ (report.append next).processed := by
        rw [Report.append, Report.sortNames, List.mem_mergeSort]
        exact List.mem_append_right _ hname
      have hmem := (hnames name).mpr (.inl hadded)
      rw [hprocessed] at hmem
      cases hmem
    · rw [hdeleted] at hpaths
      have hnone := (List.append_eq_nil_iff.mp hpaths.symm).1
      exact (List.append_eq_nil_iff.mp hnone).2

/-- Embedding that is refused for its configuration has touched nothing if an input overlaps the
output from the start. Otherwise it is refused at an input that overlaps the output only by then, or
one of whose changes names no file below it, which does not depend on any tree; and what the passes
over the inputs before that one left is there, which is what there was if they had nothing to do. -/
theorem refused (h : e.run inputs output t = .error (.configuration problem) t') :
    (∃ input ∈ inputs, checkApart t input.root output = .error (.configuration problem)) ∧ t' = t ∨
    (∀ input ∈ inputs, checkApart t input.root output = .ok ()) ∧
      ∃ s before input after first, e.Starts inputs output t s ∧
        inputs = before ++ input :: after ∧
        runInputs e.eachPass e.newNames output before { Report.empty with fullRebuild := true } 0 s =
          .ok first t' ∧
        (checkApart t' input.root output = .error (.configuration problem) ∨
          ∃ change ∈ input.changes.toList,
            s = t ∧ Plan.relative input.root change.1 = .error (.configuration problem)) ∧
        (first.1.processed = [] → first.1.deleted = [] → t' = s) := by
  rcases run_error_steps h with hcheck | ⟨hall, hemptied | ⟨s, hstarts, hruns⟩⟩
  · exact .inl hcheck
  · exact absurd rfl (emptyOutput_error_ne hemptied)
  · obtain ⟨before, input, after, first, hinputs, hbefore, hcause⟩ :=
      misconfigured_of_runInputs hruns
    refine .inr ⟨hall, s, before, input, after, first, hstarts, hinputs, hbefore, ?_,
      eq_of_runInputs rfl hbefore⟩
    rcases hcause with hoverlap | ⟨change, hmem, hrelative⟩
    · exact .inl hoverlap
    · refine .inr ⟨change, hmem, ?_, hrelative⟩
      -- where there are changes, not everything is done again
      have hinput : input ∈ inputs := by
        rw [hinputs]
        exact List.mem_append_right _ List.mem_cons_self
      have hchanges : input.changes.isEmpty = false := isEmpty_of_mem_toList hmem
      rw [Starts, if_neg] at hstarts
      · exact hstarts
      · intro hagain
        have hempty := List.all_eq_true.mp (Bool.and_eq_true_iff.mp hagain).1 input hinput
        cases hchanges.symm.trans hempty

section Sample

def strayPath : Path := ⟨["", "else", "B.class"]⟩

def strayInputs : List Input :=
  [⟨⟨["lib"]⟩, .empty⟩, ⟨⟨["app"]⟩, .ofList [(strayPath, .added)]⟩]

def strayAt? (q : Place) : Option (Fault × Option Bytes) :=
  match embedding.run strayInputs ⟨["out"]⟩ embedSample with
  | .ok _ _ => none
  | .error fault t => some (fault, t.fileAt? q)

/-- The second input is refused when the classes of the first one are there already. -/
theorem refused_straySample : ∃ s t' before input after first,
    embedding.run strayInputs ⟨["out"]⟩ embedSample =
      .error (.configuration (.outside strayPath ⟨["app"]⟩)) t' ∧
    strayInputs = before ++ input :: after ∧
    runInputs embedding.eachPass embedding.newNames ⟨["out"]⟩ before
      { Report.empty with fullRebuild := true } 0 s = .ok first t' ∧
    t'.fileAt? ["out", "B.class"] = some (sampleClass 66 52) ∧
    embedSample.fileAt? ["out", "B.class"] = none := by
  have hstray : strayAt? ["out", "B.class"] =
      some (.configuration (.outside strayPath ⟨["app"]⟩), some (sampleClass 66 52)) := by
    decide +kernel
  have hbefore : embedSample.fileAt? ["out", "B.class"] = none := by decide +kernel
  unfold strayAt? at hstray
  cases hrun : embedding.run strayInputs ⟨["out"]⟩ embedSample with
  | ok answer t' =>
    rw [hrun] at hstray
    cases hstray
  | error fault t' =>
    rw [hrun] at hstray
    obtain ⟨rfl, hfile⟩ := Prod.mk.inj (Option.some.inj hstray)
    rcases refused hrun with ⟨-, rfl⟩ | ⟨-, s, before, input, after, first, -, hinputs, hfirst, -⟩
    · cases hbefore.symm.trans hfile
    · exact ⟨s, t', before, input, after, first, rfl, hinputs, hfirst, hfile, hbefore⟩

end Sample

end Embedding

end Retarget
