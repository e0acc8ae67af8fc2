import Mathlib.Data.List.Perm.Basic
import Retarget.Proofs.Pass.Processing

/-!
The order in which a pass processes its classes does not matter. Whatever it is,
the pass succeeds or fails alike, and if it succeeds it leaves the same tree and
tells the same: every class yields the same as before, all results are stored
together, and in the report names are sorted and numbers are sums.
-/

set_option autoImplicit false

namespace Retarget.Pass

open FileTree

variable {t t' : FileTree} {input output : Path} {cp : ClassPath} {newNames : Renaming}
  {config : PassConfig} {changes : Changes} {relatives relatives' : List Path}
  {works works' : List Work} {names names' : List String} {tally : Tally}
  {answer : List String × Tally} {order order' : List Path → List Path}

section Collected

private theorem sortNames_of_perm (h : names.Perm names') :
    Report.sortNames names = Report.sortNames names' := by
  have htrans : ∀ a b c : String, decide (a ≤ b) = true → decide (b ≤ c) = true →
      decide (a ≤ c) = true := by
    intro a b c hab hbc
    exact decide_eq_true (String.le_trans (of_decide_eq_true hab) (of_decide_eq_true hbc))
  have htotal : ∀ a b : String, (decide (a ≤ b) || decide (b ≤ a)) = true := by
    intro a b
    rw [Bool.or_eq_true, decide_eq_true_eq, decide_eq_true_eq]
    exact String.le_total a b
  have hperm : (Report.sortNames names).Perm (Report.sortNames names') :=
    (List.mergeSort_perm names _).trans (h.trans (List.mergeSort_perm names' _).symm)
  refine hperm.eq_of_pairwise ?_ (List.pairwise_mergeSort htrans htotal names)
    (List.pairwise_mergeSort htrans htotal names')
  intro a b _ _ hab hba
  exact String.le_antisymm (of_decide_eq_true hab) (of_decide_eq_true hba)

private theorem collect_cons (w : Work) (works : List Work) (names : List String) (tally : Tally) :
    collect (w :: works) names tally = collect works (w.name :: names) (tally.add w.tally) := rfl

private theorem collect_names (works : List Work) (names : List String) (tally : Tally) :
    (collect works names tally).1 = (works.map Work.name).reverse ++ names := by
  induction works generalizing names tally with
  | nil => rfl
  | cons w works ih =>
    rw [collect_cons, ih, List.map_cons, List.reverse_cons, List.append_assoc]
    rfl

private theorem collect_tally (works : List Work) (names : List String) (tally : Tally) :
    (collect works names tally).2 = (works.map Work.tally).foldl Tally.add tally := by
  induction works generalizing names tally with
  | nil => rfl
  | cons w works ih =>
    rw [collect_cons, ih]
    rfl

private theorem add_right_comm (a b c : Tally) : (a.add b).add c = (a.add c).add b := by
  rw [Tally.add, Tally.add, Tally.add, Tally.add, Nat.add_right_comm a.renamed,
    Nat.add_right_comm a.warnings]

private theorem collect_of_perm (h : works.Perm works') (names : List String) (tally : Tally) :
    (collect works names tally).1.Perm (collect works' names tally).1 ∧
      (collect works names tally).2 = (collect works' names tally).2 := by
  constructor
  · rw [collect_names, collect_names]
    apply List.Perm.append_right
    exact (List.reverse_perm _).trans ((h.map Work.name).trans (List.reverse_perm _).symm)
  · rw [collect_tally, collect_tally]
    apply (h.map Work.tally).foldl_eq'
    intro a _ b _ c
    exact add_right_comm c a b

private theorem filled_of_perm (h : works.Perm works') (hfilled : Filled t output works t') :
    Filled t output works' t' := by
  cases hfilled with
  | nothing =>
    rw [List.nil_perm.mp h]
    exact .nothing
  | stored hne hmakes hstores =>
    refine .stored (fun hnil => hne ?_) hmakes (hstores.congr fun file => ?_)
    · rw [hnil] at h
      exact List.perm_nil.mp h
    · exact (h.map Work.file).symm.mem_iff

end Collected

private theorem processClasses_of_perm (hs : Settled t input output)
    (hinput : input.isEmpty = false)
    (houtput : output.isEmpty = false) (hcp : cp.Grown) (hroot : cp.root = input)
    (hperm : relatives.Perm relatives')
    (h : processClasses newNames output relatives names tally cp t = .ok answer t') :
    ∃ answer', processClasses newNames output relatives' names tally cp t = .ok answer' t' ∧
      Report.sortNames answer'.1 = Report.sortNames answer.1 ∧ answer'.2 = answer.2 := by
  obtain ⟨works, hworks, rfl, hfilled⟩ :=
    (processClasses_ok_iff hs hinput houtput hcp hroot rfl).mp h
  obtain ⟨works', hworks', hpermuted⟩ := List.perm_comp_forall₂ hperm.symm hworks
  obtain ⟨hnames, htally⟩ := collect_of_perm hpermuted names tally
  refine ⟨collect works' names tally, ?_, sortNames_of_perm hnames, htally⟩
  apply (processClasses_ok_iff hs hinput houtput hcp hroot rfl).mpr
  exact ⟨works', hworks', rfl, filled_of_perm hpermuted.symm hfilled⟩

def runIn (order : List Path → List Path) (config : PassConfig) (newNames : Renaming)
    (input : Path) (changes : Changes) (output : Path) : Step (Report × Nat) := do
  let t ← get
  MonadExcept.ofExcept (checkApart t input output)
  let plan ← MonadExcept.ofExcept (Plan.make t input changes)
  if plan.fullRebuild && config.clean then emptyOutput output
  let deleted ← deleteOutputs output plan.removed
  let (names, tally) ← processClasses newNames output (order plan.classes) [] ⟨0, 0⟩
    (ClassPath.new input config.verify)
  let report : Report :=
    { processed := Report.sortNames names, deleted, renamed := tally.renamed,
      ignored := plan.ignored, fullRebuild := plan.fullRebuild }
  return (report, plan.warnings + tally.warnings)

theorem run_eq_runIn : run = runIn id := rfl

section Steps

variable {α β : Type}

theorem bind_ok_iff {x : Step α} {f : α → Step β} {b : β} :
    (x >>= f) t = .ok b t' ↔ ∃ a t₁, x t = .ok a t₁ ∧ f a t₁ = .ok b t' := by
  constructor
  · exact bind_ok
  · rintro ⟨a, t₁, hx, hf⟩
    show EStateM.bind x f t = .ok b t'
    rw [EStateM.bind, hx]
    exact hf

theorem bind_error_iff {x : Step α} {f : α → Step β} {fault : Fault} :
    (x >>= f) t = .error fault t' ↔
      x t = .error fault t' ∨ ∃ a t₁, x t = .ok a t₁ ∧ f a t₁ = .error fault t' := by
  show EStateM.bind x f t = _ ↔ _
  rw [EStateM.bind]
  cases x t with
  | ok a t₁ => simp
  | error fault' t₁ => simp

theorem ofExcept_error {x : Except Fault α} {fault : Fault}
    (h : (MonadExcept.ofExcept x : Step α) t = .error fault t') : x = .error fault ∧ t' = t := by
  cases x with
  | ok a => cases h
  | error fault' =>
    cases h
    exact ⟨rfl, rfl⟩

/-- The steps of a pass that succeeds, and what it reports. -/
theorem runIn_ok_iff {report : Report × Nat} :
    runIn order config newNames input changes output t = .ok report t' ↔
      checkApart t input output = .ok () ∧ ∃ plan t₁ t₂ deleted found,
        Plan.make t input changes = .ok plan ∧
        (if plan.fullRebuild && config.clean then emptyOutput output t = .ok () t₁ else t₁ = t) ∧
        deleteOutputs output plan.removed t₁ = .ok deleted t₂ ∧
        processClasses newNames output (order plan.classes) [] ⟨0, 0⟩
          (ClassPath.new input config.verify) t₂ = .ok found t' ∧
        report = (⟨Report.sortNames found.1, deleted, found.2.renamed, plan.ignored,
          plan.fullRebuild⟩, plan.warnings + found.2.warnings) := by
  rw [runIn]
  constructor
  · intro h
    obtain ⟨t₀, t₁, hget, hchecked⟩ := bind_ok_iff.mp h
    cases hget
    obtain ⟨u, t₁, happart, hplanned⟩ := bind_ok_iff.mp hchecked
    obtain ⟨hcheck, rfl⟩ := ofExcept_ok happart
    obtain ⟨plan, t₂, hmake, hrest⟩ := bind_ok_iff.mp hplanned
    obtain ⟨hplan, rfl⟩ := ofExcept_ok hmake
    refine ⟨hcheck, plan, ?_⟩
    dsimp only at hrest
    split_ifs at hrest with hclean
    · obtain ⟨u, t₁, hemptied, hdelete⟩ := bind_ok_iff.mp hrest
      obtain ⟨deleted, t₂, hdeleted, hprocess⟩ := bind_ok_iff.mp hdelete
      obtain ⟨found, t₃, hprocessed, hreport⟩ := bind_ok_iff.mp hprocess
      cases hreport
      exact ⟨t₁, t₂, deleted, found, hplan, by rwa [if_pos hclean], hdeleted, hprocessed, rfl⟩
    · obtain ⟨deleted, t₂, hdeleted, hprocess⟩ := bind_ok_iff.mp hrest
      obtain ⟨found, t₃, hprocessed, hreport⟩ := bind_ok_iff.mp hprocess
      cases hreport
      exact ⟨_, t₂, deleted, found, hplan, by rw [if_neg hclean], hdeleted, hprocessed, rfl⟩
  · rintro ⟨hcheck, plan, t₁, t₂, deleted, found, hplan, hemptied, hdeleted, hprocessed, rfl⟩
    -- what follows is the same whether or not the output was emptied
    have hrest : (do
        let deleted ← deleteOutputs output plan.removed
        let found ← processClasses newNames output (order plan.classes) [] ⟨0, 0⟩
          (ClassPath.new input config.verify)
        return ((⟨Report.sortNames found.1, deleted, found.2.renamed, plan.ignored,
          plan.fullRebuild⟩ : Report), plan.warnings + found.2.warnings) : Step (Report × Nat)) t₁ =
        .ok (⟨Report.sortNames found.1, deleted, found.2.renamed, plan.ignored,
          plan.fullRebuild⟩, plan.warnings + found.2.warnings) t' := by
      apply bind_ok_iff.mpr
      refine ⟨deleted, t₂, hdeleted, ?_⟩
      apply bind_ok_iff.mpr
      exact ⟨found, t', hprocessed, rfl⟩
    apply bind_ok_iff.mpr
    refine ⟨t, t, rfl, ?_⟩
    apply bind_ok_iff.mpr
    refine ⟨(), t, by rw [hcheck]; rfl, ?_⟩
    apply bind_ok_iff.mpr
    refine ⟨plan, t, by rw [hplan]; rfl, ?_⟩
    dsimp only
    split_ifs with hclean
    · rw [if_pos hclean] at hemptied
      apply bind_ok_iff.mpr
      exact ⟨(), t₁, hemptied, hrest⟩
    · rw [if_neg hclean] at hemptied
      rw [← hemptied]
      exact hrest

end Steps

private theorem runIn_of_runIn {report : Report × Nat} (hs : Settled t input output)
    (horders : ∀ classes, (order classes).Perm (order' classes))
    (h : runIn order config newNames input changes output t = .ok report t') :
    runIn order' config newNames input changes output t = .ok report t' := by
  obtain ⟨hcheck, plan, t₁, t₂, deleted, found, hplan, hemptied, hdeleted, hprocessed, rfl⟩ :=
    runIn_ok_iff.mp h
  obtain ⟨hinput, houtput⟩ := isEmpty_of_checkApart hcheck
  have hs₁ : Settled t₁ input output := by
    split_ifs at hemptied with hclean
    · exact hs.of_emptyOutput hemptied
    · rw [hemptied]
      exact hs
  have hs₂ : Settled t₂ input output :=
    hs₁.of_deleteOutputs houtput (inner_of_removed hinput hplan) hdeleted
  obtain ⟨found', hprocessed', hnames, htally⟩ := processClasses_of_perm hs₂ hinput houtput
    (ClassPath.grown_new input config.verify) rfl (horders plan.classes) hprocessed
  apply runIn_ok_iff.mpr
  refine ⟨hcheck, plan, t₁, t₂, deleted, found', hplan, hemptied, hdeleted, hprocessed', ?_⟩
  rw [hnames, htally]

/-- Whatever the orders are in which two passes process the classes they select, one succeeds if
the other one does, and they leave the same tree and report the same. -/
theorem orders_agree (config : PassConfig) (newNames : Renaming) (changes : Changes)
    (hs : Settled t input output) (horder : ∀ classes, (order classes).Perm classes)
    (horder' : ∀ classes, (order' classes).Perm classes) (report : Report × Nat) (t' : FileTree) :
    runIn order config newNames input changes output t = .ok report t' ↔
      runIn order' config newNames input changes output t = .ok report t' := by
  constructor
  · intro h
    apply runIn_of_runIn hs _ h
    intro classes
    exact (horder classes).trans (horder' classes).symm
  · intro h
    apply runIn_of_runIn hs _ h
    intro classes
    exact (horder' classes).trans (horder classes).symm

section Sample

def orderSample : FileTree :=
  FileTree.empty |>.set ["build"] .directory
    |>.set ["build", "in"] .directory
    |>.set ["build", "in", "A.class"] (.file fieldSample)
    |>.set ["build", "in", "b"] .directory
    |>.set ["build", "in", "b", "A.class"] (.file fieldSample)
    |>.set ["build", "in", "b.A.class"] (.file fieldSample)
    |>.set ["app"] (.link ⟨["build"]⟩)

private theorem settled_orderSample : Settled orderSample ⟨["app", "in"]⟩ ⟨["app", "out"]⟩ := by
  have hinput : orderSample.resolveFrom true linkLimit [] ["app", "in"] =
      .ok (.found ["build", "in"] .directory 39) := by
    decide +kernel
  have houtput : orderSample.resolveFrom true linkLimit [] ["app", "out"] =
      .ok (.vacant ["build"] "out" false) := by
    decide +kernel
  exact .of_all (by decide +kernel) (reaches_of_resolveFrom hinput) (reaches_of_resolveFrom houtput)
    (by decide +kernel) (by decide +kernel) (by decide)

/-- The pass does the class with two names twice, and in the reverse order all the same. -/
theorem orders_agree_sample : ∃ report t',
    run ⟨true, true, false⟩ linkedNames ⟨["app", "in"]⟩ .empty ⟨["app", "out"]⟩ orderSample =
      .ok report t' ∧
    runIn List.reverse ⟨true, true, false⟩ linkedNames ⟨["app", "in"]⟩ .empty ⟨["app", "out"]⟩
      orderSample = .ok report t' ∧
    report.1.renamed = 6 := by
  have hcount : ((run ⟨true, true, false⟩ linkedNames ⟨["app", "in"]⟩ .empty ⟨["app", "out"]⟩).run'
      orderSample).map (fun report => report.1.renamed) = some 6 := by
    decide +kernel
  have hdone : ((run ⟨true, true, false⟩ linkedNames ⟨["app", "in"]⟩ .empty
      ⟨["app", "out"]⟩).run' orderSample).isSome = true := by
    rw [← Option.isSome_map, hcount]
    rfl
  obtain ⟨report, t', hrun⟩ := ok_of_run' hdone
  have hrenamed : report.1.renamed = 6 := by
    delta EStateM.run' EStateM.run at hcount
    rw [hrun] at hcount
    exact Option.some.inj hcount
  refine ⟨report, t', hrun, ?_, hrenamed⟩
  rw [run_eq_runIn] at hrun
  exact (orders_agree ⟨true, true, false⟩ linkedNames .empty settled_orderSample List.Perm.refl
    List.reverse_perm report t').mp hrun

end Sample

end Retarget.Pass
