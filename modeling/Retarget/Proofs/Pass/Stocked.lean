import Retarget.Proofs.Files.Copying
import Retarget.Proofs.Pass.Course

/-!
What a full pass leaves below an output that it has emptied: the files of the
classes that it stored, the directories that they are in, and nothing else. An
output path that leads up has to be found once the output is emptied; otherwise
directories may be made that no file is in.
-/

set_option autoImplicit false

namespace Retarget.Pass

open FileTree

variable {t t' t₁ : FileTree} {input output relative : Path} {newNames : Renaming} {verify : Bool}
  {o b : Place} {left : Nat} {config : PassConfig} {changes : Changes} {names : List String}
  {steps : List (FileTree × Act)} {answer : Report × Nat} {P : Place → Bytes → Prop} {w : Work}

private theorem bare_of_emptyOutput (ht : t.Rooted) (houtput : output.isEmpty = false)
    (h : emptyOutput output t = .ok () t')
    (hup : ".." ∈ output.segments → ∃ o, t'.lookup true output = .ok (o, .directory))
    (hmakes : Makes t' linkLimit [] output.segments t₁ b left) : t₁.Bare b := by
  have hbelow : ∀ {left : Nat}, t'.Opens linkLimit [] output.segments b left → t₁.Bare b := by
    intro left hopen
    rw [← ((Makes.of_opens hopen).unique hmakes).1]
    rcases emptyOutput_cases h with ⟨o, hlookup, rfl⟩ | ⟨hlookup, rfl⟩
    · obtain ⟨left', hopen'⟩ := opens_of_lookup hlookup
      rw [((hopen.mono (carries_of_clear t o)).unique hopen').1]
      exact bare_clear t o
    · have hmisses := misses_of_lookup houtput hlookup
      rw [hopen.resolveFrom] at hmisses
      cases hmisses
  by_cases hdown : ".." ∈ output.segments
  · obtain ⟨o, hlookup⟩ := hup hdown
    obtain ⟨left', hopen⟩ := opens_of_lookup hlookup
    obtain ⟨-, rfl, -⟩ := (Makes.of_opens hopen).unique hmakes
    exact hbelow hopen
  · rcases hmakes.opens_or_bare (rooted_of_emptyOutput ht h) hdown with hopen | hbare
    · exact hbelow hopen
    · exact hbare

/-- Once its directories are made, the output is stocked, and holds a file of each of some classes. -/
def Ready (t : FileTree) (output : Path) (P : Place → Bytes → Prop) (names : List String) : Prop :=
  ∀ t₁ b left, Makes t linkLimit [] output.segments t₁ b left → t₁.Stocked b P ∧
    ∀ name ∈ names, t₁.fileAt? (b ++ ClassPath.placeOf name) ≠ none

private theorem Ready.stored (ht : t.Rooted) (houtput : output.isEmpty = false)
    (h : Ready t output P names) (hname : ClassPath.isWellFormed w.name = true)
    (hw : Allowed output w → P w.file.1 w.file.2)
    (hstore : ClassFile.store w.bytes (ClassPath.pathOf output w.name) t = .ok () t') :
    t'.Rooted ∧ Ready t' output P (names ++ [w.name]) := by
  obtain ⟨hdirs, hlast⟩ := ClassPath.isName_of_mem_placeOf hname
  have hstore' := hstore
  rw [ClassPath.pathOf_eq output hname] at hstore'
  obtain ⟨t₁, b, left, hmakes⟩ := makes_of_store houtput hdirs hlast hstore'
  obtain ⟨hstocked, hfiles⟩ := h t₁ b left hmakes
  have hlinkless : t.LinklessBelow output := by
    intro b' hb' below target hat
    rw [hb'.unique hmakes.reaches] at hat
    exact hstocked.linkless below target (hmakes.adds.link_iff.mpr hat)
  obtain ⟨hallowed, t₂, b', left', hmakes', hstores⟩ :=
    (store_work_iff ht houtput hlinkless hname).mp hstore
  obtain ⟨rfl, rfl, rfl⟩ := hmakes.unique hmakes'
  refine ⟨hstores.rooted, fun t₂ b' left' hmakes' => ?_⟩
  -- the directories of the output are there now
  have hopen := hmakes.opens.mono (hstores.carries hstocked.linkless)
  obtain ⟨rfl, rfl, -⟩ := (Makes.of_opens hopen).unique hmakes'
  constructor
  · apply hstocked.stores hstores
    intro file hfile
    rw [List.mem_singleton.mp hfile]
    exact hw hallowed
  · intro name hmem
    have hown : t'.fileAt? (b ++ ClassPath.placeOf w.name) = some w.bytes :=
      fileAt?_eq_some_iff.mpr (hstores.file w.file List.mem_cons_self)
    by_cases hsame : ClassPath.placeOf name = ClassPath.placeOf w.name
    · rw [hsame, hown]
      exact Option.some_ne_none _
    · have hbefore : name ∈ names := by
        rcases List.mem_append.mp hmem with hmem | hmem
        · exact hmem
        · exact absurd (congrArg ClassPath.placeOf (List.mem_singleton.mp hmem)) hsame
      rw [hstores.fileAt?_eq]
      · exact hfiles name hbefore
      · intro file hfile heq
        rw [List.mem_singleton.mp hfile] at heq
        exact hsame (List.append_cancel_left heq)

private theorem Course.ready (ht : t.Rooted) (houtput : output.isEmpty = false)
    (hready : Ready t output P names)
    (hstored : ∀ step ∈ steps, ∃ input r w, step.2 = .store input r w ∧
      (Allowed output w → P w.file.1 w.file.2))
    (h : Course verify newNames output t steps t') :
    t'.Rooted ∧ Ready t' output P (names ++ storedNames steps) := by
  induction h generalizing names with
  | done =>
    rw [storedNames, List.filterMap_nil, List.append_nil]
    exact ⟨ht, hready⟩
  | @step t t₁ t' act steps hdoes _ ih =>
    obtain ⟨⟨input, r, w, hact, hw⟩, hrest⟩ := List.forall_mem_cons.mp hstored
    dsimp only at hact
    subst hact
    cases hdoes with
    | stored hyields hstore =>
      obtain ⟨ht₁, hready₁⟩ := hready.stored ht houtput hyields.wellFormed hw hstore
      have hnames : names ++ storedNames ((t, .store input r w) :: steps) =
          names ++ [w.name] ++ storedNames steps := by
        rw [List.append_assoc]
        rfl
      rw [hnames]
      exact ih ht₁ hready₁ hrest

def Stored (steps : List (FileTree × Act)) (input output : Path) (names : Place) (content : Bytes) :
    Prop :=
  ∃ u r w, (u, Act.store input r w) ∈ steps ∧ w.file = (names, content) ∧ Allowed output w

theorem stocked_of_full (ht : t.Rooted) (hempty : changes.isEmpty = true)
    (hclean : config.clean = true) (hemptied : emptyOutput output t = .ok () t₁)
    (hup : ".." ∈ output.segments → ∃ o, t₁.lookup true output = .ok (o, .directory))
    (h : run config newNames input changes output t = .ok answer t') :
    t'.Rooted ∧ ∃ steps, Course config.verify newNames output t₁ steps t' ∧
      answer.1.processed.Perm (storedNames steps) ∧
      ∀ o, t'.lookup true output = .ok (o, .directory) →
        t'.Stocked o (Stored steps input output) ∧
        ∀ name ∈ answer.1.processed, t'.fileAt? (o ++ ClassPath.placeOf name) ≠ none := by
  obtain ⟨hcheck, plan, t₂, deletions, stores, hplan, hemptied', hcourse, hacts, hstores, hnames, -⟩ :=
    course_of_run h
  obtain ⟨-, houtput⟩ := isEmpty_of_checkApart hcheck
  rw [(Plan.ofTreeIn_of_makeIn hempty hplan).1, hclean, Bool.true_and, if_pos rfl] at hemptied'
  cases hemptied.symm.trans hemptied'
  have hnone : deletions = [] := by
    rw [removed_full hempty hplan, List.map_nil] at hacts
    exact List.map_eq_nil_iff.mp hacts
  rw [hnone, List.nil_append] at hcourse
  have ht₁ := rooted_of_emptyOutput ht hemptied
  have hready : Ready t₁ output (Stored stores input output) [] := by
    intro t₂ b left hmakes
    have hb := (hmakes.rooted ht₁ rfl).directory_of_opens hmakes.opens rfl
    exact ⟨(bare_of_emptyOutput ht houtput hemptied hup hmakes).stocked hb, by simp⟩
  have hstored : ∀ step ∈ stores, ∃ input' r w, step.2 = .store input' r w ∧
      (Allowed output w → Stored stores input output w.file.1 w.file.2) := by
    rintro ⟨u, act⟩ hstep
    obtain ⟨r, -, w, hact⟩ := exists_of_forall₂ hstores hstep
    dsimp only at hact
    subst hact
    exact ⟨input, r, w, rfl, fun hallowed => ⟨u, r, w, hstep, rfl, hallowed⟩⟩
  obtain ⟨ht', hready'⟩ := hcourse.ready ht₁ houtput hready hstored
  refine ⟨ht', stores, hcourse, hnames, fun o ho => ?_⟩
  obtain ⟨left, hopen⟩ := opens_of_lookup ho
  obtain ⟨hstocked, hfiles⟩ := hready' t' o left (.of_opens hopen)
  exact ⟨hstocked, fun name hname => hfiles name (hnames.mem_iff.mp hname)⟩

end Retarget.Pass
