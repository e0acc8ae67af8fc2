import Retarget.Proofs.Pass.Outputs

/-!
What a pass that succeeds leaves behind. The class files that were selected are
below the output, converted; what was to be cleared away is gone if the output
was found when the pass started; everything else there is as it was. Whether
the output then holds what it should is decided by the tree the pass started on.
-/

set_option autoImplicit false

namespace Retarget.Pass

open FileTree

variable {s t t' : FileTree} {input output : Path} {names : Place} {config : PassConfig}
  {newNames : Renaming} {changes : Changes} {plan : Plan} {classes : List Path}
  {answer : Report × Nat} {gone : Place → Prop} {verify : Bool}

section Steps

variable {α β : Type}

theorem bind_ok {x : Step α} {f : α → Step β} {b : β} (h : (x >>= f) t = .ok b t') :
    ∃ a t₁, x t = .ok a t₁ ∧ f a t₁ = .ok b t' := by
  change EStateM.bind x f t = _ at h
  rw [EStateM.bind] at h
  cases hx : x t with
  | ok a t₁ =>
    rw [hx] at h
    exact ⟨a, t₁, rfl, h⟩
  | error fault t₁ =>
    rw [hx] at h
    cases h

theorem ofExcept_ok {x : Except Fault α} {a : α}
    (h : (MonadExcept.ofExcept x : Step α) t = .ok a t') : x = .ok a ∧ t' = t := by
  cases x with
  | ok b =>
    cases h
    exact ⟨rfl, rfl⟩
  | error fault => cases h

private theorem run_ok (h : run config newNames input changes output t = .ok answer t') :
    output.isEmpty = false ∧ ∃ plan t₁ t₂ deleted found, Plan.make t input changes = .ok plan ∧
      (if plan.fullRebuild && config.clean then emptyOutput output t = .ok () t₁ else t₁ = t) ∧
      deleteOutputs output plan.removed t₁ = .ok deleted t₂ ∧
      processClasses newNames output plan.classes [] ⟨0, 0⟩ (ClassPath.new input config.verify) t₂ =
        .ok found t' := by
  rw [run] at h
  obtain ⟨t₀, t₁, hget, hchecked⟩ := bind_ok h
  cases hget
  obtain ⟨u, t₁, happart, hplanned⟩ := bind_ok hchecked
  obtain ⟨hcheck, rfl⟩ := ofExcept_ok happart
  obtain ⟨plan, t₂, hmake, hrest⟩ := bind_ok hplanned
  obtain ⟨hplan, rfl⟩ := ofExcept_ok hmake
  have hempty : output.isEmpty = false := by
    rw [checkApart, checkApartIn] at hcheck
    split at hcheck
    · cases hcheck
    · split at hcheck
      · cases hcheck
      · next hanchor =>
        by_contra hempty
        rw [anchorIn?, if_pos (Bool.not_eq_false _ ▸ hempty)] at hanchor
        cases hanchor
  refine ⟨hempty, plan, ?_⟩
  dsimp only at hrest
  split_ifs at hrest with hclean
  · obtain ⟨u, t₁, hemptied, hdelete⟩ := bind_ok hrest
    obtain ⟨deleted, t₂, hdeleted, hprocess⟩ := bind_ok hdelete
    obtain ⟨found, t₃, hprocessed, hreport⟩ := bind_ok hprocess
    cases hreport
    exact ⟨t₁, t₂, deleted, found, hplan, by rwa [if_pos hclean], hdeleted, hprocessed⟩
  · obtain ⟨deleted, t₂, hdeleted, hprocess⟩ := bind_ok hrest
    obtain ⟨found, t₃, hprocessed, hreport⟩ := bind_ok hprocess
    cases hreport
    exact ⟨_, t₂, deleted, found, hplan, by rw [if_neg hclean], hdeleted, hprocessed⟩

end Steps

/-- The output is found, or there are no files in it. -/
def Seen (t : FileTree) (output : Path) : Prop :=
  Found t output ∨ ∀ names ≠ [], t.fileAt? (output.place ++ names) = none

/-- The output is found, or every file in it is at the place of a class file of the input. -/
def Clears (t : FileTree) (input output : Path) : Prop :=
  Found t output ∨ ∀ names ≠ [], t.fileAt? (output.place ++ names) ≠ none →
    classAt? t input names ≠ none

theorem Seen.clears (h : Seen t output) (input : Path) : Clears t input output :=
  h.imp_right fun hnone names hne hfile => absurd (hnone names hne) hfile

def Right (verify : Bool) (newNames : Renaming) (t : FileTree) (input output : Path) : Prop :=
  ∀ names ≠ [], t.fileAt? (output.place ++ names) = converted verify newNames t input names

/-- What a pass that processes some class files and clears some places leaves of a tree. -/
structure Outcome (verify : Bool) (newNames : Renaming) (input output : Path) (s t : FileTree)
    (classes : List Path) (gone : Place → Prop) : Prop where
  plain : t.Plain
  same : ∀ names, t.fileAt? (input.place ++ names) = s.fileAt? (input.place ++ names)
  written : ∀ r ∈ classes, ∃ bytes, converted verify newNames s input r.place = some bytes ∧
    t.fileAt? (output.place ++ r.place) = some bytes
  cleared : Found s output → ∀ names ≠ [], (∀ r ∈ classes, r.place ≠ names) → gone names →
    t.fileAt? (output.place ++ names) = none
  kept : ∀ names ≠ [], (∀ r ∈ classes, r.place ≠ names) → ¬ (Found s output ∧ gone names) →
    t.fileAt? (output.place ++ names) = s.fileAt? (output.place ++ names)
  seen : Seen s output → Seen t output

private theorem classAt?_congr
    (h : ∀ names, t.fileAt? (input.place ++ names) = s.fileAt? (input.place ++ names)) :
    classAt? t input names = classAt? s input names := by
  rw [classAt?, classAt?, h]

theorem converted_congr
    (h : ∀ names, t.fileAt? (input.place ++ names) = s.fileAt? (input.place ++ names)) :
    converted verify newNames t input names = converted verify newNames s input names := by
  rw [converted, converted, classAt?_congr h]

private theorem converted_of_none (h : classAt? s input names = none) :
    converted verify newNames s input names = none := by
  rw [converted, h]
  rfl

/-- After a pass the output is right exactly if the tree it started on let it clear the output, as
long as the pass clears no class files, and what it neither processes nor clears was right. -/
theorem Outcome.right_iff (h : Outcome verify newNames input output s t classes gone)
    (hgone : ∀ names, (∀ r ∈ classes, r.place ≠ names) → gone names →
      classAt? s input names = none)
    (hkept : ∀ names ≠ [], (∀ r ∈ classes, r.place ≠ names) → ¬ gone names →
      s.fileAt? (output.place ++ names) = converted verify newNames s input names) :
    Right verify newNames t input output ↔ Clears s input output := by
  constructor
  · intro hright
    by_cases hfound : Found s output
    · exact .inl hfound
    · refine .inr fun names hne hfile hclass => hfile ?_
      have hother : ∀ r ∈ classes, r.place ≠ names := by
        rintro r hr rfl
        obtain ⟨bytes, hbytes, -⟩ := h.written r hr
        cases hbytes.symm.trans (converted_of_none hclass)
      rw [← h.kept names hne hother fun hboth => hfound hboth.1, hright names hne,
        converted_congr h.same, converted_of_none hclass]
  · intro hclears names hne
    rw [converted_congr h.same]
    by_cases hother : ∀ r ∈ classes, r.place ≠ names
    · by_cases hclear : gone names
      · have hclass := hgone names hother hclear
        rw [converted_of_none hclass]
        by_cases hfound : Found s output
        · exact h.cleared hfound names hne hother hclear
        · rw [h.kept names hne hother fun hboth => hfound hboth.1]
          by_contra hfile
          exact hclears.resolve_left hfound names hne hfile hclass
      · rw [h.kept names hne hother fun hboth => hclear hboth.2]
        exact hkept names hne hother hclear
    · push Not at hother
      obtain ⟨r, hr, rfl⟩ := hother
      obtain ⟨bytes, hbytes, hfile⟩ := h.written r hr
      rw [hbytes, hfile]

private theorem emptyOutput_ok {u : Unit} (ht : t.Plain) (h : emptyOutput output t = .ok u t') :
    Found t output ∧ t' = t.clear output.place ∨
      t.lookup true output = .error .notFound ∧ t' = t := by
  rw [emptyOutput] at h
  split at h
  · cases h
  · split at h
    · next hclean =>
      cases h
      exact clean_ok ht hclean
    · cases h

theorem fileAt?_clear_below (t : FileTree) (place : Place) (hne : names ≠ []) :
    (t.clear place).fileAt? (place ++ names) = none := by
  have hbelow : place <+: place ++ names ∧ place ++ names ≠ place :=
    ⟨List.prefix_append place names, fun heq => hne (List.append_right_eq_self.mp heq)⟩
  rw [fileAt?, at?_clear, if_pos hbelow]

theorem fileAt?_clear_apart {place q : Place} (t : FileTree) (h : ¬ place <+: q) :
    (t.clear place).fileAt? q = t.fileAt? q :=
  fileAt?_congr ((at?_clear place t q).trans (if_neg fun hbelow => h hbelow.1))

private theorem emptied_ok {u : Unit} (hs : Laid s input output)
    (h : emptyOutput output s = .ok u t) :
    t.Plain ∧ (∀ names, t.fileAt? (input.place ++ names) = s.fileAt? (input.place ++ names)) ∧
      (Found s output ∧ (∀ names ≠ [], t.fileAt? (output.place ++ names) = none) ∨
        s.lookup true output = .error .notFound ∧ t = s) := by
  rcases emptyOutput_ok hs.plain h with ⟨hfound, rfl⟩ | ⟨hmissing, rfl⟩
  · refine ⟨hs.plain.clear _, fun names => fileAt?_clear_apart _ ?_,
      .inl ⟨hfound, fun names hne => fileAt?_clear_below _ _ hne⟩⟩
    rintro ⟨names', heq⟩
    exact ne_of_apart hs.apart names names' heq.symm
  · exact ⟨hs.plain, fun _ => rfl, .inr ⟨hmissing, rfl⟩⟩

theorem outcome_full (hs : Laid s input output) (hempty : changes.isEmpty = true)
    (hclean : config.clean = true)
    (h : run config newNames input changes output s = .ok answer t) :
    (Found s output ∨ s.lookup true output = .error .notFound ∧ output.isEmpty = false) ∧
      ∃ classes, Outcome config.verify newNames input output s t classes (fun _ => True) ∧
        ∀ names, (∀ r ∈ classes, r.place ≠ names) → classAt? s input names = none := by
  obtain ⟨houtput, plan, t₁, t₂, deleted, found, hplan, hemptied, hdeleted, hprocessed⟩ := run_ok h
  obtain ⟨hfull, hremoved, hrelatives, hselected⟩ := hs.make_full hempty hplan
  rw [hfull, hclean, Bool.and_true, if_pos rfl] at hemptied
  rw [hremoved] at hdeleted
  cases hdeleted
  obtain ⟨hplain, hsame, hcases⟩ := emptied_ok hs hemptied
  obtain ⟨hkeeps, hfiles, hthere⟩ := processClasses_ok hs hplain houtput hsame
    (ClassPath.sound_new input config.verify) rfl hrelatives hprocessed
  have hcleared : Found s output → ∀ names ≠ [], (∀ r ∈ plan.classes, r.place ≠ names) →
      t.fileAt? (output.place ++ names) = none := by
    intro hfound names hne hnot
    rcases hcases with ⟨-, hnone⟩ | ⟨hmissing, -⟩
    · rw [same_below_output hkeeps hnot, hnone names hne]
    · cases hfound.symm.trans hmissing
  have hkept : ∀ names, (∀ r ∈ plan.classes, r.place ≠ names) → ¬ Found s output →
      t.fileAt? (output.place ++ names) = s.fileAt? (output.place ++ names) := by
    intro names hnot hfound
    rcases hcases with ⟨hfound', -⟩ | ⟨-, rfl⟩
    · exact absurd hfound' hfound
    · exact same_below_output hkeeps hnot
  refine ⟨hcases.imp (fun h => h.1) (fun h => ⟨h.1, houtput⟩), plan.classes,
    ⟨hkeeps.plain, fun names => ?_, hfiles, fun hfound names hne hnot _ => ?_,
      fun names _ hnot hboth => ?_, fun hseen => ?_⟩, fun names hnot => ?_⟩
  · exact (same_below_input hs.apart hkeeps names).trans (hsame names)
  · exact hcleared hfound names hne hnot
  · exact hkept names hnot fun hfound => hboth ⟨hfound, trivial⟩
  · by_cases hclasses : plan.classes = []
    · refine .inr fun names hne => ?_
      have hnot : ∀ r ∈ plan.classes, r.place ≠ names := by simp [hclasses]
      by_cases hfound : Found s output
      · exact hcleared hfound names hne hnot
      · rw [hkept names hnot hfound]
        exact hseen.resolve_left hfound names hne
    · exact .inl (hthere hclasses)
  · cases hclass : classAt? s input names with
    | none => rfl
    | some content =>
      obtain ⟨r, hr, hplace⟩ := hselected names content hclass
      exact absurd hplace (hnot r hr)

theorem outcome_changes (hs : Laid s input output) (hne : changes.isEmpty = false)
    (h : run config newNames input changes output s = .ok answer t) :
    ∃ classes, Outcome config.verify newNames input output s t classes
        (fun names => Marks changes input names .removed) ∧
      ∀ names content, Marks changes input names .added ∨ Marks changes input names .changed →
        classAt? s input names = some content → ∃ r ∈ classes, r.place = names := by
  obtain ⟨houtput, plan, t₁, t₂, deleted, found, hplan, hemptied, hdeleted, hprocessed⟩ := run_ok h
  obtain ⟨hfull, hremoved, hmarked, hrelatives, hselected⟩ := hs.make_changes hne hplan
  rw [hfull, Bool.false_and, if_neg Bool.false_ne_true] at hemptied
  subst hemptied
  obtain ⟨hkeeps, hgone, hunfound⟩ :=
    deleteOutputs_ok hs.plain houtput (fun r hr => (hremoved r hr).1) hdeleted
  have hsame := same_below_input hs.apart hkeeps
  obtain ⟨hkeeps', hfiles, hthere⟩ := processClasses_ok hs hkeeps.plain houtput hsame
    (ClassPath.sound_new input config.verify) rfl hrelatives hprocessed
  have hkept : ∀ names, (∀ r ∈ plan.classes, r.place ≠ names) →
      ¬ (Found t₁ output ∧ Marks changes input names .removed) →
      t.fileAt? (output.place ++ names) = t₁.fileAt? (output.place ++ names) := by
    intro names hnot hboth
    rw [same_below_output hkeeps' hnot]
    by_cases hfound : Found t₁ output
    · refine same_below_output hkeeps fun r hr heq => ?_
      exact hboth ⟨hfound, heq ▸ (hremoved r hr).2⟩
    · rw [hunfound hfound]
  refine ⟨plan.classes, ⟨hkeeps'.plain, fun names => ?_, hfiles, fun hfound names _ hnot hmark => ?_,
    fun names _ hnot hboth => hkept names hnot hboth, fun hseen => ?_⟩, hselected⟩
  · exact (same_below_input hs.apart hkeeps' names).trans (hsame names)
  · obtain ⟨r, hr, rfl⟩ := hmarked names hmark
    rw [same_below_output hkeeps' hnot, hgone hfound r hr]
  · by_cases hfound : Found t₁ output
    · have hfound₂ : Found t₂ output := lookup_mono hs.plain hkeeps.directories hfound
      exact .inl (lookup_mono hkeeps.plain hkeeps'.directories hfound₂)
    · by_cases hclasses : plan.classes = []
      · refine .inr fun names hne => ?_
        rw [hkept names (by simp [hclasses]) fun hboth => hfound hboth.1]
        exact hseen.resolve_left hfound names hne
      · exact .inl (hthere hclasses)

end Retarget.Pass
