import Retarget.Proofs.Pass.Refused

/-!
What a pass over recorded changes may touch. However it ends, and in whatever
order its classes are handled, it changes no files but those recorded as removed
and those of the classes it selected, below the output. If it succeeds it tells
of each file it deleted once, in the order of the changes, and these are the ones
that were there.
-/

set_option autoImplicit false

namespace Retarget.Pass

open FileTree

variable {α : Type} {t t' t₁ : FileTree} {input output relative : Path} {newNames : Renaming}
  {cp : ClassPath} {config : PassConfig} {changes : Changes} {plan : Plan} {name : String}
  {names : List String} {relatives removed deleted : List Path} {seen : List String} {tally : Tally}
  {about about' : Place → Prop} {bytes : Bytes} {problem : Misconfiguration} {answer : Report × Nat}

section Recorded

/-- A class file that is recorded as added or changed and is there, by its path below the input. -/
structure Selects (t : FileTree) (input : Path) (changes : Changes) (relative : Path) : Prop where
  recorded : ∃ change ∈ changes.toList, (change.2 = .added ∨ change.2 = .changed) ∧
    Plan.relative input change.1 = .ok relative
  found : ∃ place content, t.lookup false (input.join relative) = .ok (place, .file content)
  isClass : relative.hasClassExtension = true

def removedPaths (input : Path) (changes : Changes) : List Path :=
  changes.toList.filterMap fun change =>
    if change.2 = .removed then (Plan.relative input change.1).toOption else none

/-- The files that a pass over recorded changes is about, by their names below the output. -/
inductive Concerns (t : FileTree) (input : Path) (changes : Changes) : Place → Prop where
  | removed {relative : Path} (h : relative ∈ removedPaths input changes) :
      Concerns t input changes relative.place
  | selected {relative : Path} (h : Selects t input changes relative) :
      Concerns t input changes (ClassPath.placeOf relative.binaryName)

end Recorded

section Trees

def Ends (step : Step α) (t t' : FileTree) : Prop :=
  (∃ a, step t = .ok a t') ∨ ∃ fault, step t = .error fault t'

/-- The trees that come of handling classes of some names, in whatever order and up to wherever:
directories are made where nothing is, and class files are written. -/
inductive Handles (output : Path) (names : List String) (t : FileTree) : FileTree → Prop where
  | nothing : Handles output names t t
  | made {t₁ t' : FileTree} (h : Handles output names t t₁) (hadds : t₁.Adds t') :
      Handles output names t t'
  | written {t₁ t' : FileTree} {name : String} {bytes : Bytes} (h : Handles output names t t₁)
      (hmem : name ∈ names) (hname : ClassPath.isWellFormed name = true)
      (hwrite : t₁.write (ClassPath.pathOf output name) bytes = .ok t') : Handles output names t t'

/-- The trees that a pass may leave: what it leaves as it handles its classes one after the other,
or what it leaves, ended at any time, as it handles them side by side. -/
inductive Leaves (config : PassConfig) (newNames : Renaming) (input : Path) (changes : Changes)
    (output : Path) (t : FileTree) : FileTree → Prop where
  | inTurn {t' : FileTree} (h : Ends (run config newNames input changes output) t t') :
      Leaves config newNames input changes output t t'
  | sideBySide {t₁ t' : FileTree} {plan : Plan} {deleted : List Path}
      (hcheck : checkApart t input output = .ok ()) (hplan : Plan.make t input changes = .ok plan)
      (hdeleted : deleteOutputs output plan.removed t = .ok deleted t₁)
      (hhandles : Handles output (plan.classes.map Path.binaryName) t₁ t') :
      Leaves config newNames input changes output t t'

end Trees

section Confinement

/-- The second tree has the links of the first one, and its files but for some below the output. -/
structure Confined (t t' : FileTree) (output : Path) (about : Place → Prop) : Prop where
  links : SameLinks t t'
  file : ∀ q, (∀ o names, t.Reaches [] output.segments o → about names → q ≠ o ++ names) →
    t'.fileAt? q = t.fileAt? q

namespace Confined

theorem refl (t : FileTree) (output : Path) (about : Place → Prop) : Confined t t output about :=
  ⟨fun _ _ => Iff.rfl, fun _ _ => rfl⟩

theorem trans (h : Confined t t₁ output about) (h' : Confined t₁ t' output about) :
    Confined t t' output about where
  links := h.links.trans h'.links
  file q hq := by
    rw [← h.file q hq]
    exact h'.file q fun o names ho => hq o names (h.links.reaches_iff.mp ho)

private theorem outside (h : Confined t t' output about) {q : Place}
    (hq : ∀ o, t.Reaches [] output.segments o → ¬ o <+: q) : t'.fileAt? q = t.fileAt? q := by
  apply h.file q
  rintro o names ho - rfl
  exact hq o ho (List.prefix_append o names)

private theorem below (h : Confined t t' output about) {o names : Place}
    (ho : t.Reaches [] output.segments o) (hnames : ¬ about names) :
    t'.fileAt? (o ++ names) = t.fileAt? (o ++ names) := by
  apply h.file
  intro o' names' ho' habout heq
  rw [ho.unique ho'] at heq
  exact hnames (List.append_cancel_left heq ▸ habout)

private theorem of_adds (h : t.Adds t') : Confined t t' output about :=
  ⟨fun _ _ => h.link_iff, fun q _ => h.fileAt?_eq q⟩

private theorem of_removed (ht : t.Rooted) (houtput : output.isEmpty = false)
    (hlinkless : t.LinklessBelow output) (hr : relative.Inner)
    (h : t.removeFile (output.join relative) = .ok t') (habout : about relative.place) :
    Confined t t' output about ∧ t'.Rooted := by
  obtain ⟨o, content, ho, hfile, rfl⟩ := removeFile_join ht houtput hlinkless hr h
  refine ⟨⟨fun _ _ => link_erase_file_iff hfile, fun q hq => ?_⟩, ht.erase_file hfile⟩
  apply fileAt?_congr
  rw [at?_erase (ne_nil_of_file hfile), if_neg (hq o _ ho habout)]

private theorem of_written (houtput : output.isEmpty = false) (hlinkless : t.LinklessBelow output)
    (hname : ClassPath.isWellFormed name = true)
    (h : t.write (ClassPath.pathOf output name) bytes = .ok t')
    (habout : about (ClassPath.placeOf name)) : Confined t t' output about := by
  obtain ⟨q, hreaches, hne, hdirectory, hlink, rfl, -⟩ := write_found h
  have hinner : (⟨ClassPath.placeOf name⟩ : Path).Inner :=
    Path.inner_of_names (ClassPath.isName_placeOf hname) (append_singleton_ne_nil _ _)
  rw [ClassPath.pathOf_eq output hname] at hreaches
  obtain ⟨o, ho, rfl⟩ := reaches_join houtput hlinkless hinner hreaches
  rw [Path.place_of_names (ClassPath.isName_placeOf hname)] at hne hdirectory hlink ⊢
  refine ⟨fun r target => ?_, fun r hr => ?_⟩
  · rw [at?_set hne]
    split_ifs with heq
    · subst heq
      exact ⟨fun h => Node.noConfusion (Option.some.inj h), fun h => absurd h (hlink target)⟩
    · rfl
  · apply fileAt?_congr
    rw [at?_set hne, if_neg (hr o _ ho habout)]

private theorem of_handles (houtput : output.isEmpty = false) (hlinkless : t.LinklessBelow output)
    (habout : ∀ name ∈ names, about (ClassPath.placeOf name)) (h : Handles output names t t') :
    Confined t t' output about := by
  induction h with
  | nothing => exact .refl t output about
  | made _ hadds ih => exact ih.trans (.of_adds hadds)
  | written _ hmem hname hwrite ih =>
    exact ih.trans (.of_written houtput (ih.links.linklessBelow hlinkless) hname hwrite
      (habout _ hmem))

private theorem ends_deleteOutputs_cons {r : Path} {rest : List Path}
    (h : Ends (deleteOutputs output (r :: rest)) t t') :
    (∃ t₁, t.removeFile (output.join r) = .ok t₁ ∧ Ends (deleteOutputs output rest) t₁ t') ∨
      Ends (deleteOutputs output rest) t t' ∨ t' = t := by
  rcases h with ⟨deleted, h⟩ | ⟨fault, h⟩
  · rcases deleteOutputs_cons_ok h with ⟨t₁, more, hremove, hdelete, -⟩ | ⟨-, hdelete⟩
    · exact .inl ⟨t₁, hremove, .inl ⟨more, hdelete⟩⟩
    · exact .inr (.inl (.inl ⟨deleted, hdelete⟩))
  · rcases deleteOutputs_cons_error h with ⟨t₁, hremove, hdelete⟩ | ⟨-, hdelete⟩ | ⟨-, hsame⟩
    · exact .inl ⟨t₁, hremove, .inr ⟨fault, hdelete⟩⟩
    · exact .inr (.inl (.inr ⟨fault, hdelete⟩))
    · exact .inr (.inr hsame)

private theorem of_deleteOutputs (ht : t.Rooted) (houtput : output.isEmpty = false)
    (hlinkless : t.LinklessBelow output) (hremoved : ∀ r ∈ removed, r.Inner ∧ about r.place)
    (h : Ends (deleteOutputs output removed) t t') : Confined t t' output about := by
  induction removed generalizing t with
  | nil =>
    rcases h with ⟨a, h⟩ | ⟨fault, h⟩
    · cases h
      exact .refl _ output about
    · cases h
  | cons r rest ih =>
    obtain ⟨⟨hr, habout⟩, hrest⟩ := List.forall_mem_cons.mp hremoved
    rcases ends_deleteOutputs_cons h with ⟨t₁, hremove, hends⟩ | hends | rfl
    · obtain ⟨hfirst, ht₁⟩ := of_removed ht houtput hlinkless hr hremove habout
      exact hfirst.trans (ih ht₁ (hfirst.links.linklessBelow hlinkless) hrest hends)
    · exact ih ht hlinkless hrest hends
    · exact .refl _ output about

end Confined

end Confinement

section Handled

theorem Handles.trans (h : Handles output names t t₁) (h' : Handles output names t₁ t') :
    Handles output names t t' := by
  induction h' with
  | nothing => exact h
  | made _ hadds ih => exact ih.made hadds
  | written _ hmem hname hwrite ih => exact ih.written hmem hname hwrite

private theorem adds_of_store {path : Path} {fault : Fault}
    (h : ClassFile.store bytes path t = .error fault t') : t.Adds t' := by
  have hfinish : ∀ {t₁ : FileTree}, ClassFile.store.finish bytes path t₁ = .error fault t' →
      t' = t₁ := by
    intro t₁ hfinish
    rw [ClassFile.store.finish] at hfinish
    split at hfinish
    · cases hfinish
    · cases hfinish
      rfl
  rw [ClassFile.store] at h
  split at h
  · rw [hfinish h]
    exact .refl t
  · next parent _ =>
    have hadds := Adds.makeDirectories parent t
    split at h
    · next hmake =>
      rw [hmake] at hadds
      rw [hfinish h]
      exact hadds
    · next hmake =>
      rw [hmake] at hadds
      cases h
      exact hadds

private theorem handles_of_processClass (hcp : cp.Grown) (hmem : relative.binaryName ∈ names)
    (h : Ends (processClass newNames output relative cp) t t') : Handles output names t t' := by
  rcases h with ⟨done, h⟩ | ⟨fault, h⟩
  · obtain ⟨w, -, -, -, hyields, hstore⟩ := yields_of_processClass hcp h
    obtain ⟨t₁, hadds, hwrite⟩ := write_of_store hstore
    exact (Handles.nothing.made hadds).written (hyields.name_eq ▸ hmem) hyields.wellFormed hwrite
  · rw [processClass] at h
    split at h
    · cases h
      exact .nothing
    · split at h
      · cases h
        exact .nothing
      · split at h
        · cases h
          exact .nothing
        · split at h
          · cases h
          · next hstore =>
            cases h
            exact Handles.nothing.made (adds_of_store hstore)

private theorem handles_of_processClasses (hcp : cp.Grown)
    (hmem : ∀ r ∈ relatives, r.binaryName ∈ names)
    (h : Ends (processClasses newNames output relatives seen tally cp) t t') :
    Handles output names t t' := by
  induction relatives generalizing t seen tally cp with
  | nil =>
    rcases h with ⟨a, h⟩ | ⟨fault, h⟩
    · cases h
      exact .nothing
    · cases h
  | cons r rest ih =>
    obtain ⟨hr, hrest⟩ := List.forall_mem_cons.mp hmem
    rw [Ends, processClasses] at h
    cases hprocess : processClass newNames output r cp t with
    | error fault t₁ =>
      rw [hprocess] at h
      rcases h with ⟨a, h⟩ | ⟨fault', h⟩
      · cases h
      · cases h
        exact handles_of_processClass hcp hr (.inr ⟨fault, hprocess⟩)
    | ok done t₁ =>
      rw [hprocess] at h
      obtain ⟨-, -, -, ⟨-, -, hcp'⟩, -⟩ := yields_of_processClass hcp hprocess
      have hfirst := handles_of_processClass hcp hr (.inl ⟨done, hprocess⟩)
      exact hfirst.trans (ih hcp' hrest h)

end Handled

section Planned

private theorem delete?_of_ofChange {change : Path × FileChange} {choice : Choice}
    (h : Plan.ofChangeIn t [] input change = .ok choice) : choice.delete? =
      if change.2 = .removed then (Plan.relative input change.1).toOption else none := by
  obtain ⟨path, status⟩ := change
  obtain ⟨relative, hrelative, hchooses⟩ := chooses_of_ofChange h
  dsimp only at hrelative hchooses ⊢
  cases hchooses with
  | removed =>
    rw [if_pos rfl, hrelative]
    rfl
  | unchanged => rfl
  | process hstatus =>
    rcases hstatus with rfl | rfl
    · rfl
    · rfl
  | left hstatus hchoice =>
    rcases hstatus with rfl | rfl
    all_goals rcases hchoice with rfl | rfl | rfl
    all_goals rfl

private theorem removed_eq (hne : changes.isEmpty = false)
    (h : Plan.make t input changes = .ok plan) :
    plan.removed = removedPaths input changes := by
  have hmap := map_of_mapM (Plan.choices_of_makeIn hne h).2 fun _ _ hchoice => delete?_of_ofChange hchoice
  have hdelete := congrArg (List.filterMap id) hmap
  rwa [List.filterMap_map, List.filterMap_map] at hdelete

private theorem selects_of_mem_classes (hne : changes.isEmpty = false)
    (h : Plan.make t input changes = .ok plan) (hr : relative ∈ plan.classes) :
    Selects t input changes relative := by
  have hprocess := Laid.mem_classes.mp hr
  have hchoices := (Plan.choices_of_makeIn hne h).2
  obtain ⟨⟨path, status⟩, hmem, hchoice⟩ := (mem_iff_of_mapM hchoices).mp hprocess
  obtain ⟨r, hrelative, hchooses⟩ := chooses_of_ofChange hchoice
  dsimp only at hchooses
  cases hchooses with
  | process hstatus hlookup hclass =>
    exact ⟨⟨(path, status), hmem, hstatus, hrelative⟩, ⟨_, _, hlookup⟩, hclass⟩
  | left _ hchoice => simp at hchoice

end Planned

section Left

private theorem ends_bind {β : Type} {x : Step α} {f : α → Step β} (h : Ends (x >>= f) t t') :
    (∃ fault, x t = .error fault t') ∨ ∃ a t₁, x t = .ok a t₁ ∧ Ends (f a) t₁ t' := by
  rcases h with ⟨b, h⟩ | ⟨fault, h⟩
  · obtain ⟨a, t₁, hx, hf⟩ := bind_ok_iff.mp h
    exact .inr ⟨a, t₁, hx, .inl ⟨b, hf⟩⟩
  · rcases bind_error_iff.mp h with hx | ⟨a, t₁, hx, hf⟩
    · exact .inl ⟨fault, hx⟩
    · exact .inr ⟨a, t₁, hx, .inr ⟨fault, hf⟩⟩

private theorem ends_run (hne : changes.isEmpty = false)
    (h : Ends (run config newNames input changes output) t t') :
    t' = t ∨ checkApart t input output = .ok () ∧ ∃ plan, Plan.make t input changes = .ok plan ∧
      (Ends (deleteOutputs output plan.removed) t t' ∨ ∃ deleted t₁,
        deleteOutputs output plan.removed t = .ok deleted t₁ ∧
          Handles output (plan.classes.map Path.binaryName) t₁ t') := by
  rw [run] at h
  rcases ends_bind h with ⟨fault, hget⟩ | ⟨t₀, t₁, hget, hchecked⟩
  · cases hget
  cases hget
  rcases ends_bind hchecked with ⟨fault, happart⟩ | ⟨u, t₁, happart, hplanned⟩
  · exact .inl (ofExcept_error happart).2
  obtain ⟨hcheck, rfl⟩ := ofExcept_ok happart
  rcases ends_bind hplanned with ⟨fault, hmake⟩ | ⟨plan, t₁, hmake, hdone⟩
  · exact .inl (ofExcept_error hmake).2
  obtain ⟨hplan, rfl⟩ := ofExcept_ok hmake
  refine .inr ⟨hcheck, plan, hplan, ?_⟩
  dsimp only at hdone
  rw [(Plan.choices_of_makeIn hne hplan).1, Bool.false_and, if_neg Bool.false_ne_true] at hdone
  rcases ends_bind hdone with ⟨fault, hdelete⟩ | ⟨deleted, t₁, hdelete, hclasses⟩
  · exact .inl (.inr ⟨fault, hdelete⟩)
  refine .inr ⟨deleted, t₁, hdelete, ?_⟩
  have hmem : ∀ r ∈ plan.classes, r.binaryName ∈ plan.classes.map Path.binaryName :=
    fun r hr => List.mem_map_of_mem hr
  have hgrown : (ClassPath.new input config.verify).Grown :=
    ClassPath.grown_new input config.verify
  rcases ends_bind hclasses with ⟨fault, hprocess⟩ | ⟨found, t₂, hprocess, hreport⟩
  · exact handles_of_processClasses hgrown hmem (.inr ⟨fault, hprocess⟩)
  · have hend : t₂ = t' := by
      rcases hreport with ⟨a, hreport⟩ | ⟨fault, hreport⟩
      · cases hreport
        rfl
      · cases hreport
    exact hend ▸ handles_of_processClasses hgrown hmem (.inl ⟨found, hprocess⟩)

private theorem confined_of_leaves (ht : t.Rooted) (hlinkless : t.LinklessBelow output)
    (hne : changes.isEmpty = false) (h : Leaves config newNames input changes output t t') :
    Confined t t' output (Concerns t input changes) := by
  have hsteps : ∀ {plan : Plan}, checkApart t input output = .ok () →
      Plan.make t input changes = .ok plan →
      (∀ {t₁}, Ends (deleteOutputs output plan.removed) t t₁ →
        Confined t t₁ output (Concerns t input changes)) ∧
      ∀ {t₁ t₂}, Confined t t₁ output (Concerns t input changes) →
        Handles output (plan.classes.map Path.binaryName) t₁ t₂ →
        Confined t t₂ output (Concerns t input changes) := by
    intro plan hcheck hplan
    obtain ⟨hinput, houtput⟩ := isEmpty_of_checkApart hcheck
    refine ⟨fun hends => ?_, fun hconfined hhandles => hconfined.trans ?_⟩
    · apply Confined.of_deleteOutputs ht houtput hlinkless _ hends
      intro r hr
      refine ⟨inner_of_removed hinput hplan r hr, .removed ?_⟩
      rwa [removed_eq hne hplan] at hr
    · apply Confined.of_handles houtput (hconfined.links.linklessBelow hlinkless) _ hhandles
      intro name hname
      obtain ⟨r, hr, rfl⟩ := List.mem_map.mp hname
      exact .selected (selects_of_mem_classes hne hplan hr)
  cases h with
  | inTurn h =>
    rcases ends_run hne h with rfl | ⟨hcheck, plan, hplan, hends | ⟨deleted, t₁, hdelete, hhandles⟩⟩
    · exact .refl _ _ _
    · exact (hsteps hcheck hplan).1 hends
    · obtain ⟨hdeletes, hclasses⟩ := hsteps hcheck hplan
      exact hclasses (hdeletes (.inl ⟨deleted, hdelete⟩)) hhandles
  | sideBySide hcheck hplan hdeleted hhandles =>
    obtain ⟨hdeletes, hclasses⟩ := hsteps hcheck hplan
    exact hclasses (hdeletes (.inl ⟨_, hdeleted⟩)) hhandles

end Left

section Deleted

/-- There is something at the place that the names lead to below the output. -/
def Occupied (t : FileTree) (output : Path) (names : Place) : Prop :=
  ∃ o left, t.Opens linkLimit [] output.segments o left ∧ t.at? (o ++ names) ≠ none

private theorem occupied_of_removeFile (ht : t.Rooted) (houtput : output.isEmpty = false)
    (hlinkless : t.LinklessBelow output) (hr : relative.Inner)
    (h : t.removeFile (output.join relative) = .ok t') : Occupied t output relative.place := by
  obtain ⟨b, content, hb, hfile, -⟩ := removeFile_join ht houtput hlinkless hr h
  obtain ⟨found, hlookup⟩ := lookup_of_removeFile h
  obtain ⟨o, left, hopen⟩ := opens_of_lookup_join houtput hr hlookup
  refine ⟨o, left, hopen, ?_⟩
  rw [hopen.reaches.unique hb, hfile]
  exact Option.some_ne_none _

private theorem occupied_removed (ht : t.Rooted) (houtput : output.isEmpty = false)
    (hlinkless : t.LinklessBelow output) (hr : relative.Inner)
    (h : t.removeFile (output.join relative) = .ok t') (names : Place) :
    Occupied t' output names ↔ Occupied t output names ∧ names ≠ relative.place := by
  obtain ⟨b, content, hb, hfile, rfl⟩ := removeFile_join ht houtput hlinkless hr h
  have herase := at?_erase (t := t) (ne_nil_of_file hfile)
  have hback : (⟨t.nodes.erase (b ++ relative.place)⟩ : FileTree).Carries t := by
    have hkept : ∀ {q : Place} {node : Node},
        (⟨t.nodes.erase (b ++ relative.place)⟩ : FileTree).at? q = some node →
        t.at? q = some node := by
      intro q node hq
      rw [herase] at hq
      split_ifs at hq
      exact hq
    exact ⟨hkept, hkept⟩
  constructor
  · rintro ⟨o, left, hopen, hat⟩
    have hopen' := hopen.mono hback
    rw [herase, hopen'.reaches.unique hb] at hat
    split_ifs at hat with heq
    · exact absurd rfl hat
    · refine ⟨⟨b, left, hopen'.reaches.unique hb ▸ hopen', hat⟩, ?_⟩
      rintro rfl
      exact heq rfl
  · rintro ⟨⟨o, left, hopen, hat⟩, hne⟩
    refine ⟨o, left, hopen.mono (carries_erase_file hfile), ?_⟩
    rw [herase, hopen.reaches.unique hb, if_neg fun heq => hne (List.append_cancel_left heq)]
    exact hopen.reaches.unique hb ▸ hat

private theorem told_of_deleteOutputs (ht : t.Rooted) (houtput : output.isEmpty = false)
    (hlinkless : t.LinklessBelow output) (hremoved : ∀ r ∈ removed, r.Inner)
    (h : deleteOutputs output removed t = .ok deleted t') :
    ∃ told : List Path, deleted = told.map output.join ∧ told.Sublist removed ∧
      (told.map Path.place).Nodup ∧
      ∀ r ∈ removed, r.place ∈ told.map Path.place ↔ Occupied t output r.place := by
  induction removed generalizing t deleted with
  | nil =>
    cases h
    exact ⟨[], rfl, .slnil, List.nodup_nil, fun r hr => nomatch hr⟩
  | cons first rest ih =>
    obtain ⟨hfirst, hrest⟩ := List.forall_mem_cons.mp hremoved
    rcases deleteOutputs_cons_ok h with ⟨t₁, more, hremove, hdelete, rfl⟩ | ⟨hremove, hdelete⟩
    · obtain ⟨hconfined, ht₁⟩ : Confined t t₁ output (fun _ => True) ∧ t₁.Rooted :=
        Confined.of_removed ht houtput hlinkless hfirst hremove trivial
      obtain ⟨told, rfl, hsub, hnodup, htold⟩ :=
        ih ht₁ (hconfined.links.linklessBelow hlinkless) hrest hdelete
      -- what was deleted is not there for the rest, so it is told of once
      have hleft := occupied_removed ht houtput hlinkless hfirst hremove
      refine ⟨first :: told, rfl, hsub.cons_cons first, ?_, ?_⟩
      · refine List.nodup_cons.mpr ⟨fun hmem => ?_, hnodup⟩
        obtain ⟨r, hr, hplace⟩ := List.mem_map.mp hmem
        have hgone := (htold r (hsub.subset hr)).mp (List.mem_map_of_mem hr)
        exact ((hleft _).mp hgone).2 hplace
      · intro r hr
        by_cases hplace : r.place = first.place
        · rw [hplace]
          exact ⟨fun _ => occupied_of_removeFile ht houtput hlinkless hfirst hremove,
            fun _ => List.mem_cons_self⟩
        · have hlater : r ∈ rest := by
            rcases List.mem_cons.mp hr with rfl | hr
            · exact absurd rfl hplace
            · exact hr
          rw [List.map_cons, List.mem_cons, or_iff_right hplace, htold r hlater, hleft,
            and_iff_left hplace]
    · obtain ⟨told, rfl, hsub, hnodup, htold⟩ := ih ht hlinkless hrest hdelete
      refine ⟨told, rfl, hsub.cons first, hnodup, List.forall_mem_cons.mpr ⟨?_, htold⟩⟩
      have hfree : ¬ Occupied t output first.place := by
        rintro ⟨o, left, hopen, hat⟩
        exact hat (none_of_removeFile_join ht houtput (hlinkless o hopen.reaches) hfirst hopen
          hremove)
      constructor
      · intro hmem
        obtain ⟨r, hr, hplace⟩ := List.mem_map.mp hmem
        rw [← hplace]
        exact (htold r (hsub.subset hr)).mp (List.mem_map_of_mem hr)
      · exact fun hoccupied => absurd hoccupied hfree

end Deleted

/-- A pass over recorded changes, however it ends, leaves every file as it was that is not below the
output, or that is there but neither recorded as removed nor that of a selected class. If it succeeds
it tells once of each file recorded as removed that was there, in the order of the changes. If it is
refused for its configuration it touches nothing. -/
theorem changes_confined (config : PassConfig) (newNames : Renaming) (input : Path) (ht : t.Rooted)
    (hlinkless : t.LinklessBelow output) (hne : changes.isEmpty = false) :
    (∀ t', Leaves config newNames input changes output t t' →
      (∀ q, (∀ o, t.Reaches [] output.segments o → ¬ o <+: q) → t'.fileAt? q = t.fileAt? q) ∧
      ∀ o names, t.Reaches [] output.segments o → ¬ Concerns t input changes names →
        t'.fileAt? (o ++ names) = t.fileAt? (o ++ names)) ∧
    (∀ answer t', run config newNames input changes output t = .ok answer t' →
      ∃ told : List Path, answer.1.deleted = told.map output.join ∧
        told.Sublist (removedPaths input changes) ∧ (told.map Path.place).Nodup ∧
        ∀ r ∈ removedPaths input changes,
          r.place ∈ told.map Path.place ↔ Occupied t output r.place) ∧
    ∀ problem t', run config newNames input changes output t = .error (.configuration problem) t' →
      t' = t := by
  refine ⟨fun t' hleaves => ?_, fun answer t' hrun => ?_, fun problem t' hrun => ?_⟩
  · have hconfined := confined_of_leaves ht hlinkless hne hleaves
    exact ⟨fun q hq => hconfined.outside hq, fun o names ho hnames => hconfined.below ho hnames⟩
  · rw [run_eq_runIn] at hrun
    obtain ⟨hcheck, plan, t₁, t₂, deleted, found, hplan, hemptied, hdelete, -, rfl⟩ :=
      runIn_ok_iff.mp hrun
    obtain ⟨hinput, houtput⟩ := isEmpty_of_checkApart hcheck
    rw [(Plan.choices_of_makeIn hne hplan).1, Bool.false_and, if_neg Bool.false_ne_true] at hemptied
    subst hemptied
    rw [← removed_eq hne hplan]
    exact told_of_deleteOutputs ht houtput hlinkless (inner_of_removed hinput hplan) hdelete
  · exact (misconfigured_of_run hrun).1

section Sample

def confinedChanges : Changes :=
  .ofList [(⟨["A.class"]⟩, .changed), (⟨["Gone.class"]⟩, .removed), (⟨["Old.class"]⟩, .removed)]

private theorem toList_confinedChanges : confinedChanges.toList =
    [(⟨["A.class"]⟩, .changed), (⟨["Gone.class"]⟩, .removed), (⟨["Old.class"]⟩, .removed)] := by
  decide +kernel

def confinedSample : FileTree := sampleStart.set ["out", "B.class"] (.file [])

private theorem concerns_confinedSample {names : Place}
    (h : Concerns confinedSample sampleInput confinedChanges names) :
    names ∈ [["A.class"], ["Gone.class"], ["Old.class"]] := by
  cases h with
  | @removed relative hr =>
    have hremoved : removedPaths sampleInput confinedChanges =
        [⟨["Gone.class"]⟩, ⟨["Old.class"]⟩] := by decide +kernel
    rw [hremoved] at hr
    rcases List.mem_cons.mp hr with rfl | hr
    · decide
    · rw [List.mem_singleton.mp hr]
      decide
  | @selected relative hselects =>
    obtain ⟨change, hmem, hstatus, hrelative⟩ := hselects.recorded
    have hplan : Plan.relative sampleInput ⟨["A.class"]⟩ = .ok ⟨["A.class"]⟩ := by decide +kernel
    rw [toList_confinedChanges] at hmem
    rcases List.mem_cons.mp hmem with rfl | hmem
    · cases hplan.symm.trans hrelative
      decide +kernel
    · rcases List.mem_cons.mp hmem with rfl | hmem
      · simp at hstatus
      · rw [List.mem_singleton.mp hmem] at hstatus
        simp at hstatus

private theorem occupied_confinedSample (names : Place) : Occupied confinedSample ⟨["out"]⟩ names ↔
    confinedSample.at? ("out" :: names) ≠ none := by
  have hopen : confinedSample.Opens linkLimit [] ["out"] ["out"] linkLimit :=
    opens_of_resolveFrom (by decide +kernel)
  constructor
  · rintro ⟨o, left, hopen', hat⟩
    rwa [← (hopen.unique hopen').1] at hat
  · exact fun hat => ⟨["out"], linkLimit, hopen, hat⟩

/-- The pass leaves the file that nothing is recorded for, and tells of the one that it deleted. -/
theorem changes_confined_sample : ∃ answer t',
    run .sequential sampleNames sampleInput confinedChanges ⟨["out"]⟩ confinedSample =
      .ok answer t' ∧
    t'.fileAt? ["in", "A.class"] = some (sampleClass 65 52) ∧
    t'.fileAt? ["out", "B.class"] = some [] ∧
    ∃ told : List Path, answer.1.deleted = told.map (⟨["out"]⟩ : Path).join ∧
      ["Old.class"] ∈ told.map Path.place ∧ ["Gone.class"] ∉ told.map Path.place := by
  have hlaid : Laid confinedSample sampleInput ⟨["out"]⟩ :=
    .of_all (by decide +kernel) (by decide +kernel) (by decide) (by decide +kernel)
  have hrooted : confinedSample.Rooted := .of_all (by decide +kernel)
  have hlinkless : confinedSample.LinklessBelow ⟨["out"]⟩ := fun _ _ _ _ => hlaid.plain.noLink
  have hne : confinedChanges.isEmpty = false := by decide +kernel
  obtain ⟨hleaves, hdeleted, -⟩ :=
    changes_confined .sequential sampleNames sampleInput hrooted hlinkless hne
  have hdone : ((run .sequential sampleNames sampleInput confinedChanges ⟨["out"]⟩).run'
      confinedSample).isSome = true := by
    decide +kernel
  obtain ⟨answer, t', hrun⟩ := ok_of_run' hdone
  have hreaches : confinedSample.Reaches [] ["out"] ["out"] := hlaid.reaches ⟨["out"]⟩
  obtain ⟨houtside, hbelow⟩ := hleaves t' (.inTurn (.inl ⟨answer, hrun⟩))
  obtain ⟨told, htold, -, -, hplaces⟩ := hdeleted answer t' hrun
  refine ⟨answer, t', hrun, ?_, ?_, told, htold, ?_, ?_⟩
  · rw [houtside ["in", "A.class"] fun o ho => ho.unique hreaches ▸ by decide]
    decide +kernel
  · have hfree : ¬ Concerns confinedSample sampleInput confinedChanges ["B.class"] :=
      fun h => absurd (concerns_confinedSample h) (by decide)
    rw [← List.singleton_append, hbelow ["out"] ["B.class"] hreaches hfree]
    decide +kernel
  · exact (hplaces ⟨["Old.class"]⟩ (by decide +kernel)).mpr
      ((occupied_confinedSample _).mpr (by decide +kernel))
  · intro hmem
    exact (occupied_confinedSample _).mp
      ((hplaces ⟨["Gone.class"]⟩ (by decide +kernel)).mp hmem) (by decide +kernel)

end Sample

end Retarget.Pass
