import Retarget.Proofs.Files.Standing
import Retarget.Proofs.Pass.Orders

/-!
The course of a pass. It deletes files below the output, then reads classes and
stores them; every step is kept with the tree that it was done to. A step leaves
alone what is not at its own place: a file that was found stays found unless a
later step hits it, and below an output without links the last step at a place
says what is there in the end.
-/

set_option autoImplicit false

namespace Retarget.Pass

open FileTree

variable {t t' t₁ : FileTree} {input output relative : Path} {newNames : Renaming} {verify : Bool}
  {o q names : Place} {left : Nat} {cp : ClassPath} {config : PassConfig} {changes : Changes}
  {relatives removed deleted : List Path} {seen : List String} {tally : Tally} {content : Bytes}

/-- What a pass does to the tree: it deletes a file below the output, or stores a class that it read
for a file below an input. -/
inductive Act where
  | delete (relative : Path)
  | store (input relative : Path) (w : Work)

namespace Act

def place : Act → Place
  | delete relative => relative.place
  | store _ _ w => ClassPath.placeOf w.name

def leaves : Act → Option Bytes
  | delete _ => none
  | store _ _ w => some w.bytes

def name? : Act → Option String
  | delete _ => none
  | store _ _ w => some w.name

theorem leaves_of_name? {act : Act} (h : act.name? = none) : act.leaves = none := by
  cases act with
  | delete relative => rfl
  | store input relative w => cases h

end Act

variable {act : Act} {steps steps' : List (FileTree × Act)}

/-- One act on a tree, and the tree it leaves. There may be nothing to delete. -/
inductive Does (verify : Bool) (newNames : Renaming) (output : Path) (t : FileTree) :
    Act → FileTree → Prop where
  | gone {relative : Path} {t' : FileTree} (hinner : relative.Inner)
      (hremove : t.removeFile (output.join relative) = .ok t') :
      Does verify newNames output t (.delete relative) t'
  | absent {relative : Path} (hinner : relative.Inner)
      (hremove : t.removeFile (output.join relative) = .error .notFound) :
      Does verify newNames output t (.delete relative) t
  | stored {input relative : Path} {w : Work} {t' : FileTree}
      (hyields : Yields verify newNames t input relative w)
      (hstore : ClassFile.store w.bytes (ClassPath.pathOf output w.name) t = .ok () t') :
      Does verify newNames output t (.store input relative w) t'

/-- Acts one after the other, each with the tree that it was done to. -/
inductive Course (verify : Bool) (newNames : Renaming) (output : Path) :
    FileTree → List (FileTree × Act) → FileTree → Prop where
  | done {t : FileTree} : Course verify newNames output t [] t
  | step {t t₁ t' : FileTree} {act : Act} {steps : List (FileTree × Act)}
      (hdoes : Does verify newNames output t act t₁)
      (hrest : Course verify newNames output t₁ steps t') :
      Course verify newNames output t ((t, act) :: steps) t'

namespace Course

theorem append (h : Course verify newNames output t steps t₁)
    (h' : Course verify newNames output t₁ steps' t') :
    Course verify newNames output t (steps ++ steps') t' := by
  induction h with
  | done => exact h'
  | step hdoes _ ih => exact .step hdoes (ih h')

theorem split (h : Course verify newNames output t (steps ++ steps') t') :
    ∃ t₁, Course verify newNames output t steps t₁ ∧ Course verify newNames output t₁ steps' t' := by
  induction steps generalizing t with
  | nil => exact ⟨t, .done, h⟩
  | cons step steps ih =>
    cases h with
    | step hdoes hrest =>
      obtain ⟨t₁, hfront, hback⟩ := ih hrest
      exact ⟨t₁, .step hdoes hfront, hback⟩

theorem does_of_mem {step : FileTree × Act} (h : Course verify newNames output t steps t')
    (hstep : step ∈ steps) : ∃ t₁, Does verify newNames output step.1 step.2 t₁ := by
  induction h with
  | done => cases hstep
  | step hdoes _ ih =>
    rcases List.mem_cons.mp hstep with rfl | hstep
    · exact ⟨_, hdoes⟩
    · exact ih hstep

end Course

section Runs

private theorem course_of_deleteOutputs (verify : Bool) (newNames : Renaming)
    (hremoved : ∀ r ∈ removed, r.Inner)
    (h : deleteOutputs output removed t = .ok deleted t') :
    ∃ steps, Course verify newNames output t steps t' ∧
      steps.map Prod.snd = removed.map .delete := by
  induction removed generalizing t deleted with
  | nil =>
    cases h
    exact ⟨[], .done, rfl⟩
  | cons r rest ih =>
    obtain ⟨hr, hrest⟩ := List.forall_mem_cons.mp hremoved
    rcases deleteOutputs_cons_ok h with ⟨t₁, more, hremove, hdelete, -⟩ | ⟨hremove, hdelete⟩
    · obtain ⟨steps, hcourse, hacts⟩ := ih hrest hdelete
      exact ⟨(t, .delete r) :: steps, .step (.gone hr hremove) hcourse, by
        rw [List.map_cons, List.map_cons, hacts]⟩
    · obtain ⟨steps, hcourse, hacts⟩ := ih hrest hdelete
      exact ⟨(t, .delete r) :: steps, .step (.absent hr hremove) hcourse, by
        rw [List.map_cons, List.map_cons, hacts]⟩

def storedNames (steps : List (FileTree × Act)) : List String :=
  steps.filterMap fun step => step.2.name?

theorem mem_storedNames {name : String} : name ∈ storedNames steps ↔
    ∃ t input relative w, (t, Act.store input relative w) ∈ steps ∧ w.name = name := by
  rw [storedNames, List.mem_filterMap]
  constructor
  · rintro ⟨⟨t, act⟩, hmem, hname⟩
    cases act with
    | delete relative => cases hname
    | store input relative w => exact ⟨t, input, relative, w, hmem, Option.some.inj hname⟩
  · rintro ⟨t, input, relative, w, hmem, rfl⟩
    exact ⟨_, hmem, rfl⟩

theorem name?_of_place {name : String} {step : FileTree × Act} (hlast : name ∉ storedNames steps)
    (hstep : step ∈ steps) (hplace : step.2.place = ClassPath.placeOf name) :
    step.2.name? = none := by
  obtain ⟨t, act⟩ := step
  cases act with
  | delete relative => rfl
  | store input relative w =>
    have hsame : w.name = name := ClassPath.eq_of_placeOf_prefix (hplace ▸ List.prefix_rfl)
    exact absurd (mem_storedNames.mpr ⟨t, input, relative, w, hstep, hsame⟩) hlast

theorem name?_of_forall₂ {classes : List Path}
    (h : List.Forall₂ (fun r step => ∃ w, step.2 = Act.store input r w) classes steps) :
    ∀ step ∈ steps, step.2.name? ≠ none := by
  intro step hstep
  obtain ⟨r, -, w, hact⟩ := exists_of_forall₂ h hstep
  rw [hact]
  exact Option.some_ne_none w.name

theorem course_of_processClasses {answer : List String × Tally} (hcp : cp.Grown)
    (h : processClasses newNames output relatives seen tally cp t = .ok answer t') :
    ∃ steps, Course cp.verify newNames output t steps t' ∧
      List.Forall₂ (fun r step => ∃ w, step.2 = Act.store cp.root r w) relatives steps ∧
      answer.1 = (storedNames steps).reverse ++ seen := by
  induction relatives generalizing t seen tally cp with
  | nil =>
    cases h
    exact ⟨[], .done, .nil, rfl⟩
  | cons r rest ih =>
    rw [processClasses] at h
    cases hprocess : processClass newNames output r cp t with
    | error fault t₁ =>
      rw [hprocess] at h
      cases h
    | ok done t₁ =>
      obtain ⟨w, hname, -, ⟨hroot, hverify, hcp'⟩, hyields, hstore⟩ :=
        yields_of_processClass hcp hprocess
      obtain ⟨name, more, cp'⟩ := done
      simp only at hname hroot hverify hcp'
      subst hname
      rw [hprocess] at h
      obtain ⟨steps, hcourse, hsteps, hnames⟩ := ih hcp' h
      rw [hverify] at hcourse
      rw [hroot] at hsteps
      refine ⟨(t, .store cp.root r w) :: steps, .step (.stored hyields hstore) hcourse,
        .cons ⟨w, rfl⟩ hsteps, ?_⟩
      have hstored : storedNames ((t, .store cp.root r w) :: steps) =
          w.name :: storedNames steps := rfl
      rw [hnames, hstored, List.reverse_cons, List.append_assoc, List.singleton_append]

/-- A pass empties the output if need be, then deletes what its plan removes and stores the classes
of its plan in their order. -/
theorem course_of_run {answer : Report × Nat}
    (h : run config newNames input changes output t = .ok answer t') :
    checkApart t input output = .ok () ∧ ∃ plan t₁ deletions stores,
      Plan.make t input changes = .ok plan ∧
      (if plan.fullRebuild && config.clean then emptyOutput output t = .ok () t₁ else t₁ = t) ∧
      Course config.verify newNames output t₁ (deletions ++ stores) t' ∧
      deletions.map Prod.snd = plan.removed.map .delete ∧
      List.Forall₂ (fun r step => ∃ w, step.2 = Act.store input r w) plan.classes stores ∧
      answer.1.processed.Perm (storedNames stores) ∧ answer.1.fullRebuild = plan.fullRebuild := by
  rw [run_eq_runIn] at h
  obtain ⟨hcheck, plan, t₁, t₂, deleted, found, hplan, hemptied, hdeleted, hprocessed, rfl⟩ :=
    runIn_ok_iff.mp h
  obtain ⟨hinput, -⟩ := isEmpty_of_checkApart hcheck
  obtain ⟨deletions, hdeletions, hacts⟩ := course_of_deleteOutputs config.verify newNames
    (inner_of_removed hinput hplan) hdeleted
  obtain ⟨stores, hstores, hclasses, hnames⟩ :=
    course_of_processClasses (ClassPath.grown_new input config.verify) hprocessed
  refine ⟨hcheck, plan, t₁, deletions, stores, hplan, hemptied, hdeletions.append hstores, hacts,
    hclasses, ?_, rfl⟩
  rw [List.append_nil] at hnames
  rw [hnames]
  exact (List.mergeSort_perm _ _).trans (List.reverse_perm _)

theorem processed_perm {answer : Report × Nat}
    (h : run config newNames input changes output t = .ok answer t') :
    ∃ plan, Plan.make t input changes = .ok plan ∧
      answer.1.processed.Perm (plan.classes.map Path.binaryName) := by
  obtain ⟨-, plan, t₁, deletions, stores, hplan, -, hcourse, -, hstores, hnames, -⟩ :=
    course_of_run h
  refine ⟨plan, hplan, ?_⟩
  have hname : ∀ {u : FileTree} {r : Path} {w : Work},
      (u, Act.store input r w) ∈ stores → w.name = r.binaryName := by
    intro u r w hstep
    obtain ⟨t₂, hdoes⟩ := hcourse.does_of_mem (List.mem_append_right deletions hstep)
    cases hdoes with
    | stored hyields => exact hyields.name_eq
  have hstored : storedNames stores = plan.classes.map Path.binaryName := by
    clear hnames hcourse hplan
    generalize plan.classes = classes at hstores
    induction hstores with
    | nil => rfl
    | @cons r step classes steps hfirst _ ih =>
      obtain ⟨u, act⟩ := step
      obtain ⟨w, hact⟩ := hfirst
      dsimp only at hact
      subst hact
      rw [List.map_cons, ← ih fun hstep => hname (List.mem_cons_of_mem _ hstep),
        ← hname List.mem_cons_self]
      rfl
  rw [← hstored]
  exact hnames

end Runs

section Found

/-- An act hits a file if it deletes it or a link, which may be on the way to it, or writes where it
is. -/
inductive Hits (output : Path) (t : FileTree) (q : Place) : Act → Prop where
  | deleted {relative : Path} {node : Node}
      (hlookup : t.lookup false (output.join relative) = .ok (q, node)) :
      Hits output t q (.delete relative)
  | unlinked {relative : Path} {place : Place} {target : Path}
      (hlookup : t.lookup false (output.join relative) = .ok (place, .link target)) :
      Hits output t q (.delete relative)
  | written {input relative : Path} {w : Work}
      (hreaches : t.Reaches [] (ClassPath.pathOf output w.name).segments q) :
      Hits output t q (.store input relative w)

private theorem Does.stays_found {p : Path} (h : Does verify newNames output t act t')
    (hmiss : ¬ Hits output t q act) (hfound : t.lookup true p = .ok (q, .file content)) :
    t'.lookup true p = .ok (q, .file content) := by
  have hq : t.at? q = some (.file content) := at?_of_lookup_file hfound
  cases h with
  | absent => exact hfound
  | @gone relative _ hinner hremove =>
    obtain ⟨⟨place, node⟩, hlookup⟩ := lookup_of_removeFile hremove
    rw [removeFile, hlookup] at hremove
    cases node with
    | directory => cases hremove
    | link target => exact absurd (.unlinked hlookup) hmiss
    | file old =>
      cases hremove
      have hplace : t.at? place = some (.file old) :=
        at?_of_lookup_file (lookup_follow (fun _ => Node.noConfusion) hlookup)
      have hapart : q ≠ place := by
        rintro rfl
        exact hmiss (.deleted hlookup)
      apply lookup_of_carries (carries_erase_file hplace) _ hfound
      rw [at?_erase (ne_nil_of_file hplace), if_neg hapart, hq]
  | @stored input relative w _ hyields hstore =>
    obtain ⟨t₁, hadds, hwrite⟩ := write_of_store hstore
    obtain ⟨place, hreaches, hne, hdirectory, hlink, rfl, -⟩ := write_found hwrite
    have hapart : q ≠ place := by
      rintro rfl
      exact hmiss (.written (hreaches.congr hadds.link_iff.symm))
    have hset := carries_set_file hne hdirectory hlink w.bytes
    have hcarries : t.Carries (t₁.set place (.file w.bytes)) :=
      ⟨fun hr => hset.directory (hadds.carries.directory hr),
        fun hr => hset.link (hadds.carries.link hr)⟩
    apply lookup_of_carries hcarries _ hfound
    rw [at?_set hne, if_neg hapart]
    exact hadds.at?_of_some hq

private theorem Course.stays_found {p : Path} (h : Course verify newNames output t steps t')
    (hmiss : ∀ step ∈ steps, ¬ Hits output step.1 q step.2)
    (hfound : t.lookup true p = .ok (q, .file content)) :
    t'.lookup true p = .ok (q, .file content) := by
  induction h with
  | done => exact hfound
  | step hdoes _ ih =>
    obtain ⟨hfirst, hrest⟩ := List.forall_mem_cons.mp hmiss
    exact ih hrest (hdoes.stays_found hfirst hfound)

/-- How a class goes through a course: its file is read below the input, renamed and stored, with
steps before and after that. -/
structure Handling (verify : Bool) (newNames : Renaming) (input output : Path) (t t' : FileTree)
    (name : String) where
  wellFormed : ClassPath.isWellFormed name = true
  front : List (FileTree × Act)
  /-- The tree that the class is read from and stored in, what is read there and what is stored. -/
  read : FileTree
  data : Bytes
  bytes : Bytes
  stored : FileTree
  /-- Where the stored file is. -/
  place : Place
  rest : List (FileTree × Act)
  course_front : Course verify newNames output t front read
  contents : read.contents (ClassPath.pathOf input name) = .ok data
  renamed : ClassFile.renameBytes newNames data = .ok bytes
  store : ClassFile.store bytes (ClassPath.pathOf output name) read = .ok () stored
  found : stored.lookup true (ClassPath.pathOf output name) = .ok (place, .file bytes)
  course_rest : Course verify newNames output stored rest t'

theorem handling_of_yields {front rest : List (FileTree × Act)} {u u' : FileTree} {w : Work}
    (hfront : Course verify newNames output t front u)
    (hyields : Yields verify newNames u input relative w)
    (hstore : ClassFile.store w.bytes (ClassPath.pathOf output w.name) u = .ok () u')
    (hrest : Course verify newNames output u' rest t') :
    ∃ done : Handling verify newNames input output t t' w.name,
      done.front = front ∧ done.rest = rest ∧ done.read = u ∧ done.bytes = w.bytes := by
  obtain ⟨place, hfound, -⟩ := store_found hstore
  obtain ⟨-, hwell, hdata, hparsed, -, hrenamed, hwritten⟩ := hyields
  obtain ⟨bytes, hbytes, hrename, -⟩ := ClassFile.renameBytes_of_rename hparsed hrenamed
  cases hbytes.symm.trans hwritten
  exact ⟨⟨hwell, front, u, _, w.bytes, _, place, rest, hfront, hdata, hrename, hstore, hfound,
    hrest⟩, rfl, rfl, rfl, rfl⟩

theorem exists_handling {front rest : List (FileTree × Act)} {u : FileTree} {w : Work}
    (h : Course verify newNames output t (front ++ (u, .store input relative w) :: rest) t') :
    ∃ done : Handling verify newNames input output t t' w.name,
      done.front = front ∧ done.rest = rest := by
  obtain ⟨u', hfront, hback⟩ := h.split
  cases hback with
  | step hdoes hrest =>
    cases hdoes with
    | stored hyields hstore =>
      obtain ⟨done, hfront', hrest', -⟩ := handling_of_yields hfront hyields hstore hrest
      exact ⟨done, hfront', hrest'⟩

theorem Handling.stays_found {name : String}
    (done : Handling verify newNames input output t t' name)
    (hmiss : ∀ step ∈ done.rest, ¬ Hits output step.1 done.place step.2) :
    t'.lookup true (ClassPath.pathOf output name) = .ok (done.place, .file done.bytes) :=
  done.course_rest.stays_found hmiss done.found

end Found

section Linkless

private theorem Does.touched (ht : t.Rooted) (houtput : output.isEmpty = false)
    (hlinkless : t.LinklessBelow output) (h : Does verify newNames output t act t') :
    Touched t t' output := by
  cases h with
  | absent => exact .refl ht output
  | gone hinner hremove =>
    obtain ⟨o, old, ho, hfile, rfl⟩ := removeFile_join ht houtput hlinkless hinner hremove
    exact .of_erase ht ho hfile
  | stored hyields hstore =>
    obtain ⟨-, t₁, o, left, hmakes, hstores⟩ :=
      (store_work_iff ht houtput hlinkless hyields.wellFormed).mp hstore
    exact .of_stored ht hlinkless hmakes hstores

theorem Course.touched (ht : t.Rooted) (houtput : output.isEmpty = false)
    (hlinkless : t.LinklessBelow output) (h : Course verify newNames output t steps t') :
    Touched t t' output := by
  induction h with
  | done => exact .refl ht output
  | step hdoes _ ih =>
    have hfirst := hdoes.touched ht houtput hlinkless
    exact hfirst.trans (ih hfirst.rooted (hfirst.links.linklessBelow hlinkless))

theorem Handling.data_eq {name : String} (hs : Settled t input output)
    (houtput : output.isEmpty = false) (hinput : input.isEmpty = false)
    (done : Handling verify newNames input output t t' name) :
    ∃ i, t.Reaches [] input.segments i ∧
      t.fileAt? (i ++ ClassPath.placeOf name) = some done.data := by
  have hread := done.course_front.touched hs.rooted houtput hs.linklessOutput
  obtain ⟨-, -, -, i, left, hopen, hfile⟩ :=
    ((hread.settled hs).contents_ok_iff hinput done.wellFormed).mp done.contents
  have hi : t.Reaches [] input.segments i := hread.links.reaches_iff.mp hopen.reaches
  exact ⟨i, hi, (hread.same hs hi _).symm.trans hfile⟩

private theorem Does.fileAt? (ht : t.Rooted) (houtput : output.isEmpty = false)
    (hlinkless : t.LinklessBelow output) (ho : t.Reaches [] output.segments o)
    (hopen : act.name? = none → ∃ left, t.Opens linkLimit [] output.segments o left)
    (h : Does verify newNames output t act t') (names : Place) :
    t'.fileAt? (o ++ names) = if act.place = names then act.leaves else t.fileAt? (o ++ names) := by
  cases h with
  | @absent relative hinner hremove =>
    obtain ⟨left, hopen⟩ := hopen rfl
    have hnone := none_of_removeFile_join ht houtput (hlinkless o ho) hinner hopen hremove
    split_ifs with hplace
    · rw [← hplace, Act.place, FileTree.fileAt?, hnone, Act.leaves]
    · rfl
  | @gone relative _ hinner hremove =>
    obtain ⟨o', old, ho', hfile, rfl⟩ := removeFile_join ht houtput hlinkless hinner hremove
    rw [ho'.unique ho] at hfile ⊢
    have herase := at?_erase (ne_nil_of_file hfile) t (o ++ names)
    split_ifs with hplace
    · have heq : o ++ names = o ++ relative.place := by rw [← hplace, Act.place]
      rw [if_pos heq] at herase
      rw [FileTree.fileAt?, herase, Act.leaves]
    · have hne : o ++ names ≠ o ++ relative.place :=
        fun heq => hplace (List.append_cancel_left heq).symm
      rw [if_neg hne] at herase
      exact fileAt?_congr herase
  | @stored input relative w _ hyields hstore =>
    obtain ⟨-, t₁, o', left, hmakes, hstores⟩ :=
      (store_work_iff ht houtput hlinkless hyields.wellFormed).mp hstore
    rw [hmakes.reaches.unique ho] at hstores
    split_ifs with hplace
    · rw [← hplace]
      exact fileAt?_eq_some_iff.mpr (hstores.file w.file List.mem_cons_self)
    · rw [hstores.fileAt?_eq, hmakes.adds.fileAt?_eq]
      intro file hfile heq
      rw [List.mem_singleton.mp hfile] at heq
      exact hplace (List.append_cancel_left heq).symm

def fileAfter (steps : List (FileTree × Act)) (names : Place) (file : Option Bytes) : Option Bytes :=
  steps.foldl (fun file step => if step.2.place = names then step.2.leaves else file) file

theorem fileAfter_cons (step : FileTree × Act) (steps : List (FileTree × Act)) (names : Place)
    (file : Option Bytes) : fileAfter (step :: steps) names file =
      fileAfter steps names (if step.2.place = names then step.2.leaves else file) := rfl

/-- The last step at a place below the output says which file is there in the end, if the output is
open when a file is to be deleted. -/
theorem Course.fileAt? (ht : t.Rooted) (houtput : output.isEmpty = false)
    (hlinkless : t.LinklessBelow output) (ho : t.Reaches [] output.segments o)
    (hopen : (∃ left, t.Opens linkLimit [] output.segments o left) ∨
      ∀ step ∈ steps, step.2.name? ≠ none)
    (h : Course verify newNames output t steps t') (names : Place) :
    t'.fileAt? (o ++ names) = fileAfter steps names (t.fileAt? (o ++ names)) := by
  induction h with
  | done => rfl
  | @step t t₁ _ act steps hdoes _ ih =>
    have htouched := hdoes.touched ht houtput hlinkless
    have hfirst : act.name? = none → ∃ left, t.Opens linkLimit [] output.segments o left := by
      intro hdelete
      rcases hopen with hopen | hstored
      · exact hopen
      · exact absurd hdelete (hstored _ List.mem_cons_self)
    have hrest : (∃ left, t₁.Opens linkLimit [] output.segments o left) ∨
        ∀ step ∈ steps, step.2.name? ≠ none := by
      rcases hopen with ⟨left, hopen⟩ | hstored
      · exact .inl ⟨left, hopen.mono htouched.carries⟩
      · exact .inr fun step hstep => hstored step (List.mem_cons_of_mem _ hstep)
    rw [fileAfter_cons, ← hdoes.fileAt? ht houtput hlinkless ho hfirst names]
    exact ih htouched.rooted (htouched.links.linklessBelow hlinkless)
      (htouched.links.reaches_iff.mpr ho) hrest

end Linkless

end Retarget.Pass
