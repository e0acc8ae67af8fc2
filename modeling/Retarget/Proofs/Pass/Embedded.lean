import Retarget.Embedding
import Retarget.Proofs.Pass.Delivery
import Retarget.Proofs.Pass.Incremental

/-!
What embedding delivers when everything is done again. The inputs follow each
other into one output, which is emptied once before the first of them. A class
file is stored for every one below an input, and where two inputs hold one under
the same names, the later one counts. Nothing else is left below the output if
it could be emptied.
-/

set_option autoImplicit false

namespace Retarget.Embedding

open FileTree Pass

variable {t t' t₁ : FileTree} {e : Embedding} {pass : PassConfig} {newNames : Renaming}
  {input : Input} {inputs : List Input} {output : Path} {report : Report} {warnings : Nat}
  {answer : Report × Nat} {places : List Place}

/-- The content of a class file in the last one of some places that has it. -/
def lastClass? (t : FileTree) (places : List Place) (names : Place) : Option Bytes :=
  places.reverse.findSome? fun i => classIn? t i names

private theorem lastClass?_cons (t : FileTree) (i : Place) (places : List Place) (names : Place) :
    lastClass? t (i :: places) names = (lastClass? t places names).or (classIn? t i names) := by
  rw [lastClass?, List.reverse_cons, List.findSome?_append, List.findSome?_singleton, lastClass?]

private theorem lastClass?_congr
    (h : ∀ i ∈ places, ∀ names : Place, t'.fileAt? (i ++ names) = t.fileAt? (i ++ names)) :
    lastClass? t' places = lastClass? t places := by
  induction places with
  | nil => rfl
  | cons i places ih =>
    obtain ⟨hi, hplaces⟩ := List.forall_mem_cons.mp h
    funext names
    rw [lastClass?_cons, lastClass?_cons, ih hplaces, classIn?_congr hi]

private theorem delivered_trans {classes classes' : Place → Option Bytes} (hlinks : SameLinks t t₁)
    (h : Delivered newNames output classes t t₁) (h' : Delivered newNames output classes' t₁ t') :
    Delivered newNames output (fun names => (classes' names).or (classes names)) t t' where
  stored {names data} hdata := by
    cases hlater : classes' names with
    | some data' =>
      rw [hlater] at hdata
      cases hdata
      obtain ⟨o, bytes, ho, hrest⟩ := h'.stored hlater
      exact ⟨o, bytes, hlinks.reaches_iff.mp ho, hrest⟩
    | none =>
      rw [hlater] at hdata
      obtain ⟨o, bytes, ho, hbytes, hfile⟩ := h.stored hdata
      refine ⟨o, bytes, ho, hbytes, ?_⟩
      rw [h'.kept (hlinks.reaches_iff.mpr ho) hlater, hfile]
  kept {o names} ho hnone := by
    obtain ⟨hlater, hearlier⟩ := Option.or_eq_none_iff.mp hnone
    rw [h'.kept (hlinks.reaches_iff.mpr ho) hlater, h.kept ho hearlier]

/-- An input that is settled beside the output, holds class files of tidy names only, and comes
without changes, so that all of it is done again. -/
structure Fit (t : FileTree) (output : Path) (input : Input) : Prop where
  settled : Settled t input.root output
  tidy : ∀ {i names : Place} {data : Bytes}, t.Reaches [] input.root.segments i →
    classIn? t i names = some data → Tidy names
  unchanged : input.changes.isEmpty = true

private theorem Fit.touched (h : Fit t output input) (htouched : Touched t t' output) :
    Fit t' output input where
  settled := htouched.settled h.settled
  tidy {i names data} hi hclass := by
    have hi' : t.Reaches [] input.root.segments i := htouched.links.reaches_iff.mp hi
    rw [classIn?_congr (htouched.same h.settled hi')] at hclass
    exact h.tidy hi' hclass
  unchanged := h.unchanged

private theorem delivered_of_runInputs (ht : t.Rooted) (hclean : pass.clean = false)
    (hfit : ∀ input ∈ inputs, Fit t output input)
    (h : runInputs pass newNames output inputs report warnings t = .ok answer t') :
    Touched t t' output ∧ ∃ places,
      List.Forall₂ (fun input i => t.Reaches [] input.root.segments i) inputs places ∧
        Delivered newNames output (lastClass? t places) t t' := by
  induction inputs generalizing t report warnings with
  | nil =>
    cases h
    refine ⟨.refl ht output, [], .nil, fun hdata => ?_, fun _ _ => rfl⟩
    cases hdata
  | cons input rest ih =>
    obtain ⟨hfirst, hrest⟩ := List.forall_mem_cons.mp hfit
    rw [runInputs] at h
    obtain ⟨⟨next, more⟩, t₁, hrun, hruns⟩ := bind_ok_iff.mp h
    obtain ⟨htouched, i, hi, hdelivered⟩ :=
      delivered_of_run hfirst.settled hfirst.tidy hfirst.unchanged hclean hrun
    obtain ⟨htouched', places, hplaces, hdelivered'⟩ := ih htouched.rooted
      (fun input hinput => (hrest input hinput).touched htouched) hruns
    have hreached := hplaces.imp fun _ _ => htouched.links.reaches_iff.mp
    refine ⟨htouched.trans htouched', i :: places, .cons hi hreached, ?_⟩
    have hsame : lastClass? t₁ places = lastClass? t places := by
      apply lastClass?_congr
      intro i' hi' names
      obtain ⟨input', hinput', hreaches⟩ := exists_of_forall₂ hreached hi'
      exact htouched.same (hrest input' hinput').settled hreaches names
    rw [hsame] at hdelivered'
    have hboth : lastClass? t (i :: places) =
        fun names => (lastClass? t places names).or (classIn? t i names) :=
      funext (lastClass?_cons t i places)
    rw [hboth]
    exact delivered_trans htouched.links hdelivered hdelivered'

section Emptied

/-- The tree that the first pass starts on: the output is emptied if everything is done again. -/
def Starts (e : Embedding) (inputs : List Input) (output : Path) (t s : FileTree) : Prop :=
  if inputs.all (fun input => input.changes.isEmpty) && e.pass.clean then
    emptyOutput output t = .ok () s
  else s = t

theorem Starts.kept (ht : t.Rooted) (hlinkless : t.LinklessBelow output)
    (h : e.Starts inputs output t t₁) : t₁.Rooted ∧ SameLinks t t₁ ∧
      ∀ q : Place, (∀ o, t.Reaches [] output.segments o → ¬ o <+: q) → t₁.at? q = t.at? q := by
  rw [Starts] at h
  split_ifs at h
  · obtain ⟨hrooted, hlinks⟩ := kept_of_emptyOutput ht hlinkless h
    exact ⟨hrooted, hlinks, fun q hq => at?_of_emptyOutput hq h⟩
  · subst h
    exact ⟨ht, fun _ _ => Iff.rfl, fun _ _ => rfl⟩

def eachPass (e : Embedding) : PassConfig := { e.pass with clean := false }

theorem told_of_runInputs (h : runInputs pass newNames output inputs report warnings t =
    .ok answer t') : ∃ (names : List String) (deleted : List Path),
      ∀ (report : Report) (warnings : Nat), ∃ answer,
        runInputs pass newNames output inputs report warnings t = .ok answer t' ∧
        (∀ name, name ∈ answer.1.processed ↔ name ∈ report.processed ∨ name ∈ names) ∧
        answer.1.deleted = report.deleted ++ deleted := by
  induction inputs generalizing t report warnings with
  | nil =>
    cases h
    refine ⟨[], [], fun report warnings => ⟨(report, warnings), rfl, fun name => ?_, ?_⟩⟩
    · simp
    · rw [List.append_nil]
  | cons input rest ih =>
    rw [runInputs] at h
    obtain ⟨⟨next, more⟩, t₁, hrun, hruns⟩ := bind_ok_iff.mp h
    obtain ⟨names, deleted, htold⟩ := ih hruns
    refine ⟨next.processed ++ names, next.deleted ++ deleted, fun report warnings => ?_⟩
    obtain ⟨answer, hanswer, hnames, hdeleted⟩ := htold (report.append next) (warnings + more)
    refine ⟨answer, bind_ok_iff.mpr ⟨(next, more), t₁, hrun, hanswer⟩, fun name => ?_, ?_⟩
    · rw [hnames, Report.append, Report.sortNames, List.mem_mergeSort, List.mem_append,
        List.mem_append, or_assoc]
    · rw [hdeleted, Report.append, List.append_assoc]

section Checked

variable {α : Type} {u : Unit} {check : α → Except Fault Unit} {as : List α} {fault : Fault}

private theorem of_forM_ofExcept
    (h : (as.forM fun a => (MonadExcept.ofExcept (check a) : Step Unit)) t = .ok u t') :
    (∀ a ∈ as, check a = .ok ()) ∧ t' = t := by
  induction as generalizing t with
  | nil =>
    cases h
    exact ⟨fun a ha => (List.not_mem_nil ha).elim, rfl⟩
  | cons a rest ih =>
    obtain ⟨v, t₁, hfirst, hrest⟩ := bind_ok_iff.mp h
    obtain ⟨hcheck, rfl⟩ := ofExcept_ok hfirst
    obtain ⟨hall, rfl⟩ := ih hrest
    exact ⟨List.forall_mem_cons.mpr ⟨hcheck, hall⟩, rfl⟩

private theorem of_forM_ofExcept_error
    (h : (as.forM fun a => (MonadExcept.ofExcept (check a) : Step Unit)) t = .error fault t') :
    (∃ a ∈ as, check a = .error fault) ∧ t' = t := by
  induction as generalizing t with
  | nil => cases h
  | cons a rest ih =>
    rcases bind_error_iff.mp h with hfirst | ⟨v, t₁, hfirst, hrest⟩
    · obtain ⟨hcheck, rfl⟩ := ofExcept_error hfirst
      exact ⟨⟨a, List.mem_cons_self, hcheck⟩, rfl⟩
    · obtain ⟨-, rfl⟩ := ofExcept_ok hfirst
      obtain ⟨⟨b, hb, hcheck⟩, rfl⟩ := ih hrest
      exact ⟨⟨b, List.mem_cons_of_mem a hb, hcheck⟩, rfl⟩

end Checked

/-- Embedding checks all inputs, empties the output, if it does everything again, and goes through
its inputs. -/
theorem run_steps (h : e.run inputs output t = .ok answer t') :
    (∀ input ∈ inputs, checkApart t input.root output = .ok ()) ∧
      ∃ s, e.Starts inputs output t s ∧ runInputs e.eachPass e.newNames output inputs
        { Report.empty with fullRebuild := true } 0 s = .ok answer t' := by
  rw [run] at h
  obtain ⟨t₀, t₁, hget, hchecked⟩ := bind_ok_iff.mp h
  cases hget
  obtain ⟨u, t₁, hchecks, hrest⟩ := bind_ok_iff.mp hchecked
  obtain ⟨hall, rfl⟩ := of_forM_ofExcept hchecks
  refine ⟨hall, ?_⟩
  simp only [Starts]
  split_ifs at hrest ⊢ with hagain
  · obtain ⟨u, s, hemptied, hruns⟩ := bind_ok_iff.mp hrest
    exact ⟨s, hemptied, hruns⟩
  · exact ⟨_, rfl, hrest⟩

theorem run_error_steps {fault : Fault} (h : e.run inputs output t = .error fault t') :
    (∃ input ∈ inputs, checkApart t input.root output = .error fault) ∧ t' = t ∨
    (∀ input ∈ inputs, checkApart t input.root output = .ok ()) ∧
      (emptyOutput output t = .error fault t' ∨
        ∃ s, e.Starts inputs output t s ∧ runInputs e.eachPass e.newNames output inputs
          { Report.empty with fullRebuild := true } 0 s = .error fault t') := by
  rw [run] at h
  rcases bind_error_iff.mp h with hget | ⟨t₀, t₁, hget, hchecked⟩
  · cases hget
  cases hget
  rcases bind_error_iff.mp hchecked with hfailed | ⟨u, t₁, hchecks, hrest⟩
  · exact .inl (of_forM_ofExcept_error hfailed)
  obtain ⟨hall, rfl⟩ := of_forM_ofExcept hchecks
  refine .inr ⟨hall, ?_⟩
  simp only [Starts]
  split_ifs at hrest ⊢ with hagain
  · rcases bind_error_iff.mp hrest with hemptied | ⟨u, s, hemptied, hruns⟩
    · exact .inl hemptied
    · exact .inr ⟨s, hemptied, hruns⟩
  · exact .inr ⟨_, rfl, hrest⟩

/-- The output is found when it is to be emptied, or holds no files but those that are replaced. -/
def Emptied (t : FileTree) (output : Path) (places : List Place) : Prop :=
  (∃ o, t.lookup true output = .ok (o, .directory)) ∨
    ∀ o names : Place, t.Reaches [] output.segments o → names ≠ [] →
      lastClass? t places names = none → t.fileAt? (o ++ names) = none

private theorem gone_iff (hlinks : SameLinks t t₁) (hemptied : emptyOutput output t = .ok () t₁)
    (h : Delivered newNames output (lastClass? t places) t₁ t') :
    (∀ o names : Place, t.Reaches [] output.segments o → names ≠ [] →
      lastClass? t places names = none → t'.fileAt? (o ++ names) = none) ↔
    Emptied t output places := by
  have hkept : ∀ {o names : Place}, t.Reaches [] output.segments o →
      lastClass? t places names = none → t'.fileAt? (o ++ names) = t₁.fileAt? (o ++ names) :=
    fun ho hnone => h.kept (hlinks.reaches_iff.mpr ho) hnone
  rcases emptyOutput_cases hemptied with ⟨o, hlookup, rfl⟩ | ⟨hmissing, rfl⟩
  · constructor
    · intro _
      exact .inl ⟨o, hlookup⟩
    · intro _ o' names ho' hne hnone
      rw [hkept ho' hnone, ho'.unique (reaches_of_lookup hlookup)]
      exact fileAt?_clear_below t o hne
  · constructor
    · intro hgone
      right
      intro o names ho hne hnone
      rw [← hkept ho hnone]
      exact hgone o names ho hne hnone
    · rintro (⟨o, hlookup⟩ | hnothing)
      · cases hmissing.symm.trans hlookup
      · intro o names ho hne hnone
        rw [hkept ho hnone]
        exact hnothing o names ho hne hnone

private theorem emptied_of_down (ht : t.Rooted) (houtput : output.isEmpty = false)
    (hdown : ".." ∉ output.segments)
    (hlinks : ∀ (q : Place) (target : Path), t.at? q = some (.link target) → ".." ∉ target.segments)
    (h : emptyOutput output t = .ok () t₁) (places : List Place) : Emptied t output places := by
  rcases emptyOutput_cases h with ⟨o, hlookup, -⟩ | ⟨hmissing, -⟩
  · exact .inl ⟨o, hlookup⟩
  · right
    intro o names ho _ _
    have hnone := ht.none_of_misses hlinks hdown (misses_of_lookup houtput hmissing) ho
    rw [fileAt?, ht.none_below hnone]

end Emptied

/-- If everything is done again, the class files below the inputs are delivered, each renamed and
from the last input that has it. No other files are left below the output exactly if it could be
emptied, which it could if nothing leads up on the way there; and all other files are as they
were. -/
theorem delivered_exactly (hclean : e.pass.clean = true) (ht : t.Rooted)
    (hlinkless : t.LinklessBelow output)
    (hempty : ∀ input ∈ inputs, input.changes.isEmpty = true)
    (hs : ∀ input ∈ inputs, Settled t input.root output)
    (hneat : ∀ input ∈ inputs, ∀ i, t.Reaches [] input.root.segments i → Neat t i)
    (h : e.run inputs output t = .ok answer t') :
    ∃ places, List.Forall₂ (fun input i => t.Reaches [] input.root.segments i) inputs places ∧
      (∀ names data, lastClass? t places names = some data → ∃ o bytes,
        t.Reaches [] output.segments o ∧ ClassFile.renameBytes e.newNames data = .ok bytes ∧
        t'.fileAt? (o ++ names) = some bytes) ∧
      ((∀ o names : Place, t.Reaches [] output.segments o → names ≠ [] →
        lastClass? t places names = none → t'.fileAt? (o ++ names) = none) ↔
        Emptied t output places) ∧
      (output.isEmpty = false → ".." ∉ output.segments →
        (∀ q target, t.at? q = some (.link target) → ".." ∉ target.segments) →
        Emptied t output places) ∧
      ∀ q : Place, (∀ o, t.Reaches [] output.segments o → ¬ o <+: q) →
        t'.fileAt? q = t.fileAt? q := by
  obtain ⟨-, t₁, hemptied, hruns⟩ := run_steps h
  have hagain : (inputs.all (fun input => input.changes.isEmpty) && e.pass.clean) = true := by
    rw [hclean, Bool.and_true, List.all_eq_true]
    exact hempty
  rw [Starts, if_pos hagain] at hemptied
  obtain ⟨ht₁, hlinks⟩ := kept_of_emptyOutput ht hlinkless hemptied
  -- emptying the output leaves the inputs as they are
  have hsame : ∀ {input i}, input ∈ inputs → t.Reaches [] input.root.segments i →
      ∀ names : Place, t₁.fileAt? (i ++ names) = t.fileAt? (i ++ names) := by
    intro input i hinput hi names
    apply fileAt?_congr
    apply at?_of_emptyOutput _ hemptied
    rintro o ho ⟨names', heq⟩
    exact (hs input hinput).ne_of_reaches hi ho names names' heq.symm
  have hfit : ∀ input ∈ inputs, Fit t₁ output input := by
    intro input hinput
    refine ⟨(hs input hinput).of_emptyOutput hemptied, ?_, hempty input hinput⟩
    intro i names data hi hclass
    have hi' : t.Reaches [] input.root.segments i := hlinks.reaches_iff.mp hi
    rw [classIn?_congr (hsame hinput hi')] at hclass
    exact (hneat input hinput i hi').tidy ht hclass
  obtain ⟨htouched, places, hplaces, hdelivered⟩ := delivered_of_runInputs ht₁ rfl hfit hruns
  have hreached := hplaces.imp fun _ _ => hlinks.reaches_iff.mp
  have hlast : lastClass? t₁ places = lastClass? t places := by
    apply lastClass?_congr
    intro i hi
    obtain ⟨input, hinput, hreaches⟩ := exists_of_forall₂ hreached hi
    exact hsame hinput hreaches
  rw [hlast] at hdelivered
  refine ⟨places, hreached, ?_, gone_iff hlinks hemptied hdelivered, ?_, ?_⟩
  · intro names data hdata
    obtain ⟨o, bytes, ho, hstored⟩ := hdelivered.stored hdata
    exact ⟨o, bytes, hlinks.reaches_iff.mp ho, hstored⟩
  · intro houtput hdown hup
    exact emptied_of_down ht houtput hdown hup hemptied places
  · intro q hq
    have hq' : ∀ o, t₁.Reaches [] output.segments o → ¬ o <+: q :=
      fun o ho => hq o (hlinks.reaches_iff.mp ho)
    rw [← fileAt?_congr (at?_of_emptyOutput hq hemptied)]
    rcases htouched.apart q hq' with heq | ⟨hnone, hnew⟩
    · exact fileAt?_congr heq
    · rw [fileAt?, fileAt?, hnone, hnew]

section Sample

def accessorClass (version : UInt8) : Bytes :=
  ClassFile.magic ++ [0, 0, 0, version] ++ [0, 5, 1, 0, 1, 65, 7, 0, 1] ++
    [1, 0, 6] ++ Bytes.ascii "a/R$id" ++ [7, 0, 3] ++ [0, 0x21, 0, 2, 0, 0] ++
    [0, 0] ++ [0, 0] ++ [0, 0] ++ [0, 0]

def embedSample : FileTree :=
  FileTree.empty |>.set ["lib"] .directory
    |>.set ["lib", "A.class"] (.file (accessorClass 52))
    |>.set ["lib", "B.class"] (.file (sampleClass 66 52))
    |>.set ["app"] .directory
    |>.set ["app", "A.class"] (.file (accessorClass 53))
    |>.set ["out"] .directory
    |>.set ["out", "Old.class"] (.file [])

def embedInputs : List Input := [⟨⟨["lib"]⟩, .empty⟩, ⟨⟨["app"]⟩, .empty⟩]

def embedding : Embedding := ⟨["a"], "b", .usual⟩

theorem laid_embedSample : ∀ input ∈ embedInputs, Laid embedSample input.root ⟨["out"]⟩ := by
  intro input hinput
  rcases List.mem_cons.mp hinput with rfl | hinput
  · exact .of_all (by decide +kernel) (by decide +kernel) (by decide) (by decide +kernel)
  · rw [List.mem_singleton.mp hinput]
    exact .of_all (by decide +kernel) (by decide +kernel) (by decide) (by decide +kernel)

/-- The later version of the class is delivered, with the accessor class renamed, and the file of
the class that is no more is gone. -/
theorem delivered_embedSample : ∃ answer t' bytes,
    embedding.run embedInputs ⟨["out"]⟩ embedSample = .ok answer t' ∧
    ClassFile.renameBytes embedding.newNames (accessorClass 53) = .ok bytes ∧
    t'.fileAt? ["out", "A.class"] = some bytes ∧ t'.fileAt? ["out", "Old.class"] = none := by
  have hrooted : embedSample.Rooted := .of_all (by decide +kernel)
  have hlaid := laid_embedSample
  have hfirst := hlaid ⟨⟨["lib"]⟩, .empty⟩ List.mem_cons_self
  have houtput : embedSample.Reaches [] ["out"] ["out"] := hfirst.reaches ⟨["out"]⟩
  have hdone : ((embedding.run embedInputs ⟨["out"]⟩).run' embedSample).isSome = true := by
    decide +kernel
  obtain ⟨answer, t', hrun⟩ := ok_of_run' hdone
  obtain ⟨places, hplaces, hstored, hgone, hemptied, -⟩ :=
    delivered_exactly rfl hrooted (fun _ _ _ _ => hfirst.plain.noLink) (by decide)
      (fun input hinput => (hlaid input hinput).settled hrooted)
      (fun input hinput i hi => (hlaid input hinput).neat hi) hrun
  have hlast : places = [["lib"], ["app"]] := by
    rw [embedInputs] at hplaces
    cases hplaces with
    | cons hlib hrest =>
      cases hrest with
      | cons happ hnil =>
        cases hnil
        rw [hlib.unique (hfirst.reaches ⟨["lib"]⟩), happ.unique (hfirst.reaches ⟨["app"]⟩)]
        rfl
  subst hlast
  obtain ⟨o, bytes, ho, hbytes, hfile⟩ := hstored ["A.class"] (accessorClass 53) (by decide +kernel)
  rw [ho.unique houtput] at hfile
  refine ⟨answer, t', bytes, hrun, hbytes, hfile, ?_⟩
  apply hgone.mpr (hemptied rfl (by decide) _) ["out"] ["Old.class"] houtput
  · exact List.cons_ne_nil _ _
  · decide +kernel
  · intro q target hlink
    exact absurd hlink hfirst.plain.noLink

def embeddedAt? (output : Path) (q : Place) : Option Bytes :=
  match embedding.run embedInputs output embedSample with
  | .ok _ t => t.fileAt? q
  | .error _ _ => none

/-- An output behind `..` that is not found is not emptied: the file of a class that is no more
stays. -/
example : embeddedAt? ⟨["x", "..", "out"]⟩ ["out", "Old.class"] = some [] := by
  decide +kernel

end Sample

end Retarget.Embedding
