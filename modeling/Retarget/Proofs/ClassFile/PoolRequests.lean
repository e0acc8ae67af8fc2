import Retarget.Proofs.ClassFile.PoolTexts
import Retarget.Proofs.Text.ModifiedUtf8

/-!
Entries that are asked for by their strings. Such a request builds a chain of
entries, from the texts up, each found where it is or added. Entries stay where
they are when others are added, and so does which entry is found first. So the
index that a request gives leads to its strings from then on, and the same
request gives it again and adds nothing, whatever was replaced before.
-/

set_option autoImplicit false

namespace Retarget.Pool

/-- What can be asked of a pool by its strings. -/
inductive Request where
  | text (s : String)
  | classRef (name : String)
  | string (s : String)
  | nameAndType (name descriptor : String)
  | field (owner name descriptor : String)
  | method (owner name descriptor : String)
  | methodType (descriptor : String)

namespace Request

def run : Request → Edit UInt16
  | text s => internText s
  | classRef name => internClass name
  | string s => internString s
  | nameAndType name descriptor => internNameAndType name descriptor
  | field owner name descriptor => internField owner name descriptor
  | method owner name descriptor => internMethod owner name descriptor
  | methodType descriptor => internMethodType descriptor

def Typed (name descriptor : String) (p : Pool) (index : UInt16) : Prop :=
  ∃ first second, p.get index = .ok (.nameAndType first second) ∧ p.string first = .ok name ∧
    p.string second = .ok descriptor

/-- The entry at the index is of the kind asked for and leads to the strings. -/
def Met : Request → Pool → UInt16 → Prop
  | text s, p, index => (∃ bytes, p.get index = .ok (.utf8 bytes)) ∧ p.string index = .ok s
  | classRef name, p, index =>
    (∃ own, p.get index = .ok (.classRef own)) ∧ p.className index = .ok name
  | string s, p, index => ∃ own, p.get index = .ok (.string own) ∧ p.string own = .ok s
  | nameAndType name descriptor, p, index => Typed name descriptor p index
  | field owner name descriptor, p, index => ∃ first second,
    p.get index = .ok (.fieldRef first second) ∧ p.className first = .ok owner ∧
      Typed name descriptor p second
  | method owner name descriptor, p, index => ∃ first second,
    p.get index = .ok (.methodRef first second) ∧ p.className first = .ok owner ∧
      Typed name descriptor p second
  | methodType descriptor, p, index => ∃ own,
    p.get index = .ok (.methodType own) ∧ p.string own = .ok descriptor

end Request

variable {α β : Type} {p q r s : Pool} {c : Constant} {i : Nat} {index : UInt16} {text : Bytes}
  {op : Operation} {ops : List Operation}

def Operation.adds : Operation → Bool
  | set .. => false
  | _ => true

private theorem Operation.pushed_of_adds (h : op.adds = true) (p : Pool) :
    Pushed p (op.apply p) := by
  rcases op.apply_cases p with ⟨index, c, rfl, -⟩ | hpushed
  · cases h
  · exact hpushed

namespace Pushed

private theorem getElem?_eq_some {e : Constant} (h : Pushed p q) (he : p.entries[i]? = some e) :
    q.entries[i]? = some e := by
  induction h with
  | refl => exact he
  | append _ _ _ ih => exact getElem?_append_of_some ih

private theorem texts_eq_some (h : Pushed p q) (hat : p.texts[text]? = some index) :
    q.texts[text]? = some index := by
  induction h with
  | refl => exact hat
  | append _ _ _ ih =>
    simp only [Pool.append, getElem?_register]
    rw [if_neg, ih]
    rintro ⟨-, hnone⟩
    cases ih.symm.trans hnone

private theorem applyAll (h : ∀ op ∈ ops, op.adds = true) (p : Pool) :
    Pushed p (p.applyAll ops) := by
  induction ops generalizing p with
  | nil => exact .refl
  | cons op ops ih =>
    obtain ⟨hop, hops⟩ := List.forall_mem_cons.mp h
    exact (op.pushed_of_adds hop p).trans (ih hops (op.apply p))

end Pushed

section Found

private theorem findIdx?_eq_some_iff : p.entries.findIdx? (· = c) = some i ↔
    p.entries[i]? = some c ∧ ∀ k < i, p.entries[k]? ≠ some c := by
  rw [Array.findIdx?_eq_some_iff_getElem, Array.getElem?_eq_some_iff]
  constructor
  · rintro ⟨hi, hc, hfirst⟩
    refine ⟨⟨hi, of_decide_eq_true hc⟩, fun k hk heq => ?_⟩
    obtain ⟨hlt, hequal⟩ := Array.getElem?_eq_some_iff.mp heq
    exact hfirst k hk (decide_eq_true hequal)
  · rintro ⟨⟨hi, hc⟩, hfirst⟩
    refine ⟨hi, decide_eq_true hc, fun k hk hequal => ?_⟩
    exact hfirst k hk (Array.getElem?_eq_some_iff.mpr ⟨_, of_decide_eq_true hequal⟩)

private theorem Pushed.findIdx?_eq_some (h : Pushed p q)
    (hat : p.entries.findIdx? (· = c) = some i) :
    q.entries.findIdx? (· = c) = some i := by
  obtain ⟨hi, hfirst⟩ := findIdx?_eq_some_iff.mp hat
  refine findIdx?_eq_some_iff.mpr ⟨h.getElem?_eq_some hi, fun k hk heq => ?_⟩
  have hold : p.entries[k]? = some _ :=
    Array.getElem?_eq_getElem (Nat.lt_trans hk (lt_count_of_some hi))
  exact hfirst k hk (hold.trans ((h.getElem?_eq_some hold).symm.trans heq))

private theorem texts_of_intern (hp : p.Sound) (hrun : intern text p = .ok index q) :
    q.Sound ∧ q.texts[text]? = some index := by
  rcases intern_cases text p with ⟨other, hat, hfound⟩ | ⟨hnew, hroom, hadded⟩ | ⟨fault, -, hfailed⟩
  · cases hfound.symm.trans hrun
    exact ⟨hp, hat⟩
  · cases hadded.symm.trans hrun
    refine ⟨hp.append hroom, ?_⟩
    simp only [Pool.append]
    rw [getElem?_register, if_pos ⟨rfl, hnew⟩]
    rfl
  · cases hfailed.symm.trans hrun

private theorem findIdx?_of_internConstant (hp : p.Sound)
    (hrun : internConstant c p = .ok index q) :
    q.Sound ∧ q.entries.findIdx? (· = c) = some index.toNat := by
  rw [internConstant] at hrun
  cases hat : p.entries.findIdx? (· = c) with
  | some i =>
    simp only [hat] at hrun
    cases hrun
    refine ⟨hp, ?_⟩
    rw [hp.toNat_ofNat (findIdx?_eq_some_iff.mp hat).1]
    exact hat
  | none =>
    simp only [hat, push] at hrun
    split_ifs at hrun with hc hroom
    cases hrun
    have hadded := hp.append hroom
    have hlast : (p.append c).entries[p.entries.size]? = some c := getElem?_append_count c p
    refine ⟨hadded, ?_⟩
    rw [hadded.toNat_ofNat hlast]
    refine findIdx?_eq_some_iff.mpr ⟨hlast, fun k hk heq => ?_⟩
    -- an equal entry in front would have been found
    have hold : p.entries[k]? = some p.entries[k] := Array.getElem?_eq_getElem hk
    have hequal := Option.some.inj ((getElem?_append_of_some hold).symm.trans heq)
    have hnone := Array.findIdx?_eq_none_iff.mp hat p.entries[k] (Array.getElem_mem hk)
    exact absurd hequal (of_decide_eq_false hnone)

end Found

section Settling

private theorem edit_bind_eq_ok_iff {step : Edit α} {next : α → Edit β} {b : β} :
    (step >>= next) p = .ok b q ↔ ∃ a p', step p = .ok a p' ∧ next a p' = .ok b q := by
  change EStateM.bind step next p = _ ↔ _
  rw [EStateM.bind]
  cases step p with
  | ok a p' => simp
  | error fault p' => simp

/-- The index that the step gives stays what is shown of it, in every pool with more entries than the
one it leaves, and there the step gives it again and adds nothing. -/
def Settles (step : Edit UInt16) (shown : Pool → UInt16 → Prop) : Prop :=
  ∀ ⦃p q : Pool⦄ ⦃index : UInt16⦄, p.Sound → step p = .ok index q →
    ∀ ⦃r : Pool⦄, Pushed q r → shown r index ∧ step r = .ok index r

namespace Settles

variable {step : Edit UInt16} {next : UInt16 → Edit UInt16} {shown shown' : Pool → UInt16 → Prop}
  {shownNext : UInt16 → Pool → UInt16 → Prop}

private theorem mono (h : Settles step shown) (himp : ∀ p index, shown p index → shown' p index) :
    Settles step shown' := by
  intro p q index hp hrun r hr
  obtain ⟨hshown, hagain⟩ := h hp hrun hr
  exact ⟨himp r index hshown, hagain⟩

private theorem bind (hstep : Settles step shown) (hpushes : Pushes step)
    (hnext : ∀ a, Settles (next a) (shownNext a)) (hpushesNext : ∀ a, Pushes (next a)) :
    Settles (step >>= next) fun r index => ∃ a, shown r a ∧ shownNext a r index := by
  intro p q index hp hrun r hr
  obtain ⟨a, p', hfirst, hsecond⟩ := edit_bind_eq_ok_iff.mp hrun
  have hfirstPushed : Pushed p p' := by
    have hpushed := hpushes p
    rwa [after, hfirst] at hpushed
  have hsecondPushed : Pushed p' q := by
    have hpushed := hpushesNext a p'
    rwa [after, hsecond] at hpushed
  obtain ⟨hshown, hagain⟩ := hstep hp hfirst (hsecondPushed.trans hr)
  obtain ⟨hshownNext, hagainNext⟩ := hnext a (Sound.pushed hfirstPushed hp) hsecond hr
  exact ⟨⟨a, hshown, hshownNext⟩, edit_bind_eq_ok_iff.mpr ⟨a, r, hagain, hagainNext⟩⟩

private theorem internText (s : String) : Settles (Pool.internText s) fun p index =>
    p.get index = .ok (.utf8 (ModifiedUtf8.encode s)) := by
  intro p q index hp hrun r hr
  obtain ⟨hq, hat⟩ := texts_of_intern hp hrun
  have hkept := hr.texts_eq_some hat
  refine ⟨get_ok_iff.mpr ⟨(Sound.pushed hr hq).found hkept, Constant.noConfusion⟩, ?_⟩
  rw [Pool.internText, intern, hkept]

private theorem internConstant (hc : c ≠ .unusable) :
    Settles (Pool.internConstant c) fun p index => p.get index = .ok c := by
  intro p q index hp hrun r hr
  obtain ⟨-, hat⟩ := findIdx?_of_internConstant hp hrun
  have hkept := hr.findIdx?_eq_some hat
  refine ⟨get_ok_iff.mpr ⟨(findIdx?_eq_some_iff.mp hkept).1, hc⟩, ?_⟩
  simp only [Pool.internConstant, hkept, UInt16.ofNat_toNat]

end Settles

private theorem string_of_get {name : String}
    (h : p.get index = .ok (.utf8 (ModifiedUtf8.encode name))) :
    p.string index = .ok name := by
  have htext := text_eq_ok_iff.mpr (get_ok_iff.mp h).1
  refine bind_eq_ok_iff.mpr ⟨_, htext, ?_⟩
  rw [ModifiedUtf8.decode_encode]
  rfl

private theorem className_of_get {name : String} {own : UInt16}
    (h : p.get index = .ok (.classRef own))
    (hname : p.string own = .ok name) : p.className index = .ok name :=
  bind_eq_ok_iff.mpr ⟨_, h, hname⟩

namespace Settles

private theorem internClass (name : String) : Settles (Pool.internClass name) fun p index =>
    (∃ own, p.get index = .ok (.classRef own)) ∧ p.className index = .ok name := by
  refine ((internText name).bind (.internText name) (fun _ => internConstant Constant.noConfusion)
    fun _ => .internConstant _).mono ?_
  rintro p index ⟨own, htext, hentry⟩
  exact ⟨⟨own, hentry⟩, className_of_get hentry (string_of_get htext)⟩

private theorem internNameAndType (name descriptor : String) :
    Settles (Pool.internNameAndType name descriptor) (Request.Typed name descriptor) := by
  refine ((internText name).bind (.internText name) (fun _ => (internText descriptor).bind
    (.internText descriptor) (fun _ => internConstant Constant.noConfusion)
    fun _ => .internConstant _) fun _ => (Pushes.internText descriptor).bind
    fun _ => .internConstant _).mono ?_
  rintro p index ⟨first, hfirst, second, hsecond, hentry⟩
  exact ⟨first, second, hentry, string_of_get hfirst, string_of_get hsecond⟩

private theorem internMember (owner name descriptor : String) {make : UInt16 → UInt16 → Constant}
    (hmake : ∀ first second, make first second ≠ .unusable) :
    Settles (Pool.internClass owner >>= fun first => Pool.internNameAndType name descriptor >>=
      fun second => Pool.internConstant (make first second)) fun p index => ∃ first second,
        p.get index = .ok (make first second) ∧ p.className first = .ok owner ∧
          Request.Typed name descriptor p second := by
  refine ((internClass owner).bind (.internClass owner) (fun _ =>
    (internNameAndType name descriptor).bind (.internNameAndType name descriptor)
      (fun _ => internConstant (hmake _ _)) fun _ => .internConstant _) fun _ =>
    (Pushes.internNameAndType name descriptor).bind fun _ => .internConstant _).mono ?_
  rintro p index ⟨first, ⟨-, howner⟩, second, htyped, hentry⟩
  exact ⟨first, second, hentry, howner, htyped⟩

private theorem run (request : Request) : Settles request.run request.Met := by
  cases request with
  | text name => exact (internText name).mono fun p index h => ⟨⟨_, h⟩, string_of_get h⟩
  | classRef name => exact internClass name
  | string name =>
    refine ((internText name).bind (.internText name) (fun _ =>
      internConstant Constant.noConfusion) fun _ => .internConstant _).mono ?_
    rintro p index ⟨own, htext, hentry⟩
    exact ⟨own, hentry, string_of_get htext⟩
  | nameAndType name descriptor => exact internNameAndType name descriptor
  | field owner name descriptor =>
    exact internMember owner name descriptor fun _ _ => Constant.noConfusion
  | method owner name descriptor =>
    exact internMember owner name descriptor fun _ _ => Constant.noConfusion
  | methodType descriptor =>
    refine ((internText descriptor).bind (.internText descriptor) (fun _ =>
      internConstant Constant.noConfusion) fun _ => .internConstant _).mono ?_
    rintro p index ⟨own, htext, hentry⟩
    exact ⟨own, hentry, string_of_get htext⟩

end Settles

end Settling

/-- Whatever was done to a pool, it has no more slots than the limit, and adding to it leaves every
entry at its index, also if it fails. The index that a request gives leads to its strings, and the
same request gives it again and leaves the pool as it is, at once and after anything was added. -/
theorem requests_settled (hs : s.Fresh) (ops : List Operation) :
    (s.applyAll ops).count ≤ Fault.poolLimit ∧
    (∀ op : Operation, op.adds = true → ∀ (i : Nat) (e : Constant),
      (s.applyAll ops).entries[i]? = some e → (op.apply (s.applyAll ops)).entries[i]? = some e) ∧
    ∀ (request : Request) (index : UInt16) (q : Pool),
      request.run (s.applyAll ops) = .ok index q →
        ∀ more : List Operation, (∀ op ∈ more, op.adds = true) →
          request.Met (q.applyAll more) index ∧
            request.run (q.applyAll more) = .ok index (q.applyAll more) := by
  have hsound := (Sound.of_fresh hs).applyAll ops
  refine ⟨hsound.count_le, fun op hop i e he => ?_, fun request index q hrun more hmore => ?_⟩
  · exact (op.pushed_of_adds hop _).getElem?_eq_some he
  · exact Settles.run request hsound hrun (.applyAll hmore q)

/-- The text of a class is replaced, so the class of that name is a new entry behind it. It stays the
one that is asked for when a field is added. -/
theorem requests_settled_replaced : ∃ q,
    (Request.classRef "A").run (Pool.empty.applyAll [.internClass "A", .set 1 (.utf8 [66])]) =
      .ok 4 q ∧
    (q.applyAll [.internField "A" "x" "I"]).className 2 = .ok "B" ∧
    (q.applyAll [.internField "A" "x" "I"]).className 4 = .ok "A" ∧
    (Request.classRef "A").run (q.applyAll [.internField "A" "x" "I"]) =
      .ok 4 (q.applyAll [.internField "A" "x" "I"]) := by
  have hindex : (Request.classRef "A").run.run'
      (Pool.empty.applyAll [.internClass "A", .set 1 (.utf8 [66])]) = some 4 := by
    decide +kernel
  have hreplaced : ((after (Request.classRef "A").run
      (Pool.empty.applyAll [.internClass "A", .set 1 (.utf8 [66])])).applyAll
      [.internField "A" "x" "I"]).className 2 = .ok "B" := by
    decide +kernel
  obtain ⟨-, -, hsettled⟩ :=
    requests_settled .empty [.internClass "A", .set 1 (.utf8 [66])]
  cases hrun : (Request.classRef "A").run
      (Pool.empty.applyAll [.internClass "A", .set 1 (.utf8 [66])]) with
  | error fault q =>
    delta EStateM.run' EStateM.run at hindex
    simp only [hrun] at hindex
    cases hindex
  | ok index q =>
    delta EStateM.run' EStateM.run at hindex
    simp only [hrun, Option.some.injEq] at hindex
    subst hindex
    rw [after, hrun] at hreplaced
    obtain ⟨⟨-, hname⟩, hagain⟩ :=
      hsettled (.classRef "A") 4 q hrun [.internField "A" "x" "I"] (by simp [Operation.adds])
    exact ⟨q, rfl, hreplaced, hname, hagain⟩

end Retarget.Pool
