import Retarget.Proofs.ClassFile.PoolBuilt

/-!
Pools under every sequence of edits: entries are pushed, interned and replaced,
and a step that fails keeps what it had added before. Whatever the sequence, the
unusable slots stay where a reader puts them, one in front and one after each
wide entry, and there are never more slots than the count can tell. Only the
registry of texts may have gone its own way: the same slots are those of a pool
that was built by appending.
-/

set_option autoImplicit false

namespace Retarget.Pool

open Reader

variable {α β : Type} {p q : Pool} {c c' : Constant} {slots : List Constant}

def after (step : Edit α) (p : Pool) : Pool :=
  match step p with
  | .ok _ p' => p'
  | .error _ p' => p'

inductive Operation where
  | push (constant : Constant)
  | set (index : UInt16) (constant : Constant)
  | intern (text : Bytes)
  | internText (s : String)
  | internClass (name : String)
  | internString (s : String)
  | internNameAndType (name descriptor : String)
  | internField (owner name descriptor : String)
  | internMethod (owner name descriptor : String)
  | internMethodType (descriptor : String)

namespace Operation

def apply : Operation → Pool → Pool
  | push constant, p => after (Pool.push constant) p
  | set index constant, p => (p.set index constant).toOption.getD p
  | intern text, p => after (Pool.intern text) p
  | internText s, p => after (Pool.internText s) p
  | internClass name, p => after (Pool.internClass name) p
  | internString s, p => after (Pool.internString s) p
  | internNameAndType name descriptor, p => after (Pool.internNameAndType name descriptor) p
  | internField owner name descriptor, p => after (Pool.internField owner name descriptor) p
  | internMethod owner name descriptor, p => after (Pool.internMethod owner name descriptor) p
  | internMethodType descriptor, p => after (Pool.internMethodType descriptor) p

/-- Whether the operation puts an entry where there is one already, and not a slot without. -/
def isUsable : Operation → Bool
  | set _ constant => constant ≠ .unusable
  | _ => true

end Operation

/-- The pools that usable operations lead to, from the empty pool or from one that was read. -/
inductive Reached : Pool → Prop where
  | empty : Reached Pool.empty
  | read {r r' : Reader} {p : Pool} (h : Pool.read r = .ok (p, r')) : Reached p
  | step {p : Pool} {op : Operation} (hp : Reached p) (hop : op.isUsable = true) :
      Reached (op.apply p)

def applyAll (ops : List Operation) (p : Pool) : Pool :=
  ops.foldl (fun p op => op.apply p) p

theorem Reached.applyAll {ops : List Operation} (hp : p.Reached)
    (hops : ∀ op ∈ ops, op.isUsable = true) : (p.applyAll ops).Reached := by
  induction ops generalizing p with
  | nil => exact hp
  | cons op ops ih =>
    obtain ⟨hop, hops⟩ := List.forall_mem_cons.mp hops
    exact ih (hp.step hop) hops

/-- An unusable slot in front and one after each wide entry, and nowhere else. -/
inductive Filled : List Constant → Prop where
  | front : Filled [.unusable]
  | entry {slots : List Constant} {c : Constant} (h : Filled slots) (hc : c ≠ .unusable) :
      Filled (slots ++ filling c)

private theorem Built.filled (h : p.Built) : Filled p.entries.toList := by
  induction h with
  | empty => exact .front
  | @append p c _ hc ih =>
    rw [entries_append]
    exact ih.entry hc

namespace Filled

theorem exists_built (h : Filled slots) : ∃ q : Pool, q.Built ∧ q.entries.toList = slots := by
  induction h with
  | front => exact ⟨.empty, .empty, rfl⟩
  | @entry slots c _ hc ih =>
    obtain ⟨q, hq, rfl⟩ := ih
    exact ⟨q.append c, hq.append hc, entries_append c q⟩

private theorem filling_of_slots (h : c.slots = c'.slots) : (filling c).set 0 c' = filling c' := by
  have hwide : c.isWide = c'.isWide := by
    cases hc : c.isWide <;> cases hc' : c'.isWide <;> simp_all [Constant.slots]
  rw [filling, filling, hwide]
  cases c'.isWide <;> rfl

private theorem set {i : Nat} (h : Filled slots) (hi : slots[i]? = some c) (hc : c ≠ .unusable)
    (hc' : c' ≠ .unusable) (hslots : c.slots = c'.slots) : Filled (slots.set i c') := by
  induction h with
  | front =>
    cases i with
    | zero => exact absurd (Option.some.inj hi).symm hc
    | succ i => cases hi
  | @entry slots d hd hne ih =>
    by_cases hlt : i < slots.length
    · rw [List.getElem?_append_left hlt] at hi
      rw [List.set_append_left _ _ hlt]
      exact (ih hi).entry hne
    · have hle : slots.length ≤ i := Nat.le_of_not_lt hlt
      rw [List.getElem?_append_right hle] at hi
      rw [List.set_append_right _ _ hle]
      -- the slot after a wide entry holds none, so the entry itself is replaced
      have hfirst : i - slots.length = 0 ∧ d = c := by
        cases hwide : d.isWide with
        | false =>
          simp only [filling, hwide, Bool.false_eq_true, if_false, List.getElem?_singleton] at hi
          split_ifs at hi with hzero
          exact ⟨hzero, Option.some.inj hi⟩
        | true =>
          simp only [filling, hwide, if_true] at hi
          generalize i - slots.length = k at hi ⊢
          cases k with
          | zero => exact ⟨rfl, Option.some.inj hi⟩
          | succ k =>
            cases k with
            | zero => exact absurd (Option.some.inj hi).symm hc
            | succ k => cases hi
      obtain ⟨hzero, rfl⟩ := hfirst
      rw [hzero, filling_of_slots hslots]
      exact hd.entry hc'

end Filled

theorem get_ok_iff {index : UInt16} :
    p.get index = .ok c ↔ p.entries[index.toNat]? = some c ∧ c ≠ .unusable := by
  rw [get]
  split
  · next hnone => simp [hnone]
  · next hat =>
    rw [hat]
    constructor
    · intro h
      cases h
    · rintro ⟨heq, hne⟩
      exact absurd (Option.some.inj heq).symm hne
  · next found hne hat =>
    rw [hat]
    constructor
    · intro h
      cases h
      exact ⟨rfl, fun heq => hne (heq ▸ rfl)⟩
    · rintro ⟨heq, -⟩
      rw [Option.some.inj heq]

theorem set_ok_iff {index : UInt16} : p.set index c = .ok q ↔ ∃ current,
    p.entries[index.toNat]? = some current ∧ current ≠ .unusable ∧ current.slots = c.slots ∧
      q = ⟨p.entries.setIfInBounds index.toNat c,
        register c index.toNat (unregister current index p.texts)⟩ := by
  constructor
  · intro h
    obtain ⟨current, hget, h⟩ := bind_eq_ok_iff.mp h
    split_ifs at h with hslots
    cases h
    obtain ⟨hcurrent, hne⟩ := get_ok_iff.mp hget
    exact ⟨current, hcurrent, hne, hslots, rfl⟩
  · rintro ⟨current, hcurrent, hne, hslots, rfl⟩
    refine bind_eq_ok_iff.mpr ⟨current, get_ok_iff.mpr ⟨hcurrent, hne⟩, ?_⟩
    rw [if_pos hslots]
    rfl

theorem getElem?_of_set {index : UInt16} (h : p.set index c = .ok q) (i : Nat) :
    q.entries[i]? = if index.toNat = i then some c else p.entries[i]? := by
  obtain ⟨current, hcurrent, -, -, rfl⟩ := set_ok_iff.mp h
  have hlt : index.toNat < p.entries.size := (Array.getElem?_eq_some_iff.mp hcurrent).1
  rw [Array.getElem?_setIfInBounds, if_pos hlt]

/-- What every pool that was reached has: filled slots, no more than the limit. -/
structure Orderly (p : Pool) : Prop where
  filled : Filled p.entries.toList
  count_le : p.count ≤ Fault.poolLimit

namespace Orderly

private theorem append (h : p.Orderly) (hc : c ≠ .unusable)
    (hroom : p.count + c.slots ≤ Fault.poolLimit) :
    (p.append c).Orderly where
  filled := by
    rw [entries_append]
    exact h.filled.entry hc
  count_le := by
    rw [count_append]
    exact hroom

private theorem set {index : UInt16} (h : p.Orderly) (hc : c ≠ .unusable)
    (hset : p.set index c = .ok q) : q.Orderly := by
  obtain ⟨current, hcurrent, hne, hslots, rfl⟩ := set_ok_iff.mp hset
  refine ⟨?_, ?_⟩
  · rw [Array.toList_setIfInBounds]
    exact h.filled.set (Array.getElem?_toList ▸ hcurrent) hne hc hslots
  · rw [count, Array.size_setIfInBounds]
    exact h.count_le

end Orderly

/-- The second pool is the first one with entries behind its slots that there was room for. -/
inductive Pushed (p : Pool) : Pool → Prop where
  | refl : Pushed p p
  | append {q : Pool} {c : Constant} (h : Pushed p q) (hc : c ≠ .unusable)
      (hroom : q.count + c.slots ≤ Fault.poolLimit) : Pushed p (q.append c)

namespace Pushed

theorem trans {r : Pool} (h : Pushed p q) (h' : Pushed q r) : Pushed p r := by
  induction h' with
  | refl => exact h
  | append _ hc hroom ih => exact ih.append hc hroom

private theorem orderly (h : Pushed p q) (hp : p.Orderly) : q.Orderly := by
  induction h with
  | refl => exact hp
  | append _ hc hroom ih => exact ih.append hc hroom

end Pushed

theorem Built.pushed (h : p.Built) (hcount : p.count ≤ Fault.poolLimit) :
    Pushed Pool.empty p := by
  induction h with
  | empty => exact .refl
  | append _ hc ih =>
    rw [count_append] at hcount
    exact (ih (Nat.le_of_add_right_le hcount)).append hc hcount

def Pushes (step : Edit α) : Prop := ∀ p : Pool, Pushed p (after step p)

namespace Pushes

theorem bind {step : Edit α} {next : α → Edit β} (hstep : Pushes step)
    (hnext : ∀ a, Pushes (next a)) : Pushes (step >>= next) := by
  intro p
  have hfirst := hstep p
  have hwhole : after (step >>= next) p = match step p with
      | .ok a p' => after (next a) p'
      | .error _ p' => p' := by
    change (match EStateM.bind step next p with | .ok _ p' => p' | .error _ p' => p') = _
    rw [EStateM.bind]
    cases step p <;> rfl
  rw [hwhole]
  rw [after] at hfirst
  cases hrun : step p with
  | ok a p' =>
    rw [hrun] at hfirst
    exact hfirst.trans (hnext a p')
  | error fault p' =>
    rw [hrun] at hfirst
    exact hfirst

private theorem push (c : Constant) : Pushes (Pool.push c) := by
  intro p
  by_cases hc : c = .unusable
  · rw [after, Pool.push, if_pos hc]
    exact .refl
  · by_cases hroom : p.entries.size + c.slots ≤ Fault.poolLimit
    · simp only [after, Pool.push, if_neg hc, if_pos hroom]
      exact Pushed.refl.append hc hroom
    · simp only [after, Pool.push, if_neg hc, if_neg hroom]
      exact .refl

private theorem intern (text : Bytes) : Pushes (Pool.intern text) := by
  intro p
  rcases intern_cases text p with ⟨index, -, hrun⟩ | ⟨-, hroom, hrun⟩ | ⟨fault, -, hrun⟩
  · rw [after, hrun]
    exact .refl
  · rw [after, hrun]
    exact Pushed.refl.append Constant.noConfusion hroom
  · rw [after, hrun]
    exact .refl

theorem internConstant (c : Constant) : Pushes (Pool.internConstant c) := by
  intro p
  have hpush := Pushes.push c p
  rw [after, Pool.internConstant]
  cases p.entries.findIdx? (· = c) with
  | some index => exact .refl
  | none => exact hpush

theorem internText (s : String) : Pushes (Pool.internText s) := intern _

theorem internClass (name : String) : Pushes (Pool.internClass name) :=
  (internText name).bind fun _ => internConstant _

theorem internNameAndType (name descriptor : String) :
    Pushes (Pool.internNameAndType name descriptor) :=
  (internText name).bind fun _ => (internText descriptor).bind fun _ => internConstant _

end Pushes

/-- An operation replaces an entry, or it only pushes some, also if it fails. -/
theorem Operation.apply_cases (op : Operation) (p : Pool) :
    (∃ index constant, op = .set index constant ∧ p.set index constant = .ok (op.apply p)) ∨
      Pushed p (op.apply p) := by
  cases op with
  | set index constant =>
    rw [Operation.apply]
    cases hset : p.set index constant with
    | error fault => exact .inr .refl
    | ok q => exact .inl ⟨index, constant, rfl, hset⟩
  | push constant => exact .inr (Pushes.push constant p)
  | intern text => exact .inr (Pushes.intern text p)
  | internText s => exact .inr (Pushes.internText s p)
  | internClass name => exact .inr (Pushes.internClass name p)
  | internString s => exact .inr ((Pushes.internText s).bind (fun _ => .internConstant _) p)
  | internNameAndType name descriptor => exact .inr (Pushes.internNameAndType name descriptor p)
  | internField owner name descriptor =>
    exact .inr ((Pushes.internClass owner).bind (fun _ =>
      (Pushes.internNameAndType name descriptor).bind fun _ => .internConstant _) p)
  | internMethod owner name descriptor =>
    exact .inr ((Pushes.internClass owner).bind (fun _ =>
      (Pushes.internNameAndType name descriptor).bind fun _ => .internConstant _) p)
  | internMethodType descriptor =>
    exact .inr ((Pushes.internText descriptor).bind (fun _ => .internConstant _) p)

private theorem Orderly.apply {op : Operation} (hp : p.Orderly) (hop : op.isUsable = true) :
    (op.apply p).Orderly := by
  rcases op.apply_cases p with ⟨index, constant, rfl, hset⟩ | hpushed
  · exact hp.set (of_decide_eq_true hop) hset
  · exact hpushed.orderly hp

theorem Reached.orderly (h : p.Reached) : p.Orderly := by
  induction h with
  | empty => exact ⟨.front, by decide⟩
  | read hread => exact ⟨(built_of_read hread).filled, (registered_of_read hread).count_le⟩
  | step _ hop ih => exact ih.apply hop

end Retarget.Pool
