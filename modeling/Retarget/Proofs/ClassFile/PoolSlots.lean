import Retarget.Proofs.ClassFile.Written

/-!
Which pools are written faithfully. The slots that hold no entry are not written,
and a reader puts them in front and after wide entries only. Pushing and
interning keep to that, from a pool that has its slot in front. The exceptions
are told exactly: a pool that begins without the slot in front, and an entry that
is replaced by none.
-/

set_option autoImplicit false

namespace Retarget.Pool

open Reader

variable {p q s : Pool} {c c' : Constant} {i : Nat} {index : UInt16} {op : Operation}
  {ops : List Operation}

/-- The pools that edits begin with: one without any slot, one with the slot in front, or one that
was read. -/
inductive Fresh : Pool → Prop where
  | bare : Fresh Pool.bare
  | empty : Fresh Pool.empty
  | read {r r' : Reader} {p : Pool} (h : Pool.read r = .ok (p, r')) : Fresh p

theorem Fresh.bare_or_pushed (h : s.Fresh) : s = Pool.bare ∨ Pushed Pool.empty s := by
  cases h with
  | bare => exact .inl rfl
  | empty => exact .inr .refl
  | read hread => exact .inr ((built_of_read hread).pushed (registered_of_read hread).count_le)

/-- The slot in front holds no entry, and any other one that holds none comes after a wide entry. -/
structure Regular (p : Pool) : Prop where
  front : p.entries[0]? = some .unusable
  behind : ∀ {i : Nat}, p.entries[i + 1]? = some .unusable →
    ∃ c, p.entries[i]? = some c ∧ c.isWide = true

/-- What the pool is written as fills a buffer of its size, and is read to its end as the same
slots. -/
def Faithful (p : Pool) : Prop :=
  ∃ bytes q r, p.layout.writeTo (.zeros p.size 0) = (⟨bytes.toArray, p.size⟩, .ok ()) ∧
    bytes.length = p.size ∧ read (.ofBytes bytes) = .ok (q, r) ∧ r.rest = [] ∧
    q.entries = p.entries

/-- What every sequence of edits keeps, replacing by no entry included. -/
structure Paired (p : Pool) : Prop where
  behind : ∀ {i : Nat} {c : Constant}, p.entries[i]? = some c → c.isWide = true →
    p.entries[i + 1]? = some .unusable
  count_le : p.count ≤ Fault.poolLimit

private theorem isWide_eq_of_slots (h : c.slots = c'.slots) : c.isWide = c'.isWide := by
  cases hc : c.isWide <;> cases hc' : c'.isWide <;> simp_all [Constant.slots]

private theorem getElem?_append_count_succ (hc : c.isWide = true) (p : Pool) :
    (p.append c).entries[p.count + 1]? = some .unusable := by
  have hcount : p.count = p.entries.toList.length := rfl
  rw [← Array.getElem?_toList, entries_append, hcount,
    List.getElem?_append_right (Nat.le_add_right _ _), Nat.add_sub_cancel_left]
  simp [filling, hc]

theorem lt_count_of_some {e : Constant} (h : p.entries[i]? = some e) : i < p.count :=
  (Array.getElem?_eq_some_iff.mp h).1

namespace Paired

private theorem append (h : p.Paired) (hc : c ≠ .unusable)
    (hroom : p.count + c.slots ≤ Fault.poolLimit) :
    (p.append c).Paired where
  behind {i e} hi he := by
    rcases of_getElem?_append hi with hold | ⟨rfl, rfl⟩ | ⟨-, rfl⟩
    · exact getElem?_append_of_some (h.behind hold he)
    · exact getElem?_append_count_succ he p
    · cases he
  count_le := by rwa [count_append]

private theorem pushed (h : Pushed p q) (hp : p.Paired) : q.Paired := by
  induction h with
  | refl => exact hp
  | append _ hc hroom ih => exact ih.append hc hroom

private theorem set (h : p.Paired) (hset : p.set index c = .ok q) : q.Paired := by
  have hget := getElem?_of_set hset
  obtain ⟨current, hcurrent, hne, hslots, rfl⟩ := set_ok_iff.mp hset
  refine ⟨fun {k e} hk he => ?_, ?_⟩
  · have hnext : p.entries[k + 1]? = some .unusable := by
      rw [hget] at hk
      split_ifs at hk with heq
      · cases hk
        subst heq
        exact h.behind hcurrent ((isWide_eq_of_slots hslots).trans he)
      · exact h.behind hk he
    have hapart : index.toNat ≠ k + 1 := by
      intro heq
      rw [heq, hnext] at hcurrent
      exact hne (Option.some.inj hcurrent).symm
    rw [hget, if_neg hapart, hnext]
  · rw [count, Array.size_setIfInBounds]
    exact h.count_le

private theorem apply (h : p.Paired) (op : Operation) : (op.apply p).Paired := by
  rcases op.apply_cases p with ⟨index, c, -, hset⟩ | hpushed
  · exact h.set hset
  · exact pushed hpushed h

private theorem applyAll (h : p.Paired) (ops : List Operation) : (p.applyAll ops).Paired := by
  induction ops generalizing p with
  | nil => exact h
  | cons op ops ih => exact ih (h.apply op)

private theorem empty : Pool.empty.Paired where
  behind {i c} hi hc := by
    obtain ⟨hlt, hi⟩ := Array.getElem?_eq_some_iff.mp hi
    obtain rfl : i = 0 := Nat.lt_one_iff.mp hlt
    cases hi
    cases hc
  count_le := by decide

private theorem of_fresh (h : s.Fresh) : s.Paired := by
  rcases h.bare_or_pushed with rfl | hpushed
  · exact ⟨fun hi => by simp [Pool.bare] at hi, by decide⟩
  · exact pushed hpushed .empty

end Paired

section Slots

private theorem regular_of_built (h : p.Built) : p.Regular := by
  induction h with
  | empty =>
    refine ⟨rfl, fun {i} hi => ?_⟩
    obtain ⟨hlt, -⟩ := Array.getElem?_eq_some_iff.mp hi
    simp [Pool.empty] at hlt
  | @append p d _ hd ih =>
    refine ⟨getElem?_append_of_some ih.front, fun {i} hi => ?_⟩
    rcases of_getElem?_append hi with hold | ⟨-, rfl⟩ | ⟨hi', -⟩
    · obtain ⟨e, he, hwide⟩ := ih.behind hold
      exact ⟨e, getElem?_append_of_some he, hwide⟩
    · exact absurd rfl hd
    · obtain rfl : i = p.count := Nat.succ.inj hi'
      refine ⟨d, getElem?_append_count d p, ?_⟩
      by_contra hnarrow
      have hlt := lt_count_of_some hi
      rw [count_append, Constant.slots, if_neg hnarrow] at hlt
      omega

private theorem exists_cells (slots : List Constant)
    (hpaired : ∀ {i : Nat} {c : Constant}, slots[i]? = some c → c.isWide = true →
      slots[i + 1]? = some .unusable)
    (hbehind : ∀ {i : Nat}, slots[i]? = some .unusable →
      ∃ k c, i = k + 1 ∧ slots[k]? = some c ∧ c.isWide = true) :
    ∃ cells : List Constant, (∀ c ∈ cells, c ≠ .unusable) ∧ slots = cells.flatMap filling := by
  cases slots with
  | nil => exact ⟨[], by simp, rfl⟩
  | cons c rest =>
    have hc : c ≠ .unusable := by
      rintro rfl
      obtain ⟨k, d, hk, -⟩ := hbehind (i := 0) rfl
      cases hk
    cases hwide : c.isWide with
    | false =>
      obtain ⟨cells, hcells, hrest⟩ := exists_cells rest
        (fun {i d} hi hd => hpaired (i := i + 1) hi hd) (fun {i} hi => by
          obtain ⟨k, d, hk, hd, hdwide⟩ := hbehind (i := i + 1) hi
          cases k with
          | zero =>
            cases hd
            cases hwide.symm.trans hdwide
          | succ k => exact ⟨k, d, Nat.succ.inj hk, hd, hdwide⟩)
      refine ⟨c :: cells, List.forall_mem_cons.mpr ⟨hc, hcells⟩, ?_⟩
      rw [List.flatMap_cons, ← hrest, filling, hwide, if_neg Bool.false_ne_true,
        List.singleton_append]
    | true =>
      cases rest with
      | nil => cases hpaired (i := 0) rfl hwide
      | cons next rest =>
        have hnext : next = .unusable := Option.some.inj (hpaired (i := 0) rfl hwide)
        subst hnext
        obtain ⟨cells, hcells, hrest⟩ := exists_cells rest
          (fun {i d} hi hd => hpaired (i := i + 2) hi hd) (fun {i} hi => by
            obtain ⟨k, d, hk, hd, hdwide⟩ := hbehind (i := i + 2) hi
            cases k with
            | zero => cases hk
            | succ k =>
              cases k with
              | zero =>
                cases hd
                cases hdwide
              | succ k => exact ⟨k, d, by omega, hd, hdwide⟩)
        refine ⟨c :: cells, List.forall_mem_cons.mpr ⟨hc, hcells⟩, ?_⟩
        rw [List.flatMap_cons, ← hrest, filling, hwide, if_pos rfl, List.cons_append,
          List.singleton_append]

private theorem Filled.append_cells {slots : List Constant} (h : Filled slots)
    (cells : List Constant)
    (hcells : ∀ c ∈ cells, c ≠ .unusable) : Filled (slots ++ cells.flatMap filling) := by
  induction cells generalizing slots with
  | nil => rwa [List.flatMap_nil, List.append_nil]
  | cons c cells ih =>
    obtain ⟨hc, hcells⟩ := List.forall_mem_cons.mp hcells
    rw [List.flatMap_cons, ← List.append_assoc]
    exact ih (h.entry hc) hcells

private theorem Regular.filled (h : p.Regular) (hp : p.Paired) : Filled p.entries.toList := by
  obtain ⟨rest, hrest⟩ : ∃ rest, p.entries.toList = .unusable :: rest := by
    have hfront := h.front
    rw [← Array.getElem?_toList] at hfront
    cases hslots : p.entries.toList with
    | nil =>
      rw [hslots] at hfront
      cases hfront
    | cons first rest =>
      rw [hslots] at hfront
      cases hfront
      exact ⟨rest, rfl⟩
  have hget : ∀ k, p.entries[k + 1]? = rest[k]? := by
    intro k
    rw [← Array.getElem?_toList, hrest, List.getElem?_cons_succ]
  obtain ⟨cells, hcells, rfl⟩ := exists_cells rest
    (fun {k c} hk hc => by
      rw [← hget] at hk ⊢
      exact hp.behind hk hc)
    (fun {k} hk => by
      rw [← hget] at hk
      obtain ⟨c, hc, hwide⟩ := h.behind hk
      cases k with
      | zero =>
        cases h.front.symm.trans hc
        cases hwide
      | succ k =>
        rw [hget] at hc
        exact ⟨k, c, rfl, hc, hwide⟩)
  rw [hrest]
  exact Filled.front.append_cells cells hcells

private theorem faithful_iff_regular (hp : p.Paired) (hfit : p.TextsFit) :
    p.Faithful ↔ p.Regular := by
  constructor
  · rintro ⟨bytes, q, r, -, -, hread, -, hentries⟩
    have hq := regular_of_built (built_of_read hread)
    refine ⟨hentries ▸ hq.front, fun hi => ?_⟩
    rw [← hentries] at hi ⊢
    exact hq.behind hi
  · intro h
    obtain ⟨q, hbuilt, hslots⟩ := (h.filled hp).exists_built
    have hentries : q.entries = p.entries := Array.ext' hslots
    have hcount : q.count < 0x10000 := by
      rw [count, hentries]
      exact Nat.lt_of_le_of_lt hp.count_le (by decide)
    have hlayout : q.layout = p.layout := by rw [layout, layout, count, count, hentries]
    obtain ⟨bytes, hserialize⟩ := Layout.clean_iff.mp ((clean_iff p).mpr hfit)
    obtain ⟨hlength, hwritten⟩ := Layout.writeTo_zeros p.measures hserialize
    obtain ⟨r, hread, hrest⟩ := rereads_read hbuilt hcount (hlayout.symm ▸ hserialize)
      (show (Reader.ofBytes bytes).rest = bytes ++ [] from (List.append_nil bytes).symm)
    exact ⟨bytes, q, r, hwritten, hlength, hread, hrest, hentries⟩

end Slots

section Blanked

def Operation.blanked? : Operation → Pool → Option UInt16
  | set index .unusable, p => (p.set index .unusable).toOption.map fun _ => index
  | _, _ => none

/-- The entries that the operations replace by none, one after the other. -/
def blanked : List Operation → Pool → List UInt16
  | [], _ => []
  | op :: ops, p => (op.blanked? p).toList ++ blanked ops (op.apply p)

private theorem blanked?_eq_some_iff : op.blanked? p = some index ↔
    op = .set index .unusable ∧ p.set index .unusable = .ok (op.apply p) := by
  constructor
  · intro h
    unfold Operation.blanked? at h
    split at h
    · next other =>
      cases hset : p.set other .unusable with
      | error fault =>
        rw [hset] at h
        cases h
      | ok q =>
        rw [hset] at h
        cases h
        rw [Operation.apply, hset]
        exact ⟨rfl, rfl⟩
    · cases h
  · rintro ⟨rfl, hset⟩
    rw [Operation.blanked?, hset]
    rfl

/-- A slot holds no entry, and it does not come after a wide one. -/
def Stray (p : Pool) (i : Nat) : Prop :=
  p.entries[i]? = some .unusable ∧ ∀ k c, i = k + 1 → p.entries[k]? = some c → c.isWide = false

private theorem regular_iff_stray : p.Regular ↔ ∀ i, p.Stray i ↔ i = 0 := by
  constructor
  · intro h i
    constructor
    · rintro ⟨hi, hnarrow⟩
      cases i with
      | zero => rfl
      | succ k =>
        obtain ⟨c, hc, hwide⟩ := h.behind hi
        cases (hnarrow k c rfl hc).symm.trans hwide
    · rintro rfl
      exact ⟨h.front, fun k c hk => nomatch hk⟩
  · intro h
    refine ⟨((h 0).mpr rfl).1, fun {i} hi => ?_⟩
    have hlt : i < p.count := Nat.lt_of_succ_lt (lt_count_of_some hi)
    refine ⟨_, Array.getElem?_eq_getElem hlt, ?_⟩
    by_contra hnarrow
    have hzero := (h (i + 1)).mp ⟨hi, fun k d hk hd => by
      cases hk
      rw [Array.getElem?_eq_getElem hlt] at hd
      cases hd
      exact Bool.eq_false_iff.mpr hnarrow⟩
    cases hzero

private theorem stray_append (hc : c ≠ .unusable) (i : Nat) : (p.append c).Stray i ↔ p.Stray i := by
  constructor
  · rintro ⟨hi, hnarrow⟩
    rcases of_getElem?_append hi with hold | ⟨-, rfl⟩ | ⟨rfl, -⟩
    · exact ⟨hold, fun k d hk hd => hnarrow k d hk (getElem?_append_of_some hd)⟩
    · exact absurd rfl hc
    · have hwide : c.isWide = false := hnarrow p.count c rfl (getElem?_append_count c p)
      have hlt := lt_count_of_some hi
      rw [count_append, Constant.slots, hwide, if_neg Bool.false_ne_true] at hlt
      omega
  · rintro ⟨hi, hnarrow⟩
    refine ⟨getElem?_append_of_some hi, fun k d hk hd => ?_⟩
    subst hk
    have hold : p.entries[k]? = some _ :=
      Array.getElem?_eq_getElem (Nat.lt_of_succ_lt (lt_count_of_some hi))
    cases (getElem?_append_of_some hold).symm.trans hd
    exact hnarrow k _ rfl hold

private theorem stray_pushed (h : Pushed p q) (i : Nat) : q.Stray i ↔ p.Stray i := by
  induction h with
  | refl => rfl
  | append _ hc _ ih => exact (stray_append hc i).trans ih

private theorem stray_set (hp : p.Paired) (hset : p.set index c = .ok q) (i : Nat) :
    q.Stray i ↔ p.Stray i ∨ c = .unusable ∧ index.toNat = i := by
  have hget := getElem?_of_set hset
  obtain ⟨current, hcurrent, hne, hslots, -⟩ := set_ok_iff.mp hset
  -- what stands before a slot is as wide as before
  have hbefore : (∀ k d, i = k + 1 → q.entries[k]? = some d → d.isWide = false) ↔
      ∀ k d, i = k + 1 → p.entries[k]? = some d → d.isWide = false := by
    have hwide := isWide_eq_of_slots hslots
    constructor
    · intro h k d hk hd
      by_cases heq : index.toNat = k
      · subst heq
        cases hcurrent.symm.trans hd
        rw [hwide]
        exact h _ c hk (by rw [hget, if_pos rfl])
      · exact h k d hk (by rw [hget, if_neg heq, hd])
    · intro h k d hk hd
      rw [hget] at hd
      split_ifs at hd with heq
      · cases hd
        rw [← hwide]
        exact h k current hk (heq ▸ hcurrent)
      · exact h k d hk hd
  rw [Stray, Stray, hbefore, hget]
  by_cases heq : index.toNat = i
  · subst heq
    rw [if_pos rfl, hcurrent]
    constructor
    · rintro ⟨hc, -⟩
      exact .inr ⟨Option.some.inj hc, rfl⟩
    · rintro (⟨hat, -⟩ | ⟨rfl, -⟩)
      · exact absurd (Option.some.inj hat) hne
      · refine ⟨rfl, fun k d hk hd => ?_⟩
        by_contra hwide
        have hpair := hp.behind hd (Bool.not_eq_false _ ▸ hwide)
        rw [← hk, hcurrent] at hpair
        exact hne (Option.some.inj hpair)
  · rw [if_neg heq]
    constructor
    · exact .inl
    · rintro (h | ⟨-, h⟩)
      · exact h
      · exact absurd h heq

private theorem not_stray_of_blanked? (h : op.blanked? p = some index) : ¬ p.Stray index.toNat := by
  obtain ⟨-, hset⟩ := blanked?_eq_some_iff.mp h
  obtain ⟨current, hcurrent, hne, -⟩ := set_ok_iff.mp hset
  rintro ⟨hat, -⟩
  exact hne (Option.some.inj (hcurrent.symm.trans hat))

private theorem stray_apply (hp : p.Paired) (op : Operation) (i : Nat) :
    (op.apply p).Stray i ↔ p.Stray i ∨ ∃ index, op.blanked? p = some index ∧ index.toNat = i := by
  by_cases hdone : ∃ index c, op = .set index c ∧ p.set index c = .ok (op.apply p)
  · obtain ⟨index, c, hop, hset⟩ := hdone
    rw [stray_set hp hset i]
    apply or_congr_right
    constructor
    · rintro ⟨rfl, rfl⟩
      exact ⟨index, blanked?_eq_some_iff.mpr ⟨hop, hset⟩, rfl⟩
    · rintro ⟨other, hblanked, rfl⟩
      cases hop.symm.trans (blanked?_eq_some_iff.mp hblanked).1
      exact ⟨rfl, rfl⟩
  · rw [stray_pushed ((op.apply_cases p).resolve_left hdone) i]
    constructor
    · exact .inl
    · rintro (h | ⟨index, hblanked, -⟩)
      · exact h
      · exact absurd ⟨index, _, blanked?_eq_some_iff.mp hblanked⟩ hdone

private theorem stray_applyAll (hp : p.Paired) (ops : List Operation) (i : Nat) :
    (p.applyAll ops).Stray i ↔ p.Stray i ∨ ∃ index ∈ blanked ops p, index.toNat = i := by
  induction ops generalizing p with
  | nil => simp [applyAll, blanked]
  | cons op ops ih =>
    have hrest : p.applyAll (op :: ops) = (op.apply p).applyAll ops := rfl
    rw [hrest, ih (hp.apply op), stray_apply hp op i, or_assoc, blanked]
    apply or_congr_right
    simp only [List.mem_append, Option.mem_toList, or_and_right, exists_or]

private theorem blanked_fresh (hp : p.Paired) (ops : List Operation) :
    (∀ index ∈ blanked ops p, ¬ p.Stray index.toNat) ∧ (blanked ops p).Nodup := by
  induction ops generalizing p with
  | nil => simp [blanked]
  | cons op ops ih =>
    obtain ⟨hfree, hnodup⟩ := ih (hp.apply op)
    have hstray := stray_apply hp op
    cases hblanked : op.blanked? p with
    | none =>
      rw [blanked, hblanked, Option.toList_none, List.nil_append]
      refine ⟨fun index hindex hat => ?_, hnodup⟩
      exact hfree index hindex ((hstray _).mpr (.inl hat))
    | some first =>
      rw [blanked, hblanked, Option.toList_some, List.singleton_append]
      refine ⟨List.forall_mem_cons.mpr ⟨not_stray_of_blanked? hblanked, ?_⟩, ?_⟩
      · intro index hindex hat
        exact hfree index hindex ((hstray _).mpr (.inl hat))
      · refine List.nodup_cons.mpr ⟨fun hmem => ?_, hnodup⟩
        exact hfree first hmem ((hstray _).mpr (.inr ⟨first, hblanked, rfl⟩))

private theorem eq_singleton_of_nodup {l : List UInt16} (hnodup : l.Nodup)
    (hall : ∀ index ∈ l, index = 0) (hsome : l ≠ []) : l = [0] := by
  cases l with
  | nil => exact absurd rfl hsome
  | cons first rest =>
    obtain ⟨rfl, hrest⟩ := List.forall_mem_cons.mp hall
    obtain ⟨hfresh, -⟩ := List.nodup_cons.mp hnodup
    cases rest with
    | nil => rfl
    | cons second rest =>
      have hsecond := hrest second List.mem_cons_self
      exact absurd (hsecond ▸ List.mem_cons_self) hfresh

private theorem Fresh.regular (hs : s.Fresh) (hcount : s.count ≠ 0) : s.Regular := by
  cases hs with
  | bare => exact absurd rfl hcount
  | empty => exact regular_of_built .empty
  | read hread => exact regular_of_built (built_of_read hread)

private theorem regular_applyAll_iff (hs : s.Fresh) (ops : List Operation) :
    (s.applyAll ops).Regular ↔ blanked ops s = if s.count = 0 then [0] else [] := by
  have hp := Paired.of_fresh hs
  obtain ⟨hfree, hnodup⟩ := blanked_fresh hp ops
  rw [regular_iff_stray]
  simp only [stray_applyAll hp]
  split_ifs with hcount
  · have hnone : ∀ i, ¬ s.Stray i := by
      rintro i ⟨hi, -⟩
      have hlt := lt_count_of_some hi
      omega
    simp only [hnone, false_or]
    constructor
    · intro h
      refine eq_singleton_of_nodup hnodup (fun index hindex => ?_) (fun hnil => ?_)
      · exact UInt16.toNat_inj.mp ((h _).mp ⟨index, hindex, rfl⟩)
      · obtain ⟨index, hindex, -⟩ := (h 0).mpr rfl
        rw [hnil] at hindex
        cases hindex
    · intro h i
      rw [h]
      simp [eq_comm]
  · have hfront := regular_iff_stray.mp (hs.regular hcount)
    simp only [hfront]
    constructor
    · intro h
      refine List.eq_nil_iff_forall_not_mem.mpr fun index hindex => ?_
      exact hfree index hindex ((hfront _).mpr ((h _).mp (.inr ⟨index, hindex, rfl⟩)))
    · intro h i
      rw [h]
      simp

end Blanked

/-- A pool is written faithfully exactly if its slots are in their places, and edits that leave no
text too long lead to such a pool exactly if they replace no entry by none. A pool that begins
without the slot in front is the exception: there the first entry has to be. -/
theorem faithful_iff (hs : s.Fresh) (hfit : (s.applyAll ops).TextsFit) :
    ((s.applyAll ops).Faithful ↔ (s.applyAll ops).Regular) ∧
      ((s.applyAll ops).Regular ↔ blanked ops s = if s.count = 0 then [0] else []) :=
  ⟨faithful_iff_regular ((Paired.of_fresh hs).applyAll ops) hfit, regular_applyAll_iff hs ops⟩

/-- Replacing an entry by none breaks a pool, except for the first one of a pool that begins without
the slot in front. -/
theorem faithful_iff_blanked_samples :
    ¬ (Pool.empty.applyAll [.push (.long 7), .push (.integer 1), .set 3 .unusable]).Faithful ∧
      (Pool.bare.applyAll [.push (.integer 1), .push (.long 7), .set 0 .unusable]).Faithful := by
  have hempty : (Pool.empty.applyAll
      [.push (.long 7), .push (.integer 1), .set 3 .unusable]).TextsFit := by
    intro text htext
    have hslots : Constant.utf8 text ∈ [Constant.unusable, .long 7, .unusable, .unusable] :=
      Array.mem_toList_iff.mpr htext
    simp at hslots
  have hbare : (Pool.bare.applyAll
      [.push (.integer 1), .push (.long 7), .set 0 .unusable]).TextsFit := by
    intro text htext
    have hslots : Constant.utf8 text ∈ [Constant.unusable, .long 7, .unusable] :=
      Array.mem_toList_iff.mpr htext
    simp at hslots
  obtain ⟨hfaithful, hregular⟩ := faithful_iff .empty hempty
  obtain ⟨hfaithful', hregular'⟩ := faithful_iff .bare hbare
  refine ⟨fun h => ?_, hfaithful'.mpr (hregular'.mpr rfl)⟩
  cases hregular.mp (hfaithful.mp h)

end Retarget.Pool
