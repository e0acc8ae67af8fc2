import Mathlib.Data.Nat.Find
import Retarget.Proofs.ClassFile.PoolSlots

/-!
Interning a text after edits. The registry beside the entries keeps leading to
entries that hold the texts, whatever is done. It leads to the first one of them,
and knows every text, as long as entries are added only; replacing an entry keeps
that for a text unless the first of several entries with it goes, or one comes in
front of those there are. Told exactly, text by text.
-/

set_option autoImplicit false

namespace Retarget.Pool

variable {p q s : Pool} {c current : Constant} {i j : Nat} {index : UInt16} {text : Bytes}
  {op : Operation} {ops : List Operation}

/-- The entry at the place is the first one that holds the text. -/
structure First (p : Pool) (text : Bytes) (i : Nat) : Prop where
  holds : p.entries[i]? = some (.utf8 text)
  le : ∀ {k : Nat}, p.entries[k]? = some (.utf8 text) → i ≤ k

/-- Interning the text gives the first entry that holds it, and adds one only if there is none. -/
structure Sparing (p : Pool) (text : Bytes) : Prop where
  found : ∀ {i : Nat}, p.First text i → intern text p = .ok (UInt16.ofNat i) p
  added : (∀ i, ¬ p.First text i) → intern text p =
    if text.length < 0x10000 then push (.utf8 text) p else .error (.malformed .utf8Size) p

/-- Replacing the entry by the constant leaves it open nowhere which entry is the first one that
holds the text. -/
structure Harmless (text : Bytes) (index : UInt16) (c : Constant) (p : Pool) : Prop where
  /-- If the first entry with the text goes, it is the only one. -/
  gone : p.First text index.toNat → c ≠ .utf8 text →
    ∀ {k : Nat}, p.entries[k]? = some (.utf8 text) → k = index.toNat
  /-- If an entry with the text comes, no first one is behind it. -/
  come : c = .utf8 text → ∀ {i : Nat}, p.First text i → i ≤ index.toNat

def Spares (text : Bytes) : List Operation → Pool → Prop
  | [], _ => True
  | op :: ops, p =>
    (∀ (index : UInt16) (c : Constant) (q : Pool), op = .set index c → p.set index c = .ok q →
      Harmless text index c p) ∧
      Spares text ops (op.apply p)

private theorem First.unique (h : p.First text i) (h' : p.First text j) : i = j :=
  Nat.le_antisymm (h.le h'.holds) (h'.le h.holds)

private theorem exists_first (h : p.entries[i]? = some (.utf8 text)) : ∃ j, p.First text j := by
  classical
  have hsome : ∃ k : Nat, p.entries[k]? = some (.utf8 text) := ⟨i, h⟩
  exact ⟨Nat.find hsome, Nat.find_spec hsome, fun hk => Nat.find_min' hsome hk⟩

section Registry

/-- The registry leads to entries that hold the texts, and there are no more slots than it can
tell apart. -/
structure Sound (p : Pool) : Prop where
  count_le : p.count ≤ Fault.poolLimit
  found : ∀ {text : Bytes} {index : UInt16}, p.texts[text]? = some index →
    p.entries[index.toNat]? = some (.utf8 text)

/-- The registry leads to the first entry that holds the text. -/
def Accurate (p : Pool) (text : Bytes) : Prop :=
  ∀ i, p.First text i → p.texts[text]? = some (UInt16.ofNat i)

private theorem getElem?_unregister (c : Constant) (index : UInt16)
    (texts : Std.ExtTreeMap Bytes UInt16)
    (text : Bytes) : (unregister c index texts)[text]? =
      if c = .utf8 text ∧ texts[text]? = some index then none else texts[text]? := by
  cases c with
  | utf8 own =>
    by_cases hown : own = text
    · subst hown
      by_cases hat : texts[own]? = some index
      · simp [unregister, hat]
      · simp [unregister, hat]
    · have hkept : (if texts[own]? = some index then texts.erase own else texts)[text]? =
          texts[text]? := by
        split_ifs
        · simp [Std.ExtTreeMap.getElem?_erase, Std.LawfulEqCmp.compare_eq_iff_eq, hown]
        · rfl
      rw [unregister, hkept, if_neg]
      rintro ⟨heq, -⟩
      exact hown (Constant.utf8.inj heq)
  | _ => simp [unregister]

namespace Sound

theorem toNat_ofNat (h : p.Sound) (hi : p.entries[i]? = some c) : (UInt16.ofNat i).toNat = i :=
  UInt16.toNat_ofNat_of_lt' (Nat.lt_of_lt_of_le (lt_count_of_some hi)
    (Nat.le_trans h.count_le (by decide)))

private theorem texts_eq_none (h : p.Sound) (hnone : ∀ i, ¬ p.First text i) :
    p.texts[text]? = none := by
  cases htext : p.texts[text]? with
  | none => rfl
  | some index =>
    obtain ⟨i, hi⟩ := exists_first (h.found htext)
    exact absurd hi (hnone i)

theorem append (h : p.Sound) (hroom : p.count + c.slots ≤ Fault.poolLimit) :
    (p.append c).Sound where
  count_le := by rwa [count_append]
  found := found_append hroom h.found

private theorem set (h : p.Sound) (hset : p.set index c = .ok q) : q.Sound := by
  have hget := getElem?_of_set hset
  obtain ⟨current, hcurrent, -, -, rfl⟩ := set_ok_iff.mp hset
  refine ⟨?_, fun {text i} hi => ?_⟩
  · rw [count, Array.size_setIfInBounds]
    exact h.count_le
  · rw [hget]
    simp only [getElem?_register, getElem?_unregister] at hi
    by_cases hat : index = i
    · subst hat
      rw [if_pos rfl]
      by_cases hc : c = .utf8 text
      · rw [hc]
      · rw [if_neg fun hnew => hc hnew.1] at hi
        -- the replaced entry held the text, so its registration is gone
        split_ifs at hi with hgone
        exact absurd ⟨Option.some.inj (hcurrent.symm.trans (h.found hi)), hi⟩ hgone
    · rw [if_neg fun heq => hat (UInt16.toNat_inj.mp heq)]
      split_ifs at hi with hnew hgone hgone
      · exact absurd (Option.some.inj hi) (by simpa using hat)
      · exact absurd (Option.some.inj hi) (by simpa using hat)
      · exact h.found hi

theorem pushed (h : Pushed p q) (hp : p.Sound) : q.Sound := by
  induction h with
  | refl => exact hp
  | append _ _ hroom ih => exact ih.append hroom

private theorem apply (h : p.Sound) (op : Operation) : (op.apply p).Sound := by
  rcases op.apply_cases p with ⟨index, c, -, hset⟩ | hpushed
  · exact h.set hset
  · exact pushed hpushed h

theorem applyAll (h : p.Sound) (ops : List Operation) : (p.applyAll ops).Sound := by
  induction ops generalizing p with
  | nil => exact h
  | cons op ops ih => exact ih (h.apply op)

theorem of_fresh (h : s.Fresh) : s.Sound := by
  rcases h.bare_or_pushed with rfl | hpushed
  · exact ⟨by decide, fun h => by simp [bare] at h⟩
  · exact pushed hpushed ⟨by decide, fun h => by simp [Pool.empty] at h⟩

end Sound

private theorem sparing_iff_accurate (h : p.Sound) : p.Sparing text ↔ p.Accurate text := by
  constructor
  · intro hsparing i hi
    have hfound := hsparing.found hi
    rcases intern_cases text p with ⟨index, hindex, hrun⟩ | ⟨-, -, hrun⟩ | ⟨fault, -, hrun⟩
    · rw [hrun] at hfound
      cases hfound
      exact hindex
    · -- the pool has grown
      have hcount : (p.append (.utf8 text)).count = p.count + 1 := count_append (.utf8 text) p
      rw [hrun] at hfound
      injection hfound with _ hpool
      rw [hpool] at hcount
      omega
    · cases hrun.symm.trans hfound
  · intro haccurate
    refine ⟨fun {i} hi => ?_, fun hnone => ?_⟩
    · rw [intern, haccurate i hi]
    · rw [intern, h.texts_eq_none hnone]

namespace Accurate

private theorem append (h : p.Accurate text) (hp : p.Sound) : (p.append c).Accurate text := by
  intro i hi
  simp only [Pool.append, getElem?_register]
  rcases of_getElem?_append hi.holds with hold | ⟨rfl, rfl⟩ | ⟨-, hnone⟩
  · have htext := h i ⟨hold, fun hk => hi.le (getElem?_append_of_some hk)⟩
    rw [htext, if_neg fun hnew => Option.some_ne_none _ hnew.2]
  · have hnone : ∀ k, ¬ p.First text k := by
      intro k hk
      have hle := hi.le (getElem?_append_of_some hk.holds)
      have hlt := lt_count_of_some hk.holds
      omega
    rw [if_pos ⟨rfl, hp.texts_eq_none hnone⟩]
    rfl
  · cases hnone

private theorem pushed (h : Pushed p q) (hp : p.Sound) (haccurate : p.Accurate text) :
    q.Accurate text := by
  have hboth : q.Sound ∧ q.Accurate text := by
    induction h with
    | refl => exact ⟨hp, haccurate⟩
    | append _ _ hroom ih => exact ⟨ih.1.append hroom, ih.2.append ih.1⟩
  exact hboth.2

private theorem of_fresh (h : s.Fresh) : s.Accurate text := by
  rcases h.bare_or_pushed with rfl | hpushed
  · intro i hi
    have hholds := hi.holds
    simp [bare] at hholds
  · refine pushed hpushed (.of_fresh .empty) fun i hi => ?_
    have hholds := hi.holds
    obtain ⟨hlt, hslot⟩ := Array.getElem?_eq_some_iff.mp hholds
    obtain rfl : i = 0 := Nat.lt_one_iff.mp hlt
    cases hslot

end Accurate

end Registry

section Replacing

private theorem texts_of_set (hp : p.Sound) (hset : p.set index c = .ok q) (text : Bytes) :
    q.texts[text]? =
    if p.texts[text]? = some index ∨ p.texts[text]? = none then
      if c = .utf8 text then some index else none
    else p.texts[text]? := by
  obtain ⟨current, hcurrent, -, -, rfl⟩ := set_ok_iff.mp hset
  simp only [getElem?_register, getElem?_unregister, UInt16.ofNat_toNat]
  cases htext : p.texts[text]? with
  | none => simp
  | some other =>
    by_cases hat : other = index
    · subst hat
      cases hcurrent.symm.trans (hp.found htext)
      simp
    · simp [hat]

private theorem harmless_of_accurate (hp : p.Sound) (h : p.Accurate text)
    (hset : p.set index c = .ok q)
    (hq : q.Accurate text) : Harmless text index c p := by
  have hget := getElem?_of_set hset
  have htexts := texts_of_set hp hset text
  refine ⟨fun hfirst hc k hk => ?_, fun hc i hi => ?_⟩
  · by_contra hother
    -- another entry holds the text, and none is registered
    have hkept : q.entries[k]? = some (.utf8 text) := by
      rw [hget, if_neg fun heq => hother heq.symm, hk]
    obtain ⟨j, hj⟩ := exists_first hkept
    have hat := h _ hfirst
    rw [UInt16.ofNat_toNat] at hat
    rw [hat, if_pos (.inl rfl), if_neg hc, hq j hj] at htexts
    cases htexts
  · by_contra hbehind
    -- the new entry is the first one, and the old one is registered
    have hnew : q.First text index.toNat := by
      refine ⟨by rw [hget, if_pos rfl, hc], fun {k} hk => ?_⟩
      by_contra hlt
      rw [hget, if_neg (by omega)] at hk
      have hle := hi.le hk
      omega
    have hother : UInt16.ofNat i ≠ index := by
      intro heq
      have hnat := hp.toNat_ofNat hi.holds
      rw [heq] at hnat
      omega
    rw [hq _ hnew, h i hi, UInt16.ofNat_toNat, if_neg (by simp [hother])] at htexts
    exact hother (Option.some.inj htexts).symm

private theorem Accurate.set (hp : p.Sound) (h : p.Accurate text) (hset : p.set index c = .ok q)
    (hharmless : Harmless text index c p) : q.Accurate text := by
  intro j hj
  have hget := getElem?_of_set hset
  have htexts := texts_of_set hp hset text
  by_cases hc : c = .utf8 text
  · by_cases hsome : ∃ i, p.First text i
    · obtain ⟨i, hi⟩ := hsome
      have hle := hharmless.come hc hi
      have hfirst : q.First text i := by
        refine ⟨?_, fun {k} hk => ?_⟩
        · rw [hget]
          split_ifs
          · rw [hc]
          · exact hi.holds
        · rw [hget] at hk
          split_ifs at hk with hat
          · exact hat ▸ hle
          · exact hi.le hk
      cases hfirst.unique hj
      rw [htexts, h _ hi]
      by_cases hat : UInt16.ofNat j = index
      · rw [hat, if_pos (.inl rfl), if_pos hc]
      · rw [if_neg (by simp [hat])]
    · have hnone := not_exists.mp hsome
      rw [htexts, hp.texts_eq_none hnone, if_pos (.inr rfl), if_pos hc]
      have hholds := hj.holds
      rw [hget] at hholds
      split_ifs at hholds with hat
      · rw [← hat, UInt16.ofNat_toNat]
      · obtain ⟨i, hi⟩ := exists_first hholds
        exact absurd hi (hnone i)
  · have hholds := hj.holds
    rw [hget] at hholds
    split_ifs at hholds with hat
    · exact absurd (Option.some.inj hholds) hc
    · obtain ⟨i, hi⟩ := exists_first hholds
      have hother : index.toNat ≠ i := by
        rintro rfl
        exact hat (hharmless.gone hi hc hholds).symm
      have hfirst : i = j :=
        Nat.le_antisymm (hi.le hholds) (hj.le (by rw [hget, if_neg hother, hi.holds]))
      subst hfirst
      have hkept : UInt16.ofNat i ≠ index := by
        rintro rfl
        exact hother (hp.toNat_ofNat hholds)
      rw [htexts, h i hi, if_neg (by simp [hkept])]

end Replacing

section Runs

private theorem sparing_prefixes_iff (hp : p.Sound) (h : p.Accurate text) (ops : List Operation) :
    (∀ front, front <+: ops → (p.applyAll front).Sparing text) ↔ Spares text ops p := by
  induction ops generalizing p with
  | nil =>
    simp only [List.prefix_nil, forall_eq, Spares, iff_true]
    exact (sparing_iff_accurate hp).mpr h
  | cons op ops ih =>
    have hstep : (op.apply p).Accurate text ↔
        ∀ (index : UInt16) (c : Constant) (q : Pool), op = .set index c → p.set index c = .ok q →
          Harmless text index c p := by
      constructor
      · rintro haccurate index c q rfl hset
        rw [Operation.apply, hset] at haccurate
        exact harmless_of_accurate hp h hset haccurate
      · intro hharmless
        rcases op.apply_cases p with ⟨index, c, hop, hset⟩ | hpushed
        · exact h.set hp hset (hharmless index c _ hop hset)
        · exact Accurate.pushed hpushed hp h
    have hsound := hp.apply op
    constructor
    · intro hsparing
      have hnext := (sparing_iff_accurate hsound).mp
        (hsparing [op] (List.cons_prefix_cons.mpr ⟨rfl, List.nil_prefix⟩))
      refine ⟨hstep.mp hnext, (ih hsound hnext).mp fun front hfront => ?_⟩
      exact hsparing (op :: front) (List.cons_prefix_cons.mpr ⟨rfl, hfront⟩)
    · rintro ⟨hharmless, hspares⟩ front hfront
      cases front with
      | nil => exact (sparing_iff_accurate hp).mpr h
      | cons first front =>
        obtain ⟨rfl, hrest⟩ := List.cons_prefix_cons.mp hfront
        exact (ih hsound (hstep.mpr hharmless)).mpr hspares front hrest

end Runs

/-- Interning a text after some edits gives the first entry that holds it, and adds one only if there
is none: so it is after every part of the edits exactly if no replacement on the way takes the first
of several entries with the text away, or puts one in front of those there are. Whatever the edits,
the answer leads to an entry that holds the text, and no more than that entry is added. -/
theorem intern_sparing_iff (hs : s.Fresh) (ops : List Operation) (text : Bytes) :
    ((∀ front, front <+: ops → (s.applyAll front).Sparing text) ↔ Spares text ops s) ∧
      ∀ index q, intern text (s.applyAll ops) = .ok index q →
        q.entries[index.toNat]? = some (.utf8 text) ∧
          (q = s.applyAll ops ∨ q = (s.applyAll ops).append (.utf8 text)) := by
  have hsound := (Sound.of_fresh hs).applyAll ops
  refine ⟨sparing_prefixes_iff (.of_fresh hs) (.of_fresh hs) ops, fun index q hrun => ?_⟩
  rcases intern_cases text (s.applyAll ops) with
    ⟨other, hat, hfound⟩ | ⟨-, hroom, hadded⟩ | ⟨fault, -, hfailed⟩
  · cases hfound.symm.trans hrun
    exact ⟨hsound.found hat, .inl rfl⟩
  · cases hadded.symm.trans hrun
    have hcount : (s.applyAll ops).count < UInt16.size := Nat.lt_of_lt_of_le hroom (by decide)
    rw [UInt16.toNat_ofNat_of_lt' hcount]
    exact ⟨getElem?_append_count _ _, .inr rfl⟩
  · cases hfailed.symm.trans hrun

/-- Two entries hold one text. Interning it stays sparing if the second one is replaced, and not if
the first one is. -/
theorem intern_sparing_iff_twice :
    (∀ front, front <+: [.push (.utf8 [97]), .push (.utf8 [97]), .set 2 (.utf8 [98])] →
      (Pool.empty.applyAll front).Sparing [97]) ∧
    ¬ ∀ front, front <+: [.push (.utf8 [97]), .push (.utf8 [97]), .set 1 (.utf8 [98])] →
      (Pool.empty.applyAll front).Sparing [97] := by
  constructor
  · refine (intern_sparing_iff .empty _ [97]).1.mpr ⟨nofun, nofun, ?_, trivial⟩
    rintro index c q ⟨⟩ -
    refine ⟨fun hfirst => ?_, nofun⟩
    have hle : 2 ≤ 1 := hfirst.le rfl
    omega
  · intro h
    obtain ⟨-, -, hset, -⟩ := (intern_sparing_iff .empty _ [97]).1.mp h
    have hharmless := hset 1 (.utf8 [98]) _ rfl
      (set_ok_iff.mpr ⟨.utf8 [97], rfl, nofun, rfl, rfl⟩)
    have hother : 2 = 1 := by
      refine hharmless.gone ⟨rfl, fun {k} hk => ?_⟩ (by decide) rfl
      cases k with
      | zero => cases hk
      | succ k => exact Nat.le_add_left 1 k
    omega

end Retarget.Pool
