import Mathlib.Tactic.Common
import Retarget.ClassFile.Basic
import Retarget.ClassFile.Site
import Retarget.Proofs.Bytes.ReadBack

/-!
The registry of a pool: every text of the pool is registered, and under the
index of an entry that holds it. A pool that was read has this property, and
adding entries and relinking keep it, so interning a text gives an index that
holds it and adds an entry only if no entry has the text.
-/

set_option autoImplicit false

namespace Retarget.Pool

variable {p p' : Pool} {c : Constant} {index : UInt16} {text : Bytes}

theorem text_eq_ok_iff : p.text index = .ok text ↔ p.entries[index.toNat]? = some (.utf8 text) := by
  constructor
  · intro h
    obtain ⟨c, hc, h⟩ := bind_eq_ok_iff.mp h
    simp only [get] at hc
    split at hc
    · cases hc
    · cases hc
    · next found hfound =>
      cases hc
      cases c <;> simp_all [pure, Except.pure, throw, throwThe, MonadExceptOf.throw]
  · intro h
    simp [Pool.text, get, h, bind, Except.bind, pure, Except.pure]

def filling (c : Constant) : List Constant :=
  if c.isWide then [c, .unusable] else [c]

theorem entries_append (c : Constant) (p : Pool) :
    (p.append c).entries.toList = p.entries.toList ++ filling c := by
  cases hw : c.isWide <;> simp [append, filling, hw]

theorem length_filling (c : Constant) : (filling c).length = c.slots := by
  cases hw : c.isWide <;> simp [filling, Constant.slots, hw]

theorem count_append (c : Constant) (p : Pool) : (p.append c).count = p.count + c.slots := by
  rw [count, count, ← Array.length_toList, entries_append, List.length_append, length_filling,
    Array.length_toList]

theorem getElem?_append_of_some {i : Nat} {e : Constant} (h : p.entries[i]? = some e) :
    (p.append c).entries[i]? = some e := by
  rw [← Array.getElem?_toList] at h ⊢
  rw [entries_append, List.getElem?_append_left (List.getElem?_eq_some_iff.mp h).1, h]

theorem getElem?_append_count (c : Constant) (p : Pool) :
    (p.append c).entries[p.count]? = some c := by
  have hcount : p.count = p.entries.toList.length := rfl
  rw [← Array.getElem?_toList, entries_append, hcount, List.getElem?_append_right (Nat.le_refl _),
    Nat.sub_self]
  cases hw : c.isWide <;> simp [filling, hw]

theorem of_getElem?_append {i : Nat} {e : Constant} (h : (p.append c).entries[i]? = some e) :
    p.entries[i]? = some e ∨ i = p.count ∧ e = c ∨ i = p.count + 1 ∧ e = .unusable := by
  rw [← Array.getElem?_toList, entries_append, List.getElem?_append, Array.length_toList,
    Array.getElem?_toList] at h
  split at h
  · exact .inl h
  · next hi =>
    have hcount : p.count = p.entries.size := rfl
    right
    cases hw : c.isWide with
    | false =>
      simp only [filling, hw, Bool.false_eq_true, if_false, List.getElem?_singleton] at h
      split_ifs at h
      cases h
      exact .inl ⟨by omega, rfl⟩
    | true =>
      simp only [filling, hw, if_true] at h
      match hk : i - p.entries.size, h with
      | 0, h =>
        simp only [List.getElem?_cons_zero, Option.some.injEq] at h
        exact .inl ⟨by omega, h.symm⟩
      | 1, h =>
        simp only [List.getElem?_cons_succ, List.getElem?_cons_zero, Option.some.injEq] at h
        exact .inr ⟨by omega, h.symm⟩
      | k + 2, h => simp at h

theorem getElem?_relink (index text : UInt16) (p : Pool) (i : Nat) :
    (p.relink index text).entries[i]? =
      if index.toNat = i then p.entries[i]?.map (Constant.withSymbol text) else p.entries[i]? :=
  Array.getElem?_modify

theorem getElem?_register (c : Constant) (i : Nat) (texts : Std.ExtTreeMap Bytes UInt16)
    (text : Bytes) : (register c i texts)[text]? =
      if c = .utf8 text ∧ texts[text]? = none then some (UInt16.ofNat i) else texts[text]? := by
  cases c with
  | utf8 own =>
    simp only [register, Std.ExtTreeMap.getElem?_insertIfNew, Std.LawfulEqCmp.compare_eq_iff_eq,
      Constant.utf8.injEq]
    by_cases hown : own = text
    · subst hown
      have hmem : own ∉ texts ↔ texts[own]? = none := by
        rw [Std.ExtTreeMap.mem_iff_isSome_getElem?, Option.not_isSome_iff_eq_none]
      simp only [hmem]
    · simp [hown]
  | _ => simp [register]

theorem found_append (hroom : p.count + c.slots ≤ Fault.poolLimit)
    (hfound : p.texts[text]? = some index → p.entries[index.toNat]? = some (.utf8 text))
    (h : (p.append c).texts[text]? = some index) :
    (p.append c).entries[index.toNat]? = some (.utf8 text) := by
  simp only [append, getElem?_register] at h
  split_ifs at h with hnew
  · cases h
    obtain ⟨rfl, -⟩ := hnew
    have hcount : p.entries.size < UInt16.size := Nat.lt_of_lt_of_le hroom (by decide)
    rw [UInt16.toNat_ofNat_of_lt' hcount]
    exact getElem?_append_count _ p
  · exact getElem?_append_of_some (hfound h)

/-- The registry leads to entries that hold the texts, and no text is missing in it. -/
structure Registered (p : Pool) : Prop where
  count_le : p.count ≤ Fault.poolLimit
  found : ∀ {text : Bytes} {index : UInt16}, p.texts[text]? = some index →
    p.entries[index.toNat]? = some (.utf8 text)
  known : ∀ {i : Nat} {text : Bytes}, p.entries[i]? = some (.utf8 text) →
    ∃ index, p.texts[text]? = some index

namespace Registered

private theorem empty : Registered Pool.empty where
  count_le := by decide
  found h := by simp [Pool.empty] at h
  known h := by
    simp only [Pool.empty] at h
    obtain ⟨hi, h⟩ := Array.getElem?_eq_some_iff.mp h
    simp at hi
    subst hi
    simp at h

theorem not_mem (h : p.Registered) (hnew : p.texts[text]? = none) :
    Constant.utf8 text ∉ p.entries := by
  intro hmem
  obtain ⟨i, hi⟩ := Array.getElem?_of_mem hmem
  obtain ⟨index, hindex⟩ := h.known hi
  simp [hindex] at hnew

theorem append (h : p.Registered) (hroom : p.count + c.slots ≤ Fault.poolLimit) :
    (p.append c).Registered where
  count_le := by rw [count_append]; exact hroom
  found := found_append hroom h.found
  known {i text} hi := by
    simp only [Pool.append, getElem?_register]
    split_ifs with hnew
    · exact ⟨_, rfl⟩
    · rcases of_getElem?_append hi with hold | ⟨-, hc⟩ | ⟨-, hc⟩
      · exact h.known hold
      · exact Option.ne_none_iff_exists'.mp fun hnone => hnew ⟨hc.symm, hnone⟩
      · cases hc

theorem relink (h : p.Registered) (index text : UInt16) : (p.relink index text).Registered where
  count_le := by simpa [Pool.relink, count] using h.count_le
  found {other i} hi := by
    rw [getElem?_relink, h.found hi]
    split_ifs <;> rfl
  known {i other} hi := by
    rw [getElem?_relink] at hi
    split_ifs at hi
    · obtain ⟨e, he, hother⟩ := Option.map_eq_some_iff.mp hi
      cases e <;> cases hother
      exact h.known he
    · exact h.known hi

end Registered

private theorem registered_of_readEntries {count room : Nat} {r r' : Reader} (hp : p.Registered)
    (hroom : p.count + room ≤ Fault.poolLimit)
    (h : readEntries count room p r = .ok (p', r')) : p'.Registered := by
  fun_induction readEntries count room p r with
  | case1 p r =>
    cases h
    exact hp
  | case2 => cases h
  | case3 p r c r₁ hc hwide room ih =>
    have hslots : c.slots = 2 := by simp [Constant.slots, hwide]
    refine ih (hp.append (by omega)) ?_ h
    rw [count_append]
    omega
  | case4 => cases h
  | case5 room p r c r₁ hc hnarrow ih =>
    have hslots : c.slots = 1 := by simp [Constant.slots, hnarrow]
    refine ih (hp.append (by omega)) ?_ h
    rw [count_append]
    omega

theorem registered_of_read {r r' : Reader} (h : read r = .ok (p, r')) : p.Registered := by
  obtain ⟨⟨count, r₁⟩, -, h⟩ := bind_eq_ok_iff.mp h
  simp only at h
  split at h
  · cases h
  · next room hroom =>
    have hcount := count.toNat_lt
    have hone : Pool.empty.count = 1 := rfl
    have hlimit : Fault.poolLimit = 65535 := rfl
    exact registered_of_readEntries Registered.empty (by omega) h

/-- Interning finds the text, or adds it, or fails and adds nothing. -/
theorem intern_cases (text : Bytes) (p : Pool) :
    (∃ index, p.texts[text]? = some index ∧ intern text p = .ok index p) ∨
    (p.texts[text]? = none ∧ p.count + 1 ≤ Fault.poolLimit ∧
      intern text p = .ok (UInt16.ofNat p.count) (p.append (.utf8 text))) ∨
    ∃ fault, p.texts[text]? = none ∧ intern text p = .error fault p := by
  cases ht : p.texts[text]? with
  | some index => exact .inl ⟨index, rfl, by simp [intern, ht]⟩
  | none =>
    right
    have hslots : (Constant.utf8 text).slots = 1 := rfl
    have hcount : p.entries.size = p.count := rfl
    by_cases hlen : text.length < 0x10000
    · by_cases hroom : p.count + 1 ≤ Fault.poolLimit
      · exact .inl ⟨rfl, hroom, by simp [intern, ht, hlen, push, hslots, hcount, hroom]⟩
      · exact .inr ⟨.poolOverflow, rfl, by simp [intern, ht, hlen, push, hslots, hcount, hroom]⟩
    · exact .inr ⟨.malformed .utf8Size, rfl, by simp [intern, ht, hlen]⟩

end Retarget.Pool

namespace Retarget.ClassFile

variable {bytes : Bytes} {c : ClassFile}

theorem readTables_of_ofBytes (h : ofBytes bytes = .ok c) :
    ∃ r after, Reader.take 4 (Reader.ofBytes bytes) = .ok (magic, r) ∧
      readTables r = .ok (c, after) ∧ after.rest = [] := by
  simp only [ofBytes] at h
  split at h
  · cases h
  · split at h
    · cases h
    · next front r htake =>
      split at h
      · next hfront =>
        split at h
        · cases h
        · next c' after htables =>
          split at h
          · next hend =>
            cases h
            exact ⟨r, after, hfront ▸ htake, htables, List.isEmpty_iff.mp hend⟩
          · cases h
      · cases h

theorem readPool_of_ofBytes (h : ofBytes bytes = .ok c) :
    ∃ r r', Pool.read r = .ok (c.pool, r') := by
  obtain ⟨r, after, -, h, -⟩ := readTables_of_ofBytes h
  obtain ⟨⟨minor, r₁⟩, -, h⟩ := bind_eq_ok_iff.mp h
  obtain ⟨⟨major, r₂⟩, -, h⟩ := bind_eq_ok_iff.mp h
  obtain ⟨⟨pool, r₃⟩, hpool, h⟩ := bind_eq_ok_iff.mp h
  obtain ⟨⟨access, r₄⟩, -, h⟩ := bind_eq_ok_iff.mp h
  obtain ⟨⟨this, r₅⟩, -, h⟩ := bind_eq_ok_iff.mp h
  obtain ⟨⟨super, r₆⟩, -, h⟩ := bind_eq_ok_iff.mp h
  obtain ⟨⟨interfaces, r₇⟩, -, h⟩ := bind_eq_ok_iff.mp h
  obtain ⟨⟨fields, r₈⟩, -, h⟩ := bind_eq_ok_iff.mp h
  obtain ⟨⟨methods, r₉⟩, -, h⟩ := bind_eq_ok_iff.mp h
  obtain ⟨⟨attributes, r₁₀⟩, -, h⟩ := bind_eq_ok_iff.mp h
  cases h
  exact ⟨r₂, r₃, hpool⟩

theorem registered_of_ofBytes (h : ofBytes bytes = .ok c) : c.pool.Registered := by
  obtain ⟨_, _, hpool⟩ := readPool_of_ofBytes h
  exact Pool.registered_of_read hpool

end Retarget.ClassFile
