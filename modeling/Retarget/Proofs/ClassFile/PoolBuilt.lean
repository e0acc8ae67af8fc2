import Retarget.Proofs.ClassFile.RoundTrip
import Retarget.Proofs.Listing

/-!
Pools that were built by appending entries. They have an unusable slot after
each wide entry and nowhere else, and each text registered under the first index
that holds it. A pool that was read is built, and stays so when texts are added
and entries are led elsewhere.
-/

set_option autoImplicit false

namespace Retarget

open Layout Reader

namespace Constant

variable {c : Constant}

private theorem isWide_withSymbol (text : UInt16) (c : Constant) :
    (c.withSymbol text).isWide = c.isWide := by
  cases c <;> rfl

private theorem withSymbol_ne_unusable (text : UInt16) (hc : c ≠ .unusable) :
    c.withSymbol text ≠ .unusable := by
  cases c <;> first | exact Constant.noConfusion | exact hc

private theorem ne_unusable_of_read {r r' : Reader} (h : read r = .ok (c, r')) : c ≠ .unusable := by
  rintro rfl
  obtain ⟨⟨code, r₁⟩, -, h⟩ := bind_eq_ok_iff.mp h
  simp only at h
  split at h
  · cases (readFields_fills h).1
  · cases h

end Constant

namespace Pool

variable {p p' : Pool} {c : Constant}

/-- The pool is what appending entries to the empty pool gives. -/
inductive Built : Pool → Prop where
  | empty : Built Pool.empty
  | append {p : Pool} {c : Constant} (hp : Built p) (hc : c ≠ .unusable) : Built (p.append c)

def appendAll (p : Pool) (constants : List Constant) : Pool :=
  constants.foldl (fun p c => p.append c) p

theorem count_appendAll (constants : List Constant) (p : Pool) :
    (p.appendAll constants).count = p.count + total Constant.slots constants := by
  induction constants generalizing p with
  | nil => rfl
  | cons c constants ih =>
    have hrest := ih (p.append c)
    rw [count_append, Nat.add_assoc] at hrest
    exact hrest

theorem layout_appendAll (constants : List Constant) (p : Pool) :
    (p.appendAll constants).entries.toList.flatMap Constant.layout =
      p.entries.toList.flatMap Constant.layout ++ constants.flatMap Constant.layout := by
  induction constants generalizing p with
  | nil => simp [appendAll]
  | cons c constants ih =>
    have hrest := ih (p.append c)
    rw [entries_append, List.flatMap_append, layout_filling, List.append_assoc] at hrest
    exact hrest

private theorem register_withSymbol (text : UInt16) (c : Constant) (i : Nat)
    (texts : Std.ExtTreeMap Bytes UInt16) :
    register (c.withSymbol text) i texts = register c i texts := by
  cases c <;> rfl

private theorem relink_append (index text : UInt16) (c : Constant) (p : Pool) :
    (p.append c).relink index text = (p.relink index text).append
      (if index.toNat = p.count then c.withSymbol text else c) := by
  have hunusable : ∀ i, (if index.toNat = i then Constant.unusable.withSymbol text else
      .unusable) = .unusable := fun i => by split_ifs <;> rfl
  have hwide : (if index.toNat = p.count then c.withSymbol text else c).isWide = c.isWide := by
    split_ifs
    · exact c.isWide_withSymbol text
    · rfl
  have htexts : register (if index.toNat = p.count then c.withSymbol text else c)
      p.entries.size p.texts = register c p.entries.size p.texts := by
    split_ifs
    · exact register_withSymbol text c _ _
    · rfl
  simp only [append, relink, Array.size_modify, hwide, htexts]
  cases c.isWide with
  | true =>
    rw [if_pos rfl, if_pos rfl, modify_push, modify_push, hunusable]
    rfl
  | false =>
    rw [if_neg Bool.false_ne_true, if_neg Bool.false_ne_true, modify_push]
    rfl

namespace Built

theorem exists_appendAll (h : p.Built) : ∃ constants : List Constant,
    (∀ c ∈ constants, c ≠ .unusable) ∧ p = Pool.empty.appendAll constants := by
  induction h with
  | empty => exact ⟨[], by simp, rfl⟩
  | @append p c _ hc ih =>
    obtain ⟨constants, hconstants, rfl⟩ := ih
    refine ⟨constants ++ [c], ?_, ?_⟩
    · intro e he
      rcases List.mem_append.mp he with he | he
      · exact hconstants e he
      · rw [List.mem_singleton.mp he]
        exact hc
    · simp [appendAll]

theorem relink (h : p.Built) (index text : UInt16) : (p.relink index text).Built := by
  induction h with
  | empty =>
    have hempty : Pool.empty.relink index text = Pool.empty := by
      rw [Pool.relink, Pool.empty, Pool.mk.injEq]
      refine ⟨Array.ext_getElem? fun k => ?_, rfl⟩
      rw [Array.getElem?_modify]
      split_ifs
      · cases k <;> rfl
      · rfl
    rw [hempty]
    exact .empty
  | @append p c _ hc ih =>
    rw [relink_append]
    refine ih.append ?_
    split_ifs
    · exact Constant.withSymbol_ne_unusable text hc
    · exact hc

end Built

private theorem built_of_readEntries {count room : Nat} {r r' : Reader} (hp : p.Built)
    (h : readEntries count room p r = .ok (p', r')) : p'.Built := by
  fun_induction readEntries count room p r with
  | case1 p r =>
    cases h
    exact hp
  | case2 => cases h
  | case3 p r c r₁ hc hwide room ih => exact ih (hp.append (Constant.ne_unusable_of_read hc)) h
  | case4 => cases h
  | case5 room p r c r₁ hc hnarrow ih => exact ih (hp.append (Constant.ne_unusable_of_read hc)) h

theorem built_of_read {r r' : Reader} (h : read r = .ok (p, r')) : p.Built := by
  obtain ⟨⟨count, r₁⟩, -, h⟩ := bind_eq_ok_iff.mp h
  simp only at h
  split at h
  · cases h
  · exact built_of_readEntries .empty h

end Pool

namespace ClassFile

variable {bytes : Bytes} {c : ClassFile}

theorem built_of_ofBytes (h : ofBytes bytes = .ok c) : c.pool.Built := by
  obtain ⟨_, _, hpool⟩ := readPool_of_ofBytes h
  exact Pool.built_of_read hpool

end ClassFile

end Retarget
