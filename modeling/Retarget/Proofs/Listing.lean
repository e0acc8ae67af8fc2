import Mathlib.Data.List.Forall2
import Mathlib.Tactic.Common
import Retarget.Proofs.Bytes.ReadBack

/-!
Lists walked by a step that may fail, and lists compared item by item.
-/

set_option autoImplicit false

namespace Retarget

variable {α β γ ε : Type} {f : α → Except ε β}

theorem toOption_eq_some_iff {x : Except ε α} {a : α} : x.toOption = some a ↔ x = .ok a := by
  cases x <;> simp [Except.toOption]

theorem mapM_nil_ok_iff {bs : List β} : [].mapM f = .ok bs ↔ bs = [] := by
  simp [pure, Except.pure, eq_comm]

theorem mapM_cons_ok_iff {a : α} {as : List α} {bs : List β} :
    (a :: as).mapM f = .ok bs ↔ ∃ b rest, f a = .ok b ∧ as.mapM f = .ok rest ∧ bs = b :: rest := by
  rw [List.mapM_cons]
  constructor
  · intro h
    obtain ⟨b, hb, h⟩ := bind_eq_ok_iff.mp h
    obtain ⟨rest, hrest, h⟩ := bind_eq_ok_iff.mp h
    cases h
    exact ⟨b, rest, hb, hrest, rfl⟩
  · rintro ⟨b, rest, hb, hrest, rfl⟩
    rw [hb, hrest]
    rfl

theorem mapM_of_forall_ok {g : α → β} {as : List α}
    (h : ∀ a ∈ as, f a = .ok (g a)) : as.mapM f = .ok (as.map g) := by
  induction as with
  | nil => rfl
  | cons a as ih =>
    obtain ⟨hfirst, hrest⟩ := List.forall_mem_cons.mp h
    exact mapM_cons_ok_iff.mpr ⟨g a, as.map g, hfirst, ih hrest, rfl⟩

theorem mapM_of_forall₂ {as : List α} {as' : List γ} {f' : γ → Except ε β} {bs : List β}
    (hall : List.Forall₂ (fun a a' => ∀ b, f a = .ok b → f' a' = .ok b) as as')
    (h : as.mapM f = .ok bs) : as'.mapM f' = .ok bs := by
  induction hall generalizing bs with
  | nil => exact mapM_nil_ok_iff.mpr (mapM_nil_ok_iff.mp h)
  | cons hfirst _ ih =>
    obtain ⟨b, rest, hb, hrest, rfl⟩ := mapM_cons_ok_iff.mp h
    exact mapM_cons_ok_iff.mpr ⟨b, rest, hfirst b hb, ih hrest, rfl⟩

private theorem map_of_mem_mapM {part : β → γ} {g : α → γ} {as : List α} {bs : List β}
    (h : as.mapM f = .ok bs) (hpart : ∀ a ∈ as, ∀ b, f a = .ok b → part b = g a) :
    bs.map part = as.map g := by
  induction as generalizing bs with
  | nil =>
    rw [mapM_nil_ok_iff.mp h]
    rfl
  | cons a as ih =>
    obtain ⟨b, rest, hb, hrest, rfl⟩ := mapM_cons_ok_iff.mp h
    obtain ⟨hfirst, hmore⟩ := List.forall_mem_cons.mp hpart
    rw [List.map_cons, List.map_cons, hfirst b hb, ih hrest hmore]

theorem map_of_mapM {part : β → γ} {g : α → γ} {as : List α} {bs : List β}
    (h : as.mapM f = .ok bs) (hpart : ∀ a b, f a = .ok b → part b = g a) :
    bs.map part = as.map g :=
  map_of_mem_mapM h fun a _ => hpart a

theorem filterMap_of_mem_mapM {part : β → Option γ} {g : α → Option γ} {as : List α} {bs : List β}
    (h : as.mapM f = .ok bs) (hpart : ∀ a ∈ as, ∀ b, f a = .ok b → part b = g a) :
    bs.filterMap part = as.filterMap g := by
  have hmap := congrArg (List.filterMap id) (map_of_mem_mapM h hpart)
  rwa [List.filterMap_map, List.filterMap_map] at hmap

theorem filterMap_if (as : List α) (P : α → Prop) [DecidablePred P] (g : α → β) :
    (as.filterMap fun a => if P a then some (g a) else none) = (as.filter P).map g := by
  rw [← List.filterMap_eq_map, List.filterMap_filter]
  simp

theorem countP_of_mem_mapM {part : β → Bool} {g : α → Bool} {as : List α} {bs : List β}
    (h : as.mapM f = .ok bs) (hpart : ∀ a ∈ as, ∀ b, f a = .ok b → part b = g a) :
    bs.countP part = as.countP g := by
  have hmap := congrArg (List.countP id) (map_of_mem_mapM h hpart)
  rwa [List.countP_map, List.countP_map] at hmap

theorem mapM_ok_iff_forall₂ {as : List α} {bs : List β} :
    as.mapM f = .ok bs ↔ List.Forall₂ (fun a b => f a = .ok b) as bs := by
  induction as generalizing bs with
  | nil => rw [mapM_nil_ok_iff, List.forall₂_nil_left_iff]
  | cons a as ih => simp only [mapM_cons_ok_iff, List.forall₂_cons_left_iff, ih]

theorem ok_of_mem_mapM {a : α} {as : List α} {bs : List β} (h : as.mapM f = .ok bs)
    (ha : a ∈ as) : ∃ b, f a = .ok b := by
  induction as generalizing bs with
  | nil => cases ha
  | cons first as ih =>
    obtain ⟨b, rest, hb, hrest, rfl⟩ := mapM_cons_ok_iff.mp h
    rcases List.mem_cons.mp ha with rfl | ha
    · exact ⟨b, hb⟩
    · exact ih hrest ha

theorem error_of_mapM {as : List α} {fault : ε} (h : as.mapM f = .error fault) :
    ∃ a ∈ as, f a = .error fault := by
  induction as with
  | nil => cases h
  | cons first as ih =>
    rw [List.mapM_cons] at h
    cases hfirst : f first with
    | error fault' =>
      rw [hfirst] at h
      cases h
      exact ⟨first, List.mem_cons_self, hfirst⟩
    | ok b =>
      rw [hfirst] at h
      cases hrest : as.mapM f with
      | error fault' =>
        obtain ⟨a, ha, hfault⟩ := ih (by
          rw [hrest] at h
          cases h
          exact hrest)
        exact ⟨a, List.mem_cons_of_mem first ha, hfault⟩
      | ok rest =>
        rw [hrest] at h
        cases h

theorem mem_iff_of_mapM {b : β} {as : List α} {bs : List β} (h : as.mapM f = .ok bs) :
    b ∈ bs ↔ ∃ a ∈ as, f a = .ok b := by
  induction as generalizing bs with
  | nil => simp [mapM_nil_ok_iff.mp h]
  | cons first as ih =>
    obtain ⟨b', rest, hb', hrest, rfl⟩ := mapM_cons_ok_iff.mp h
    simp [ih hrest, hb', eq_comm]

theorem countP_lt_of_mem {q r : α → Bool} {a : α} {as : List α} (ha : a ∈ as)
    (himp : ∀ b, q b = true → r b = true) (hq : q a = false) (hr : r a = true) :
    as.countP q < as.countP r := by
  obtain ⟨front, back, rfl⟩ := List.append_of_mem ha
  have hfront : front.countP q ≤ front.countP r := List.countP_mono_left fun b _ => himp b
  have hback : back.countP q ≤ back.countP r := List.countP_mono_left fun b _ => himp b
  rw [List.countP_append, List.countP_append, List.countP_cons_of_pos hr,
    List.countP_cons_of_neg (by rw [hq]; exact Bool.false_ne_true)]
  omega

section Forall₂

variable {R : α → β → Prop} {as : List α} {bs : List β}

theorem map_eq_of_forall₂ {f : α → γ} {g : β → γ} (h : List.Forall₂ (fun a b => f a = g b) as bs) :
    as.map f = bs.map g := by
  induction h with
  | nil => rfl
  | cons hfirst _ ih => rw [List.map_cons, List.map_cons, hfirst, ih]

theorem exists_of_forall₂ {b : β} (h : List.Forall₂ R as bs) (hb : b ∈ bs) :
    ∃ a, a ∈ as ∧ R a b := by
  induction h with
  | nil => cases hb
  | cons hfirst _ ih =>
    rcases List.mem_cons.mp hb with rfl | hb
    · exact ⟨_, List.mem_cons_self, hfirst⟩
    · obtain ⟨a, ha, hab⟩ := ih hb
      exact ⟨a, List.mem_cons_of_mem _ ha, hab⟩

theorem exists_forall₂ (h : ∀ a ∈ as, ∃ b, R a b) : ∃ bs, List.Forall₂ R as bs := by
  induction as with
  | nil => exact ⟨[], .nil⟩
  | cons a as ih =>
    obtain ⟨⟨b, hb⟩, hrest⟩ := List.forall_mem_cons.mp h
    obtain ⟨bs, hbs⟩ := ih hrest
    exact ⟨b :: bs, .cons hb hbs⟩

/-- Two walks whose steps give the same, but perhaps in another order, give the same in perhaps
another order, or both fail, each at a step that fails alike in the other one. -/
theorem mapM_of_perm_map {as : List α} {bs : List β} {f : α → Except ε γ} {g : β → Except ε γ}
    (h : (as.map f).Perm (bs.map g)) :
    (∃ cs ds, as.mapM f = .ok cs ∧ bs.mapM g = .ok ds ∧ cs.Perm ds) ∨
      ∃ e e', as.mapM f = .error e ∧ bs.mapM g = .error e' ∧
        (∃ a ∈ as, f a = .error e') ∧ ∃ b ∈ bs, g b = .error e := by
  have hstep : ∀ x, (∃ a ∈ as, f a = x) ↔ ∃ b ∈ bs, g b = x := by
    intro x
    have hmem := h.mem_iff (a := x)
    rwa [List.mem_map, List.mem_map] at hmem
  cases hf : as.mapM f with
  | ok cs =>
    have hall : ∀ b ∈ bs, ∃ d, g b = .ok d := by
      intro b hb
      obtain ⟨a, ha, hab⟩ := (hstep (g b)).mpr ⟨b, hb, rfl⟩
      obtain ⟨c, hc⟩ := ok_of_mem_mapM hf ha
      exact ⟨c, hab.symm.trans hc⟩
    obtain ⟨ds, hds⟩ := exists_forall₂ hall
    have hcs := map_eq_of_forall₂ (mapM_ok_iff_forall₂.mp hf)
    rw [hcs, map_eq_of_forall₂ hds] at h
    have hperm := h.filterMap Except.toOption
    rw [List.filterMap_map, List.filterMap_map] at hperm
    refine .inl ⟨cs, ds, rfl, mapM_ok_iff_forall₂.mpr hds, ?_⟩
    simpa [Function.comp_def, Except.toOption] using hperm
  | error e =>
    obtain ⟨a, ha, hfail⟩ := error_of_mapM hf
    obtain ⟨b, hb, hfail'⟩ := (hstep _).mp ⟨a, ha, hfail⟩
    cases hg : bs.mapM g with
    | ok ds =>
      obtain ⟨d, hd⟩ := ok_of_mem_mapM hg hb
      cases hfail'.symm.trans hd
    | error e' =>
      obtain ⟨b', hb', hfails⟩ := error_of_mapM hg
      exact .inr ⟨e, e', rfl, rfl, (hstep _).mpr ⟨b', hb', hfails⟩, b, hb, hfail'⟩

theorem forall₂_modify {i : Nat} {g : β → β} (h : List.Forall₂ R as bs)
    (hg : ∀ a b, as[i]? = some a → R a b → R a (g b)) : List.Forall₂ R as (bs.modify i g) := by
  induction h generalizing i with
  | nil => simp
  | cons hfirst hrest ih =>
    cases i with
    | zero => exact .cons (hg _ _ rfl hfirst) hrest
    | succ i => exact .cons hfirst (ih fun a b ha => hg a b ha)

theorem forall₂_zipIdx (h : List.Forall₂ R as bs) (start : Nat) :
    List.Forall₂ (fun x y => x.2 = y.2 ∧ R x.1 y.1) (as.zipIdx start) (bs.zipIdx start) := by
  induction h generalizing start with
  | nil => exact .nil
  | cons hfirst _ ih => exact .cons ⟨rfl, hfirst⟩ (ih (start + 1))

end Forall₂

theorem pairwise_zipIdx (as : List α) :
    as.zipIdx.Pairwise fun x y => x.2 < y.2 := by
  have h : (as.zipIdx.map Prod.snd).Pairwise (· < ·) := by
    rw [List.zipIdx_map_snd]
    exact List.pairwise_lt_range'
  exact List.pairwise_map.mp h

def largest (f : α → Nat) (items : List α) : Nat :=
  items.foldr (fun a n => max (f a) n) 0

theorem le_of_largest {f : α → Nat} {items : List α} {n : Nat} (h : largest f items ≤ n) :
    ∀ a ∈ items, f a ≤ n := by
  induction items with
  | nil => simp
  | cons a items ih =>
    have hboth : max (f a) (largest f items) ≤ n := h
    exact List.forall_mem_cons.mpr ⟨by omega, ih (by omega)⟩

theorem largest_le {f : α → Nat} {items : List α} {n : Nat}
    (h : ∀ a ∈ items, f a ≤ n) : largest f items ≤ n := by
  induction items with
  | nil => exact Nat.zero_le n
  | cons a items ih =>
    obtain ⟨ha, hitems⟩ := List.forall_mem_cons.mp h
    exact Nat.max_le.mpr ⟨ha, ih hitems⟩

theorem modify_push {α : Type} (f : α → α) (i : Nat) (a : α) (xs : Array α) :
    (xs.push a).modify i f = (xs.modify i f).push (if i = xs.size then f a else a) := by
  apply Array.ext_getElem?
  intro k
  rw [Array.getElem?_modify, Array.getElem?_push, Array.getElem?_push, Array.size_modify,
    Array.getElem?_modify]
  by_cases hk : k = xs.size
  · by_cases hi : i = k
    · simp [hk, hi]
    · have hne : i ≠ xs.size := fun h => hi (h.trans hk.symm)
      simp [hk, hne]
  · simp [hk]

end Retarget
