import Mathlib.Data.Finset.Prod
import Retarget.Proofs.Accessors

/-!
The new names given for libraries, exactly. The name of an accessor tells its
kind and its package up to dots and slashes, whatever the package is spelled
like. So libraries do not get in each other's way, and no accessor of the
target is taken for one of a library.
-/

set_option autoImplicit false

namespace Retarget

namespace Renaming

open PackageName

variable {t : Renaming} {libraries : List String} {target package name new : String}

private theorem get?_foldl_insert {pairs : List (String × String)}
    (h : ∀ value, (name, value) ∈ pairs → value = new) (t : Renaming) :
    (pairs.foldl (fun t pair => (t.insert pair.1 pair.2).2) t).get? name =
      if (name, new) ∈ pairs ∧ name ≠ new then some new else t.get? name := by
  induction pairs generalizing t with
  | nil => simp
  | cons pair pairs ih =>
    obtain ⟨old, value⟩ := pair
    rw [List.foldl_cons, ih fun value hmem => h value (List.mem_cons_of_mem _ hmem), get?_insert]
    by_cases hold : old = name
    · subst hold
      have hvalue : value = new := h value List.mem_cons_self
      subst hvalue
      by_cases hsame : old = value <;> simp [hsame]
    · have hne : (name, new) ≠ (old, value) := fun heq => hold (Prod.mk.inj heq).1.symm
      simp [hold, hne]

private theorem mem_accessorPairs :
    (name, new) ∈ accessorPairs target package ↔
      ∃ kind : ResourceKind, name = kind.accessor package ∧ new = kind.accessor target := by
  simp [accessorPairs, ResourceKind.mem_all, eq_comm]

private theorem get?_ofPackages :
    (ofPackages libraries target).1.get? name = some new ↔
      ∃ library ∈ libraries, slashed library ≠ slashed target ∧
        ∃ kind : ResourceKind, name = kind.accessor library ∧ new = kind.accessor target := by
  have hpairs : ∀ name new, (name, new) ∈ (libraries.filter (· ≠ target)).flatMap
      (accessorPairs target) ↔ ∃ library ∈ libraries, library ≠ target ∧
        ∃ kind : ResourceKind, name = kind.accessor library ∧ new = kind.accessor target := by
    simp [mem_accessorPairs, and_assoc]
  have hget : ∀ (library : String) (kind : ResourceKind),
      (ofPackages libraries target).1.get? (kind.accessor library) =
        if (kind.accessor library, kind.accessor target) ∈
            (libraries.filter (· ≠ target)).flatMap (accessorPairs target) ∧
          kind.accessor library ≠ kind.accessor target then some (kind.accessor target)
        else none := by
    intro library kind
    have hempty : empty.get? (kind.accessor library) = none := by simp [get?, empty]
    have hsame : ∀ value, (kind.accessor library, value) ∈
        (libraries.filter (· ≠ target)).flatMap (accessorPairs target) →
        value = kind.accessor target := by
      intro value hvalue
      obtain ⟨other, -, -, kind', hname, rfl⟩ := (hpairs _ _).mp hvalue
      rw [(ResourceKind.accessor_eq_iff.mp hname).2]
    exact (get?_foldl_insert hsame empty).trans (by rw [hempty])
  constructor
  · intro h
    obtain ⟨library, hlibrary, -, kind, rfl, rfl⟩ := (hpairs _ _).mp (of_ofList h)
    rw [hget] at h
    split_ifs at h with hkey
    exact ⟨library, hlibrary, fun heq => hkey.2 (ResourceKind.accessor_eq_iff.mpr ⟨heq, rfl⟩),
      kind, rfl, rfl⟩
  · rintro ⟨library, hlibrary, hne, kind, rfl, rfl⟩
    rw [hget, if_pos]
    refine ⟨(hpairs _ _).mpr ⟨library, hlibrary, ?_, kind, rfl, rfl⟩, ?_⟩
    · rintro rfl
      exact hne rfl
    · exact fun heq => hne (ResourceKind.accessor_eq_iff.mp heq).1

theorem contains_iff : t.contains name = true ↔ ∃ new, t.get? name = some new := by
  rw [contains, get?, Std.ExtTreeMap.contains_eq_isSome_getElem?, Option.isSome_iff_exists]

private theorem size_eq_card (t : Renaming) : t.size = t.entries.keys.toFinset.card := by
  rw [List.toFinset_card_of_nodup t.entries.nodup_keys, Std.ExtTreeMap.length_keys, size]

private theorem size_ofPackages (libraries : List String) (target : String) :
    (ofPackages libraries target).1.size =
      23 * ((libraries.map slashed).toFinset.erase (slashed target)).card := by
  let packages := (libraries.map slashed).toFinset.erase (slashed target)
  have hkeys : (ofPackages libraries target).1.entries.keys.toFinset =
      (packages ×ˢ ResourceKind.all.toFinset).image fun x => x.2.accessor x.1 := by
    ext name
    rw [List.mem_toFinset, Std.ExtTreeMap.mem_keys, ← Std.ExtTreeMap.contains_iff_mem]
    refine contains_iff.trans ?_
    simp only [get?_ofPackages, Finset.mem_image, Finset.mem_product, packages, Finset.mem_erase,
      List.mem_toFinset, List.mem_map, Prod.exists, ResourceKind.mem_all, and_true]
    constructor
    · rintro ⟨new, library, hlibrary, hne, kind, rfl, -⟩
      exact ⟨slashed library, kind, ⟨hne, library, hlibrary, rfl⟩,
        ResourceKind.accessor_eq_iff.mpr ⟨slashed_slashed library, rfl⟩⟩
    · rintro ⟨package, kind, ⟨hne, library, hlibrary, rfl⟩, rfl⟩
      exact ⟨_, library, hlibrary, hne, kind,
        ResourceKind.accessor_eq_iff.mpr ⟨slashed_slashed library, rfl⟩, rfl⟩
  have hslashed : ∀ package ∈ packages, slashed package = package := by
    intro package hpackage
    have hlisted := List.mem_toFinset.mp (Finset.mem_of_mem_erase hpackage)
    obtain ⟨library, -, rfl⟩ := List.mem_map.mp hlisted
    exact slashed_slashed library
  have hinjective : Set.InjOn (fun x : String × ResourceKind => x.2.accessor x.1)
      (packages ×ˢ ResourceKind.all.toFinset : Finset (String × ResourceKind)) := by
    rintro ⟨package, kind⟩ hpackage ⟨other, kind'⟩ hother heq
    obtain ⟨hsame, rfl⟩ := ResourceKind.accessor_eq_iff.mp heq
    have hpackage := hslashed package (Finset.mem_product.mp hpackage).1
    have hother := hslashed other (Finset.mem_product.mp hother).1
    rw [hpackage, hother] at hsame
    rw [hsame]
  rw [size_eq_card, hkeys, Finset.card_image_of_injOn hinjective, Finset.card_product, Nat.mul_comm]
  rfl

/-- The new names given for libraries are exact: the accessors of the listed packages, up to dots
and slashes other than the target, get the names of the target's accessors, and no other class gets
a new name. None of these names has a new name itself, and a package listed twice counts once. -/
theorem ofPackages_exact (libraries : List String) (target : String) :
    (∀ name, (ofPackages libraries target).1.contains name = true ↔
      ∃ library ∈ libraries, slashed library ≠ slashed target ∧
        ∃ kind : ResourceKind, name = kind.accessor library) ∧
    (∀ library ∈ libraries, slashed library ≠ slashed target → ∀ kind : ResourceKind,
      (ofPackages libraries target).1.get? (kind.accessor library) =
        some (kind.accessor target)) ∧
    (∀ name new, (ofPackages libraries target).1.get? name = some new →
      (ofPackages libraries target).1.contains new = false) ∧
    (ofPackages libraries target).1.size =
      23 * ((libraries.map slashed).toFinset.erase (slashed target)).card := by
  refine ⟨fun name => ?_, ?_, ?_, size_ofPackages libraries target⟩
  · rw [contains_iff]
    constructor
    · rintro ⟨new, h⟩
      obtain ⟨library, hlibrary, hne, kind, rfl, -⟩ := get?_ofPackages.mp h
      exact ⟨library, hlibrary, hne, kind, rfl⟩
    · rintro ⟨library, hlibrary, hne, kind, rfl⟩
      exact ⟨_, get?_ofPackages.mpr ⟨library, hlibrary, hne, kind, rfl, rfl⟩⟩
  · intro library hlibrary hne kind
    exact get?_ofPackages.mpr ⟨library, hlibrary, hne, kind, rfl, rfl⟩
  · intro name new h
    obtain ⟨-, -, -, kind, -, rfl⟩ := get?_ofPackages.mp h
    rw [← Bool.not_eq_true, contains_iff]
    rintro ⟨other, hother⟩
    obtain ⟨library, -, hne, kind', hname, -⟩ := get?_ofPackages.mp hother
    exact hne (ResourceKind.accessor_eq_iff.mp hname).1.symm

/-- Two spellings of a package, the default package and a spelling of the target: there are two
packages to rename, and the target keeps its accessors. -/
theorem ofPackages_spellings :
    (ofPackages ["com.lib.a", "com/lib/a", "", "com/app"] "com.app").1.size = 46 ∧
    (ofPackages ["com.lib.a", "com/lib/a", "", "com/app"] "com.app").1.get? "com/lib/a/R$id" =
      some "com/app/R$id" ∧
    (ofPackages ["com.lib.a", "com/lib/a", "", "com/app"] "com.app").1.contains "R$raw" = true ∧
    (ofPackages ["com.lib.a", "com/lib/a", "", "com/app"] "com.app").1.contains "com/app/R$id" =
      false := by
  obtain ⟨hcontains, hget, hvalues, hsize⟩ :=
    ofPackages_exact ["com.lib.a", "com/lib/a", "", "com/app"] "com.app"
  have hfirst := hget "com.lib.a" (by decide) (by decide +kernel) .id
  refine ⟨hsize.trans (by decide +kernel), hfirst, ?_, hvalues _ _ hfirst⟩
  exact (hcontains "R$raw").mpr ⟨"", by decide, by decide +kernel, .raw, rfl⟩

end Renaming

end Retarget
