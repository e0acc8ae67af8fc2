import Retarget.ClassPath
import Retarget.Proofs.Files.Links

/-!
Writing files in trees with links. A file that is written is found under its
path afterwards, and is the only one that changed; making the directories it
needs puts directories where nothing was. Neither takes a link or a directory
away.
-/

set_option autoImplicit false

namespace Retarget.FileTree

open Retarget.Path (IsName)

variable {t t' t₁ : FileTree} {p : Path} {place q : Place} {segments : List String} {spot : Spot}
  {links : Nat} {content bytes : Bytes}

def Adds (t t' : FileTree) : Prop :=
  ∀ q : Place, t'.at? q = t.at? q ∨ t.at? q = none ∧ t'.at? q = some .directory

namespace Adds

theorem refl (t : FileTree) : t.Adds t := fun _ => .inl rfl

theorem trans (h : t.Adds t₁) (h' : t₁.Adds t') : t.Adds t' := by
  intro q
  rcases h q with heq | ⟨hnone, hnew⟩
  · rw [← heq]
    exact h' q
  · rcases h' q with heq' | ⟨hnone', -⟩
    · exact .inr ⟨hnone, heq'.trans hnew⟩
    · cases hnew.symm.trans hnone'

theorem at?_of_some (h : t.Adds t') {node : Node} (hq : t.at? q = some node) :
    t'.at? q = some node := by
  rcases h q with heq | ⟨hnone, -⟩
  · exact heq.trans hq
  · cases hq.symm.trans hnone

private theorem at?_of_ne (h : t.Adds t') {node : Node} (hq : t'.at? q = some node)
    (hne : node ≠ .directory) : t.at? q = some node := by
  rcases h q with heq | ⟨-, hnew⟩
  · exact heq.symm.trans hq
  · cases hnew.symm.trans hq
    exact absurd rfl hne

theorem carries (h : t.Adds t') : t.Carries t' :=
  ⟨fun hq => h.at?_of_some hq, fun hq => h.at?_of_some hq⟩

theorem link_iff (h : t.Adds t') {target : Path} :
    t'.at? q = some (.link target) ↔ t.at? q = some (.link target) :=
  ⟨fun hq => h.at?_of_ne hq Node.noConfusion, fun hq => h.at?_of_some hq⟩

theorem fileAt?_eq (h : t.Adds t') (q : Place) : t'.fileAt? q = t.fileAt? q := by
  rcases h q with heq | ⟨hnone, hnew⟩
  · exact fileAt?_congr heq
  · rw [fileAt?, fileAt?, hnone, hnew]

theorem set {name : String} (h : t.at? (place ++ [name]) = none) :
    t.Adds (t.set (place ++ [name]) .directory) := by
  intro q
  rw [at?_set (append_singleton_ne_nil place name)]
  split_ifs with hq
  · exact .inr ⟨hq ▸ h, rfl⟩
  · exact .inl rfl

private theorem makeAlong (segments : List String) (place : Place) (links : Nat) (t : FileTree) :
    t.Adds (FileTree.makeAlong segments place links t).1 := by
  fun_induction FileTree.makeAlong segments place links t with
  | case1 => exact .refl _
  | case2 _ _ _ _ _ _ ih | case3 _ _ _ _ _ ih | case7 _ _ _ _ _ _ _ _ _ ih => exact ih
  | case6 _ _ _ _ _ _ _ _ hnone _ ih => exact (Adds.set hnone).trans ih
  | case10 _ _ _ _ _ _ _ _ _ _ _ _ _ ih => exact ih
  | case4 | case5 | case8 | case9 | case11 => exact .refl _

theorem makeDirectories (p : Path) (t : FileTree) : t.Adds (t.makeDirectories p).1 := by
  rw [FileTree.makeDirectories, makeDirectoriesIn]
  split_ifs
  · exact .refl t
  · split
    · exact .refl t
    · exact .refl t
    · exact .makeAlong _ _ _ _
    · exact .makeAlong _ _ _ _
    · exact .refl t

end Adds

theorem carries_set_file (hq : q ≠ []) (hdirectory : t.at? q ≠ some .directory)
    (hlink : ∀ target, t.at? q ≠ some (.link target)) (content : Bytes) :
    t.Carries (t.set q (.file content)) where
  directory {r} hr := by
    rw [at?_set hq, if_neg, hr]
    rintro rfl
    exact hdirectory hr
  link {r target} hr := by
    rw [at?_set hq, if_neg, hr]
    rintro rfl
    exact hlink target hr

private theorem resolveFrom_set_end {front : List String} {name : String} {left : Nat}
    (hfront : t.Opens links place front q left) (hname : IsName name)
    (hshort : ¬ nameLimit < name.utf8ByteSize) (hdirectory : t.at? (q ++ [name]) ≠ some .directory)
    (hlink : ∀ target, t.at? (q ++ [name]) ≠ some (.link target)) (content : Bytes) :
    (t.set (q ++ [name]) (.file content)).resolveFrom true links place (front ++ [name]) =
      .ok (.found (q ++ [name]) (.file content) left) := by
  have hne := append_singleton_ne_nil q name
  have hcarries := carries_set_file hne hdirectory hlink content
  have hnew : (t.set (q ++ [name]) (.file content)).at? (q ++ [name]) = some (.file content) := by
    rw [at?_set hne, if_pos rfl]
  rw [(hfront.mono hcarries).resolveFrom_append, resolveFrom_file hname hshort hnew, if_pos rfl]

private theorem resolveFrom_set (h : t.resolveFrom true links place segments = .ok spot)
    (hslash : ∀ directory name, spot ≠ .vacant directory name true)
    (hdirectory : ∀ q left, spot ≠ .found q .directory left) (content : Bytes) :
    spot.place ≠ [] ∧ t.at? spot.place ≠ some .directory ∧
      (∀ target, t.at? spot.place ≠ some (.link target)) ∧
      ∃ left, (t.set spot.place (.file content)).resolveFrom true links place segments =
        .ok (.found spot.place (.file content) left) := by
  induction links using Nat.strongRecOn generalizing place segments with
  | ind links ih =>
    rcases opens_or_stops t links place segments with ⟨q, left, hopen⟩ |
      ⟨front, s, rest, q, left, rfl, hfront, hstop⟩
    · cases hopen.resolveFrom.symm.trans h
      exact absurd rfl (hdirectory q left)
    · rw [hfront.resolveFrom_append] at h
      cases hstop with
      | long hname hlong => cases (resolveFrom_long hname hlong _ _ _).symm.trans h
      | missing hname hshort hat =>
        rw [resolveFrom_missing hname hshort hat] at h
        split_ifs at h
        cases h
        have hrest : rest = [] := by
          by_contra hrest
          have hmore : (!rest.isEmpty) = true := by simp [hrest]
          exact hslash q s (by rw [hmore])
        subst hrest
        have hnone : t.at? (q ++ [s]) ≠ some .directory := by simp [hat]
        have hlinks : ∀ target, t.at? (q ++ [s]) ≠ some (.link target) := by simp [hat]
        exact ⟨append_singleton_ne_nil q s, hnone, hlinks, left,
          resolveFrom_set_end hfront hname hshort hnone hlinks content⟩
      | file hname hshort hat =>
        rw [resolveFrom_file hname hshort hat] at h
        split_ifs at h with hrest
        cases h
        subst hrest
        have hnone : t.at? (q ++ [s]) ≠ some .directory := by simp [hat]
        have hlinks : ∀ target, t.at? (q ++ [s]) ≠ some (.link target) := by simp [hat]
        exact ⟨append_singleton_ne_nil q s, hnone, hlinks, left,
          resolveFrom_set_end hfront hname hshort hnone hlinks content⟩
      | link hname hshort hat hclosed =>
        cases left with
        | zero =>
          rw [resolveFrom_link_zero hname hshort hat (Bool.and_false _)] at h
          cases h
        | succ left =>
          rw [resolveFrom_link_succ hname hshort hat (Bool.and_false _)] at h
          obtain ⟨hne, hnone, hlinks, less, hfound⟩ := ih left hfront.left_le h
          have hcarries := carries_set_file hne hnone hlinks content
          refine ⟨hne, hnone, hlinks, less, ?_⟩
          rw [(hfront.mono hcarries).resolveFrom_append,
            resolveFrom_link_succ hname hshort (hcarries.link hat) (Bool.and_false _)]
          exact hfound

theorem write_found (h : t.write p content = .ok t') : ∃ q, t.Reaches [] p.segments q ∧ q ≠ [] ∧
    t.at? q ≠ some .directory ∧ (∀ target, t.at? q ≠ some (.link target)) ∧
    t' = t.set q (.file content) ∧ t'.lookup true p = .ok (q, .file content) := by
  rw [write] at h
  cases hspot : t.resolve true p with
  | error trouble =>
    rw [hspot] at h
    cases h
  | ok spot =>
    rw [hspot] at h
    have hresolve := hspot
    rw [resolve, resolveIn, Path.start_root] at hresolve
    split_ifs at hresolve with hsound hempty hlong
    have hnot : (∀ directory name, spot ≠ .vacant directory name true) ∧
        (∀ q left, spot ≠ .found q .directory left) ∧ t' = t.set spot.place (.file content) := by
      cases spot with
      | found q node left =>
        cases node with
        | directory => cases h
        | file old | link target =>
          cases h
          exact ⟨fun _ _ => Spot.noConfusion, by simp, rfl⟩
      | vacant directory name slash =>
        cases slash with
        | true => cases h
        | false =>
          cases h
          exact ⟨by simp, fun _ _ => Spot.noConfusion, rfl⟩
    obtain ⟨hslash, hdirectory, rfl⟩ := hnot
    obtain ⟨hne, hnone, hlinks, left, hfound⟩ := resolveFrom_set hresolve hslash hdirectory content
    refine ⟨spot.place, reaches_of_resolveFrom hresolve, hne, hnone, hlinks, rfl, ?_⟩
    rw [lookup, lookupIn, resolveIn, Path.start_root, if_neg hsound, if_neg hempty, if_neg hlong,
      hfound]

theorem write_of_store {u : Unit} (h : ClassFile.store bytes p t = .ok u t') :
    ∃ t₁, t.Adds t₁ ∧ t₁.write p bytes = .ok t' := by
  have hfinish : ∀ {t₁ : FileTree}, ClassFile.store.finish bytes p t₁ = .ok u t' →
      t₁.write p bytes = .ok t' := by
    intro t₁ hfinish
    rw [ClassFile.store.finish] at hfinish
    cases hwrite : t₁.write p bytes with
    | error trouble =>
      rw [hwrite] at hfinish
      cases hfinish
    | ok t₂ =>
      rw [hwrite] at hfinish
      cases hfinish
      rfl
  rw [ClassFile.store] at h
  cases hparent : p.parent? with
  | none =>
    rw [hparent] at h
    exact ⟨t, .refl t, hfinish h⟩
  | some parent =>
    rw [hparent] at h
    have hadds := Adds.makeDirectories parent t
    simp only at h
    split at h
    · next t₁ hmade =>
      rw [hmade] at hadds
      exact ⟨t₁, hadds, hfinish h⟩
    · cases h

/-- What is stored is found under its path. Every other file and link is as it was, and only
directories were added. -/
theorem store_found {u : Unit} (h : ClassFile.store bytes p t = .ok u t') :
    ∃ q, t'.lookup true p = .ok (q, .file bytes) ∧
      ∀ r ≠ q, t'.at? r = t.at? r ∨ t.at? r = none ∧ t'.at? r = some .directory := by
  obtain ⟨t₁, hadds, hwrite⟩ := write_of_store h
  obtain ⟨q, -, hq, -, -, rfl, hfound⟩ := write_found hwrite
  refine ⟨q, hfound, fun r hr => ?_⟩
  rw [at?_set hq, if_neg hr]
  exact hadds r

end Retarget.FileTree
