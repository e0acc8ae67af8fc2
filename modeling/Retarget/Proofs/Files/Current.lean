import Retarget.Pass.Run
import Retarget.Proofs.Files.Storing

/-!
Paths that are used in a current directory. A relative path starts there, and
its absolute spelling, by which it is compared with others, has the names of
that directory in front. A directory that a path leads to, or that can be made
under it, is the one its absolute spelling leads to or makes.
-/

set_option autoImplicit false

namespace Retarget

open Retarget.Path (IsName)

namespace Path

def ways (cwd : Place) (p : Path) : List String :=
  (if p.isAbsolute then [] else cwd) ++ p.segments.filter fun s => !isVoid s

/-- The absolute spelling of a path that is used in a directory. A slash at its end is kept. -/
def absolute (cwd : Place) (p : Path) : Path :=
  ⟨"" :: (p.ways cwd ++ if p.endsWithSlash then [""] else [])⟩

end Path

namespace FileTree

variable {t t' : FileTree} {cwd place q names : Place} {p : Path} {links left : Nat}
  {node : Node}

/-- A directory that can be the current one: there is a path that spells its names. -/
structure Home (t : FileTree) (cwd : Place) : Prop where
  directory : t.at? cwd = some .directory
  short : ∀ name ∈ cwd, ¬ nameLimit < name.utf8ByteSize
  sound : isSound ⟨cwd⟩ = true

private theorem Rooted.opens_names (ht : t.Rooted) (h : t.at? (place ++ names) = some .directory)
    (hshort : ∀ name ∈ names, ¬ nameLimit < name.utf8ByteSize) (links : Nat) :
    t.Opens links place names (place ++ names) links := by
  induction names generalizing place with
  | nil =>
    rw [List.append_nil]
    exact .here
  | cons name names ih =>
    have hname : IsName name := ht.isName_of_mem h name List.mem_cons_self
    obtain ⟨hfirst, hrest⟩ := List.forall_mem_cons.mp hshort
    rw [← List.singleton_append, ← List.append_assoc] at h ⊢
    have hat : t.at? (place ++ [name]) = some .directory := by
      by_cases hnil : names = []
      · rwa [hnil, List.append_nil] at h
      · exact ht.directory_above h hnil
    exact .directory hname hfirst hat (ih h hrest)

theorem Rooted.opens_home (ht : t.Rooted) (hcwd : t.Home cwd) (links : Nat) :
    t.Opens links [] cwd cwd links := by
  have hat : t.at? ([] ++ cwd) = some .directory := hcwd.directory
  exact ht.opens_names hat hcwd.short links

theorem Makes.ways (ht : t.Rooted) (hcwd : t.Home cwd)
    (h : Makes t links (p.start cwd) p.segments t' q left) :
    Makes t links [] (p.ways cwd) t' q left := by
  rw [Makes.iff_filter] at h
  rw [Path.ways]
  rw [Path.start] at h
  split_ifs at h ⊢
  · exact h
  · exact (Makes.of_opens (ht.opens_home hcwd links)).append h

theorem makes_of_lookupIn (h : t.lookupIn cwd true p = .ok (q, .directory)) :
    Sayable p ∧ p.isEmpty = false ∧
      ∃ left, Makes t linkLimit (p.start cwd) p.segments t q left := by
  rw [lookupIn, resolveIn] at h
  split_ifs at h with hsound hempty hlong
  · refine ⟨⟨?_, Bool.eq_false_iff.mpr hlong⟩, Bool.eq_false_iff.mpr hempty, ?_⟩
    · rwa [Bool.not_eq_true, Bool.not_eq_false'] at hsound
    · cases hspot : t.resolveFrom true linkLimit (p.start cwd) p.segments with
      | error trouble =>
        rw [hspot] at h
        cases h
      | ok spot =>
        rw [hspot] at h
        cases spot with
        | found place node left =>
          cases h
          exact ⟨left, .of_opens (opens_of_resolveFrom hspot)⟩
        | vacant => cases h

theorem Makes.lookupIn (hsay : Sayable p) (hempty : p.isEmpty = false)
    (h : Makes t linkLimit (p.start cwd) p.segments t' q left) :
    t'.lookupIn cwd true p = .ok (q, .directory) := by
  rw [FileTree.lookupIn, resolveIn, hsay.1, hsay.2, hempty, h.opens.resolveFrom]
  rfl

end FileTree

end Retarget
