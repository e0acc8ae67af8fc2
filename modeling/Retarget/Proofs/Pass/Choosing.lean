import Retarget.Pass.Plan
import Retarget.Proofs.Files.Spelling
import Retarget.Proofs.Listing

/-!
What plans are made of. Without changes recorded it is what is chosen below the
root. Otherwise each change is looked at by itself: there is a plan if something
is chosen about all of them, and it holds these choices in the order of the
changes.
-/

set_option autoImplicit false

namespace Retarget

namespace FileChange

def isUpdate : FileChange → Bool
  | added | changed => true
  | removed | unchanged => false

end FileChange

namespace Plan

variable {t : FileTree} {cwd : Place} {root path relative : Path} {changes : Changes} {plan : Plan}
  {change : Path × FileChange} {status : FileChange} {choice : Choice} {fault : Fault}

theorem relative_of_normal (h : path.components.all Component.isNormal = true) :
    Plan.relative root path =
      if path.isEmpty then .error (.configuration (.noFile path root)) else .ok path := by
  have habsolute : path.isAbsolute = false := (Path.anchorSplit_of_normal h).2.1
  rw [Plan.relative, habsolute, if_neg Bool.false_ne_true, pure_bind]
  dsimp only
  rw [h, Bool.not_true, Bool.or_false]
  cases path.isEmpty <;> rfl

theorem ofTreeIn_of_makeIn (hempty : changes.isEmpty = true)
    (h : makeIn t cwd root changes = .ok plan) :
    plan.fullRebuild = true ∧ ofTreeIn t cwd root = .ok plan.choices := by
  rw [makeIn, if_pos hempty] at h
  obtain ⟨choices, hchoices, h⟩ := bind_eq_ok_iff.mp h
  cases h
  exact ⟨rfl, hchoices⟩

theorem makeIn_of_isEmpty (h : changes.isEmpty = false) : makeIn t cwd root changes =
    (changes.toList.mapM (ofChangeIn t cwd root)).map fun choices => ⟨choices, false⟩ := by
  rw [makeIn, h, if_neg Bool.false_ne_true]
  cases changes.toList.mapM (ofChangeIn t cwd root) <;> rfl

theorem exists_makeIn_iff (h : changes.isEmpty = false) :
    (∃ plan, makeIn t cwd root changes = .ok plan) ↔
      ∀ change ∈ changes.toList, ∃ choice, ofChangeIn t cwd root change = .ok choice := by
  rw [makeIn_of_isEmpty h]
  constructor
  · rintro ⟨plan, hplan⟩ change hmem
    cases hchoices : changes.toList.mapM (ofChangeIn t cwd root) with
    | error fault =>
      rw [hchoices] at hplan
      cases hplan
    | ok choices => exact ok_of_mem_mapM hchoices hmem
  · intro hall
    obtain ⟨choices, hchoices⟩ := exists_forall₂ hall
    rw [mapM_ok_iff_forall₂.mpr hchoices]
    exact ⟨_, rfl⟩

theorem choices_of_makeIn (hne : changes.isEmpty = false)
    (h : makeIn t cwd root changes = .ok plan) : plan.fullRebuild = false ∧
      changes.toList.mapM (ofChangeIn t cwd root) = .ok plan.choices := by
  rw [makeIn_of_isEmpty hne] at h
  cases hchoices : changes.toList.mapM (ofChangeIn t cwd root) with
  | error fault =>
    rw [hchoices] at h
    cases h
  | ok choices =>
    rw [hchoices] at h
    cases h
    exact ⟨rfl, rfl⟩

theorem error_of_makeIn (hne : changes.isEmpty = false)
    (h : makeIn t cwd root changes = .error fault) :
    ∃ change ∈ changes.toList, ofChangeIn t cwd root change = .error fault := by
  rw [makeIn_of_isEmpty hne] at h
  cases hchoices : changes.toList.mapM (ofChangeIn t cwd root) with
  | ok choices =>
    rw [hchoices] at h
    cases h
  | error fault' =>
    rw [hchoices] at h
    cases h
    exact error_of_mapM hchoices

end Plan

end Retarget
