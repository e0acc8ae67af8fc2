import Retarget.Proofs.Files.Standing

/-!
A part of a tree that holds only files and the directories that they are in. It
stays so when more files are stored in it, and the same files stored in an empty
directory make the same of that. Directories that are made on a way that never
leads up are empty at its end.
-/

set_option autoImplicit false

namespace Retarget.FileTree

open Retarget.Path (IsName)

variable {t t' t₁ u u' : FileTree} {links left : Nat} {place o b d q names : Place}
  {segments : List String} {base p : Path} {node : Node} {content : Bytes}
  {files : List (Place × Bytes)} {P : Place → Bytes → Prop}

def Bare (t : FileTree) (o : Place) : Prop :=
  ∀ names ≠ [], t.at? (o ++ names) = none

/-- Below a place there are files that satisfy `P` and the directories that they are in. -/
structure Stocked (t : FileTree) (o : Place) (P : Place → Bytes → Prop) : Prop where
  file : ∀ {names : Place} {content : Bytes}, t.at? (o ++ names) = some (.file content) →
    P names content
  directory : ∀ {names : Place}, names ≠ [] → t.at? (o ++ names) = some .directory →
    ∃ more content, t.at? (o ++ names ++ more) = some (.file content)
  linkless : t.Linkless o

section Bare

theorem bare_clear (t : FileTree) (o : Place) : (t.clear o).Bare o := by
  intro names hne
  rw [at?_clear, if_pos]
  exact ⟨List.prefix_append o names, fun heq => hne (List.append_right_eq_self.mp heq)⟩

theorem bare_of_below (h : t.below o = []) : t.Bare o := by
  intro names hne
  cases hat : t.at? (o ++ names) with
  | none => rfl
  | some node =>
    have hmem := mem_below.mpr ⟨hne, hat⟩
    rw [h] at hmem
    cases hmem

theorem Bare.stocked (h : t.Bare o) (ho : t.at? o = some .directory) : t.Stocked o P := by
  have hnode : ∀ {names : Place} {node : Node}, t.at? (o ++ names) = some node →
      names = [] ∧ node = .directory := by
    intro names node hat
    by_cases hnil : names = []
    · rw [hnil, List.append_nil, ho] at hat
      exact ⟨hnil, (Option.some.inj hat).symm⟩
    · cases (h names hnil).symm.trans hat
  constructor
  · intro names content hat
    cases (hnode hat).2
  · intro names hne hat
    exact absurd (hnode hat).1 hne
  · intro names target hat
    cases (hnode hat).2

private theorem Makes.bare (h : Makes t links place segments t' q left) (hdown : ".." ∉ segments)
    (hbare : t.Bare place) : t'.Bare q := by
  induction h with
  | here => exact hbare
  | void _ _ ih => exact ih (fun hmem => hdown (List.mem_cons_of_mem _ hmem)) hbare
  | parent => exact absurd List.mem_cons_self hdown
  | @directory _ _ _ _ _ _ s _ _ _ hat => cases (hbare [s] (List.cons_ne_nil s [])).symm.trans hat
  | @link _ _ _ _ _ _ _ _ s _ _ _ _ hat =>
    cases (hbare [s] (List.cons_ne_nil s [])).symm.trans hat
  | @missing t _ _ _ place _ s _ _ _ _ _ ih =>
    apply ih fun hmem => hdown (List.mem_cons_of_mem s hmem)
    intro names hne
    rw [at?_set (append_singleton_ne_nil place s), if_neg, List.append_assoc]
    · exact hbare _ (List.cons_ne_nil s names)
    · exact fun heq => hne (List.append_right_eq_self.mp heq)

theorem Makes.opens_or_bare (h : Makes t links place segments t' q left) (ht : t.Rooted)
    (hdown : ".." ∉ segments) : t.Opens links place segments q left ∨ t'.Bare q := by
  induction h with
  | here => exact .inl .here
  | @void _ _ _ _ _ _ s _ hvoid _ ih =>
    apply (ih ht fun hmem => hdown (List.mem_cons_of_mem s hmem)).imp_left
    exact .void hvoid
  | parent => exact absurd List.mem_cons_self hdown
  | @directory _ _ _ _ _ _ s _ hname hshort hat _ ih =>
    apply (ih ht fun hmem => hdown (List.mem_cons_of_mem s hmem)).imp_left
    exact .directory hname hshort hat
  | @missing t _ _ _ place _ s _ _ _ hat hrest _ =>
    right
    apply hrest.bare fun hmem => hdown (List.mem_cons_of_mem s hmem)
    intro names hne
    rw [at?_set (append_singleton_ne_nil place s), if_neg, ht.none_below hat]
    exact fun heq => hne (List.append_right_eq_self.mp heq)
  | @link _ _ _ _ _ _ _ _ s _ _ hname hshort hat htarget _ ih =>
    apply (ih ht fun hmem => hdown (List.mem_cons_of_mem s hmem)).imp_left
    exact .link hname hshort hat htarget

end Bare

section Stocked

theorem Stocked.stores (h : t.Stocked o P) (hstores : Stores t o files t')
    (hfiles : ∀ file ∈ files, P file.1 file.2) : t'.Stocked o P := by
  have hother : ∀ {names : Place}, (¬ ∃ file ∈ files, names <+: file.1) →
      t'.at? (o ++ names) = t.at? (o ++ names) := by
    intro names hoff
    apply hstores.other
    intro file hfile front hfront heq
    exact hoff ⟨file, hfile, List.append_cancel_left heq ▸ hfront⟩
  constructor
  · intro names content hat
    by_cases hway : ∃ file ∈ files, names <+: file.1
    · obtain ⟨file, hfile, hfront⟩ := hway
      by_cases hend : names = file.1
      · rw [hend, hstores.file file hfile] at hat
        cases hat
        exact hend ▸ hfiles file hfile
      · cases (hstores.directory file hfile names hfront hend).symm.trans hat
    · rw [hother hway] at hat
      exact h.file hat
  · intro names hne hat
    by_cases hway : ∃ file ∈ files, names <+: file.1
    · obtain ⟨file, hfile, more, hmore⟩ := hway
      refine ⟨more, file.2, ?_⟩
      rw [List.append_assoc, hmore]
      exact hstores.file file hfile
    · rw [hother hway] at hat
      obtain ⟨more, content, hfile⟩ := h.directory hne hat
      refine ⟨more, content, ?_⟩
      rw [List.append_assoc] at hfile ⊢
      rw [hother, hfile]
      rintro ⟨file, hmem, hfront⟩
      exact hway ⟨file, hmem, (List.prefix_append names more).trans hfront⟩
  · intro names target hat
    exact h.linkless names target (hstores.not_link hat)

theorem Stocked.copied (h : t.Stocked o P) (ht : t.Rooted) (ho : t.at? o = some .directory)
    (hd : u.at? d = some .directory) (hbare : u.Bare d) (hstores : Stores u d files u')
    (hfiles : ∀ file, file ∈ files ↔ t.at? (o ++ file.1) = some (.file file.2)) (names : Place) :
    u'.at? (d ++ names) = t.at? (o ++ names) := by
  by_cases hway : ∃ file ∈ files, names <+: file.1
  · obtain ⟨file, hfile, more, hmore⟩ := hway
    have hat := (hfiles file).mp hfile
    by_cases hend : names = file.1
    · rw [hend, hstores.file file hfile, hat]
    · have hne : more ≠ [] := by
        rintro rfl
        exact hend (by rw [← hmore, List.append_nil])
      rw [hstores.directory file hfile names ⟨more, hmore⟩ hend]
      rw [← hmore, ← List.append_assoc] at hat
      exact (ht.directory_above hat hne).symm
  · have hother : u'.at? (d ++ names) = u.at? (d ++ names) := by
      apply hstores.other
      intro file hfile front hfront heq
      exact hway ⟨file, hfile, List.append_cancel_left heq ▸ hfront⟩
    rw [hother]
    by_cases hnil : names = []
    · rw [hnil, List.append_nil, List.append_nil, hd, ho]
    · rw [hbare names hnil]
      cases hat : t.at? (o ++ names) with
      | none => rfl
      | some node =>
        cases node with
        | file content => exact absurd ⟨(names, content), (hfiles _).mpr hat, List.prefix_rfl⟩ hway
        | link target => exact absurd hat (h.linkless names target)
        | directory =>
          obtain ⟨more, content, hfile⟩ := h.directory hnil hat
          rw [List.append_assoc] at hfile
          exact absurd ⟨(names ++ more, content), (hfiles _).mpr hfile, more, rfl⟩ hway

private theorem Rooted.file_unique (ht : t.Rooted)
    (hfiles : ∀ file ∈ files, t.at? (o ++ file.1) = some (.file file.2)) :
    ∀ file ∈ files, ∀ other ∈ files, file.1 <+: other.1 → other = file := by
  rintro ⟨names, content⟩ hfile ⟨names', content'⟩ hother ⟨more, rfl⟩
  have hat := hfiles _ hfile
  have hat' := hfiles _ hother
  dsimp only at hat hat' ⊢
  by_cases hnil : more = []
  · subst hnil
    rw [List.append_nil] at hat' ⊢
    cases hat.symm.trans hat'
    rfl
  · rw [← List.append_assoc] at hat'
    cases hat.symm.trans (ht.directory_above hat' hnil)

private theorem exists_stores (ht : t.Rooted) (hlinkless : t.Linkless b)
    (hb : t.at? b = some .directory)
    (hnames : ∀ file ∈ files, ∃ dirs name, file.1 = dirs ++ [name] ∧
      (∀ s ∈ dirs, IsName s) ∧ IsName name ∧ ∀ s ∈ dirs, ¬ nameLimit < s.utf8ByteSize)
    (hapart : ∀ file ∈ files, ∀ other ∈ files, file.1 <+: other.1 → other = file)
    (hfree : ∀ file ∈ files, ∀ front, front <+: file.1 → front ≠ file.1 →
      t.at? (b ++ front) = none ∨ t.at? (b ++ front) = some .directory)
    (hnone : ∀ file ∈ files, t.at? (b ++ file.1) ≠ some .directory) :
    ∃ t', Stores t b files t' := by
  induction files generalizing t with
  | nil => exact ⟨t, (Stores.nil_iff ht).mpr rfl⟩
  | cons file files ih =>
    obtain ⟨⟨dirs, name, hfile, hdirs, hname, hshort⟩, hnames'⟩ := List.forall_mem_cons.mp hnames
    have hother : ∀ other ∈ files, file.1 <+: other.1 ∨ other.1 <+: file.1 → other = file := by
      intro other hmem hway
      have hmem' := List.mem_cons_of_mem file hmem
      rcases hway with hway | hway
      · exact hapart file List.mem_cons_self other hmem' hway
      · exact (hapart other hmem' file List.mem_cons_self hway).symm
    obtain ⟨t₁, hfirst⟩ : ∃ t₁, Stores t b [file] t₁ := by
      obtain ⟨place, content⟩ := file
      dsimp only at hfile
      subst hfile
      obtain ⟨t₁, hmakes, hnone'⟩ := exists_set hlinkless hb hdirs hshort
        (hfree _ List.mem_cons_self) (hnone _ List.mem_cons_self) 0
      exact ⟨_, stores_set ht hlinkless hb hdirs hname hmakes hnone'⟩
    have hlinkless₁ : t₁.Linkless b :=
      fun names target hat => hlinkless names target (hfirst.not_link hat)
    obtain ⟨t', hrest⟩ := ih hfirst.rooted hlinkless₁ ((hfirst.carries hlinkless).directory hb)
      hnames'
      (fun f hf g hg => hapart f (List.mem_cons_of_mem file hf) g (List.mem_cons_of_mem file hg))
      (fun f hf => hfirst.free_after hother hf (hfree f (List.mem_cons_of_mem file hf)))
      (fun f hf => hfirst.noDirectory_after hother hf (hnone f (List.mem_cons_of_mem file hf)))
    exact ⟨t', hfirst.cons hother hrest⟩

/-- The files of one part of a tree can be stored in an empty directory, if their names are
short. -/
theorem exists_copy (ht : t.Rooted) (hu : u.Rooted) (hd : u.at? d = some .directory)
    (hbare : u.Bare d) (hfiles : ∀ file ∈ files, t.at? (o ++ file.1) = some (.file file.2))
    (hne : ∀ file ∈ files, file.1 ≠ [])
    (hshort : ∀ file ∈ files, ∀ s ∈ file.1, ¬ nameLimit < s.utf8ByteSize) :
    ∃ u', Stores u d files u' := by
  have hlinkless : u.Linkless d := (hbare.stocked (P := fun _ _ => True) hd).linkless
  apply exists_stores hu hlinkless hd _ (ht.file_unique hfiles)
  · intro file hfile front _ _
    by_cases hnil : front = []
    · rw [hnil, List.append_nil]
      exact .inr hd
    · exact .inl (hbare front hnil)
  · intro file hfile
    rw [hbare _ (hne file hfile)]
    exact (Option.some_ne_none _).symm
  · intro file hfile
    have hwhole := List.dropLast_concat_getLast (hne file hfile)
    have hname := ht.isName_of_mem (hfiles file hfile)
    exact ⟨_, _, hwhole.symm, fun s hs => hname s (List.mem_of_mem_dropLast hs),
      hname _ (List.getLast_mem _), fun s hs => hshort file hfile s (List.mem_of_mem_dropLast hs)⟩

end Stocked

end Retarget.FileTree
