import Retarget.Proofs.Files.Standing
import Retarget.Proofs.Pass.Outcome

/-!
Two roots for a pass. The paths to them may lead over links and through
directories that are not there yet, but below the places they reach there are no
links, and neither place lies inside the other. Emptying the output and deleting
in it leave that so: they take nothing away but what is below the output.
-/

set_option autoImplicit false

namespace Retarget.Pass

open FileTree

variable {t t' : FileTree} {input output : Path} {q b o names : Place} {removed : List Path}
  {deleted : List Path} {changes : Changes} {plan : Plan}

/-- A tree with two roots, each without links below it and neither inside the other. -/
structure Settled (t : FileTree) (input output : Path) : Prop where
  rooted : t.Rooted
  linklessInput : t.LinklessBelow input
  linklessOutput : t.LinklessBelow output
  apart : ∀ i o : Place, t.Reaches [] input.segments i → t.Reaches [] output.segments o →
    ¬ i <+: o ∧ ¬ o <+: i

def SameLinks (t t' : FileTree) : Prop :=
  ∀ (q : Place) (target : Path), t'.at? q = some (.link target) ↔ t.at? q = some (.link target)

theorem SameLinks.reaches_iff (h : SameLinks t t') {place : Place} {segments : List String} :
    t'.Reaches place segments q ↔ t.Reaches place segments q := by
  constructor
  · intro hreaches
    exact hreaches.congr (h _ _).symm
  · intro hreaches
    exact hreaches.congr (h _ _)

theorem SameLinks.trans {t₁ : FileTree} (h : SameLinks t t₁) (h' : SameLinks t₁ t') :
    SameLinks t t' :=
  fun q target => (h' q target).trans (h q target)

theorem SameLinks.linklessBelow {base : Path} (h : SameLinks t t') (hbase : t.LinklessBelow base) :
    t'.LinklessBelow base := by
  intro b hreaches names target hat
  exact hbase b (h.reaches_iff.mp hreaches) names target ((h _ _).mp hat)

namespace Settled

theorem of_sameLinks (h : Settled t input output) (ht' : t'.Rooted) (hlinks : SameLinks t t') :
    Settled t' input output where
  rooted := ht'
  linklessInput := hlinks.linklessBelow h.linklessInput
  linklessOutput := hlinks.linklessBelow h.linklessOutput
  apart i o hi ho := h.apart i o (hlinks.reaches_iff.mp hi) (hlinks.reaches_iff.mp ho)

theorem ne_of_reaches (h : Settled t input output) {i : Place} (hi : t.Reaches [] input.segments i)
    (ho : t.Reaches [] output.segments o) (names names' : Place) : i ++ names ≠ o ++ names' := by
  intro heq
  obtain ⟨hio, hoi⟩ := h.apart i o hi ho
  have hin : i <+: o ++ names' := heq ▸ List.prefix_append i names
  rcases List.prefix_or_prefix_of_prefix hin (List.prefix_append o names') with hbelow | habove
  · exact hio hbelow
  · exact hoi habove

end Settled

def isNoLinkBelow (b : Place) : Place × Node → Bool
  | (q, .link _) => !b.isPrefixOf q
  | _ => true

theorem linkless_of_all (h : t.nodes.toList.all (isNoLinkBelow b) = true) : t.Linkless b := by
  intro names target hat
  have hne : b ++ names ≠ [] := by
    intro hnil
    rw [hnil] at hat
    cases hat
  have hok := List.all_eq_true.mp h _ (mem_toList_of_at? hne hat)
  have hbelow : b.isPrefixOf (b ++ names) = true :=
    List.isPrefixOf_iff_prefix.mpr (List.prefix_append b names)
  rw [isNoLinkBelow, hbelow] at hok
  cases hok

theorem Settled.of_all {i : Place} (hrooted : t.nodes.toList.all t.isHoused = true)
    (hi : t.Reaches [] input.segments i) (ho : t.Reaches [] output.segments o)
    (hbelow : t.nodes.toList.all (isNoLinkBelow i) = true)
    (hbelow' : t.nodes.toList.all (isNoLinkBelow o) = true) (hapart : ¬ i <+: o ∧ ¬ o <+: i) :
    Settled t input output where
  rooted := .of_all hrooted
  linklessInput _ hi' := hi.unique hi' ▸ linkless_of_all hbelow
  linklessOutput _ ho' := ho.unique ho' ▸ linkless_of_all hbelow'
  apart _ _ hi' ho' := hi.unique hi' ▸ ho.unique ho' ▸ hapart

theorem isEmpty_of_checkApart (h : checkApart t input output = .ok ()) :
    input.isEmpty = false ∧ output.isEmpty = false := by
  have hnone : ∀ {p : Path} {a : List Component}, t.anchor? p = some a → p.isEmpty = false := by
    intro p a ha
    cases hempty : p.isEmpty with
    | false => rfl
    | true =>
      rw [anchor?, anchorIn?, if_pos hempty] at ha
      cases ha
  rw [checkApart, checkApartIn, ← anchor?, ← anchor?] at h
  cases hi : t.anchor? input with
  | none =>
    rw [hi] at h
    cases h
  | some a =>
    rw [hi] at h
    cases ho : t.anchor? output with
    | none =>
      rw [ho] at h
      cases h
    | some b => exact ⟨hnone hi, hnone ho⟩

section Emptied

/-- Emptying the output takes away what is below the place it reaches, if it is found. -/
theorem emptyOutput_cases (h : emptyOutput output t = .ok () t') :
    (∃ o, t.lookup true output = .ok (o, .directory) ∧ t' = t.clear o) ∨
      t.lookup true output = .error .notFound ∧ t' = t := by
  rw [emptyOutput] at h
  split at h
  · cases h
  · split at h
    · next t₁ hclean =>
      cases h
      rw [clean] at hclean
      cases hlookup : t.lookup true output with
      | error trouble =>
        rw [hlookup] at hclean
        cases trouble with
        | notFound =>
          cases hclean
          exact .inr ⟨rfl, rfl⟩
        | _ => cases hclean
      | ok found =>
        obtain ⟨o, node⟩ := found
        rw [hlookup] at hclean
        cases node with
        | directory =>
          cases hclean
          exact .inl ⟨o, rfl, rfl⟩
        | _ => cases hclean
    · cases h

private theorem sameLinks_clear (h : t.Linkless o) : SameLinks t (t.clear o) := by
  intro q target
  rw [at?_clear]
  split_ifs with hbelow
  · obtain ⟨⟨names, rfl⟩, -⟩ := hbelow
    constructor
    · intro hat
      cases hat
    · intro hat
      exact absurd hat (h names target)
  · rfl

theorem rooted_of_emptyOutput (ht : t.Rooted) (h : emptyOutput output t = .ok () t') :
    t'.Rooted := by
  rcases emptyOutput_cases h with ⟨o, -, rfl⟩ | ⟨-, rfl⟩
  · exact ht.clear o
  · exact ht

theorem kept_of_emptyOutput (ht : t.Rooted) (hlinkless : t.LinklessBelow output)
    (h : emptyOutput output t = .ok () t') : t'.Rooted ∧ SameLinks t t' := by
  refine ⟨rooted_of_emptyOutput ht h, ?_⟩
  rcases emptyOutput_cases h with ⟨o, hlookup, rfl⟩ | ⟨-, rfl⟩
  · exact sameLinks_clear (hlinkless o (reaches_of_lookup hlookup))
  · exact fun _ _ => Iff.rfl

theorem Settled.of_emptyOutput (hs : Settled t input output)
    (h : emptyOutput output t = .ok () t') : Settled t' input output := by
  obtain ⟨hrooted, hlinks⟩ := kept_of_emptyOutput hs.rooted hs.linklessOutput h
  exact hs.of_sameLinks hrooted hlinks

theorem at?_of_emptyOutput (hq : ∀ o, t.Reaches [] output.segments o → ¬ o <+: q)
    (h : emptyOutput output t = .ok () t') : t'.at? q = t.at? q := by
  rcases emptyOutput_cases h with ⟨o, hlookup, rfl⟩ | ⟨-, rfl⟩
  · rw [at?_clear, if_neg fun hbelow => hq o (reaches_of_lookup hlookup) hbelow.1]
  · rfl

end Emptied

section Deleted

private theorem Settled.of_removeFile {r : Path} (hs : Settled t input output)
    (houtput : output.isEmpty = false)
    (hr : r.Inner) (h : t.removeFile (output.join r) = .ok t') : Settled t' input output := by
  obtain ⟨o, content, -, hfile, rfl⟩ :=
    removeFile_join hs.rooted houtput hs.linklessOutput hr h
  exact hs.of_sameLinks (hs.rooted.erase_file hfile) fun _ _ => link_erase_file_iff hfile

theorem Settled.of_deleteOutputs (hs : Settled t input output) (houtput : output.isEmpty = false)
    (hremoved : ∀ r ∈ removed, r.Inner) (h : deleteOutputs output removed t = .ok deleted t') :
    Settled t' input output := by
  induction removed generalizing t deleted with
  | nil =>
    cases h
    exact hs
  | cons r rest ih =>
    obtain ⟨hr, hrest⟩ := List.forall_mem_cons.mp hremoved
    rcases deleteOutputs_cons_ok h with ⟨t₁, more, hremove, hdelete, -⟩ | ⟨-, hdelete⟩
    · exact ih (hs.of_removeFile houtput hr hremove) hrest hdelete
    · exact ih hs hrest hdelete

private theorem ofPlace_eq {i : Place} {choices : List Choice}
    (h : Plan.ofPlace t input i = .ok choices) :
    choices = (t.below i).map Plan.ofEntry := by
  simp only [Plan.ofPlace] at h
  split at h
  · cases h
  · cases h
    rfl

theorem ofTree_cases {choices : List Choice} (h : Plan.ofTreeIn t [] input = .ok choices) :
    ∃ i : Place, t.Reaches [] input.segments i ∧
      ((choices = (t.below i).map Plan.ofEntry ∨ choices = .warn :: (t.below i).map Plan.ofEntry) ∨
        (∃ content, t.at? i = some (.file content)) ∧ (choices = [.ignore] ∨ choices = [.warn])) := by
  rw [Plan.ofTreeIn, ← FileTree.lookup, ← FileTree.lookup] at h
  split at h
  · cases h
  · next i content hlookup =>
    cases h
    have hfollow := lookup_follow (fun _ => Node.noConfusion) hlookup
    exact ⟨i, reaches_of_lookup hfollow, .inr ⟨⟨content, at?_of_lookup_file hfollow⟩, .inl rfl⟩⟩
  · next i hlookup =>
    have hfollow := lookup_follow (fun _ => Node.noConfusion) hlookup
    exact ⟨i, reaches_of_lookup hfollow, .inl (.inl (ofPlace_eq h))⟩
  · split at h
    · cases h
    · next i hfollow =>
      cases hbelow : Plan.ofPlace t input i with
      | error fault =>
        rw [hbelow] at h
        cases h
      | ok below =>
        rw [hbelow] at h
        cases h
        rw [ofPlace_eq hbelow]
        exact ⟨i, reaches_of_lookup hfollow, .inl (.inr rfl)⟩
    · next found hdirectory hfollow =>
      cases h
      obtain ⟨i, node⟩ := found
      rcases node_of_lookup hfollow with rfl | ⟨content, rfl, hat⟩
      · exact absurd rfl (hdirectory i)
      · exact ⟨i, reaches_of_lookup hfollow, .inr ⟨⟨content, hat⟩, .inr rfl⟩⟩

theorem removed_full (hempty : changes.isEmpty = true) (h : Plan.make t input changes = .ok plan) :
    plan.removed = [] := by
  obtain ⟨i, -, hchoices⟩ := ofTree_cases (Plan.ofTreeIn_of_makeIn hempty h).2
  apply List.eq_nil_iff_forall_not_mem.mpr
  intro r hr
  have hdelete : .delete r ∈ plan.choices := Laid.mem_removed.mp hr
  have hbelow : .delete r ∉ (t.below i).map Plan.ofEntry := by
    intro hmem
    obtain ⟨⟨names, node⟩, -, hchoice⟩ := List.mem_map.mp hmem
    cases node with
    | file content =>
      simp only [Plan.ofEntry, Choice.ofFile] at hchoice
      split_ifs at hchoice
    | directory | link target => cases hchoice
  rcases hchoices with (heq | heq) | ⟨-, heq | heq⟩
  · rw [heq] at hdelete
    exact hbelow hdelete
  · rw [heq] at hdelete
    rcases List.mem_cons.mp hdelete with hwarn | hmem
    · cases hwarn
    · exact hbelow hmem
  · rw [heq] at hdelete
    cases List.mem_singleton.mp hdelete
  · rw [heq] at hdelete
    cases List.mem_singleton.mp hdelete

theorem isEmpty_of_mem_toList {change : Path × FileChange} (h : change ∈ changes.toList) :
    changes.isEmpty = false := by
  rw [Changes.isEmpty, ← Std.ExtTreeMap.isEmpty_toList]
  obtain ⟨entry, hentry, -⟩ := List.mem_map.mp h
  cases hlist : changes.entries.toList with
  | nil =>
    rw [hlist] at hentry
    cases hentry
  | cons first rest => rfl

private theorem relative_of_make {change : Path × FileChange}
    (h : Plan.make t input changes = .ok plan)
    (hmem : change ∈ changes.toList) : ∃ r, Plan.relative input change.1 = .ok r := by
  obtain ⟨-, hchoices⟩ := Plan.choices_of_makeIn (isEmpty_of_mem_toList hmem) h
  obtain ⟨choice, hchoice⟩ := ok_of_mem_mapM hchoices hmem
  obtain ⟨r, hrelative, -⟩ := bind_eq_ok_iff.mp hchoice
  exact ⟨r, hrelative⟩

/-- What may be chosen about a recorded change, by its status and its path below the input. -/
inductive Chooses (t : FileTree) (input relative : Path) : FileChange → Choice → Prop where
  | removed : Chooses t input relative .removed (.delete relative)
  | unchanged : Chooses t input relative .unchanged .pass
  | process {status : FileChange} {place : Place} {content : Bytes}
      (hstatus : status = .added ∨ status = .changed)
      (hlookup : t.lookup false (input.join relative) = .ok (place, .file content))
      (hclass : relative.hasClassExtension = true) :
      Chooses t input relative status (.process relative)
  | left {status : FileChange} {choice : Choice} (hstatus : status = .added ∨ status = .changed)
      (hchoice : choice = .pass ∨ choice = .warn ∨ choice = .ignore) :
      Chooses t input relative status choice

theorem chooses_of_ofChange {change : Path × FileChange} {choice : Choice}
    (h : Plan.ofChangeIn t [] input change = .ok choice) : ∃ relative,
      Plan.relative input change.1 = .ok relative ∧ Chooses t input relative change.2 choice := by
  obtain ⟨path, status⟩ := change
  rw [Plan.ofChangeIn] at h
  obtain ⟨relative, hrelative, h⟩ := bind_eq_ok_iff.mp h
  refine ⟨relative, hrelative, ?_⟩
  dsimp only
  cases status with
  | removed =>
    cases h
    exact .removed
  | unchanged =>
    cases h
    exact .unchanged
  | added | changed =>
    dsimp only at h
    rw [← FileTree.lookup, Plan.ofFound.eq_def] at h
    split at h
    · cases h
      exact .left (by decide) (.inr (.inl rfl))
    · next hlookup =>
      have hchoice := Except.ok.inj h
      rw [← hchoice, Choice.ofFile]
      split_ifs with hclass
      · exact .process (by decide) hlookup hclass
      · exact .left (by decide) (.inr (.inr rfl))
    · cases h
      exact .left (by decide) (.inl rfl)
    · cases h
      exact .left (by decide) (.inl rfl)
    · cases h

private theorem mem_removed_iff {r : Path} (h : Plan.make t input changes = .ok plan) :
    r ∈ plan.removed ↔ ∃ change ∈ changes.toList,
      change.2 = .removed ∧ Plan.relative input change.1 = .ok r := by
  constructor
  · intro hr
    cases hempty : changes.isEmpty with
    | true =>
      rw [removed_full hempty h] at hr
      cases hr
    | false =>
      have hdelete := Laid.mem_removed.mp hr
      have hchoices := (Plan.choices_of_makeIn hempty h).2
      obtain ⟨⟨path, status⟩, hmem, hchoice⟩ := (mem_iff_of_mapM hchoices).mp hdelete
      obtain ⟨relative, hrelative, hchooses⟩ := chooses_of_ofChange hchoice
      dsimp only at hchooses
      cases hchooses with
      | removed => exact ⟨(path, .removed), hmem, rfl, hrelative⟩
      | left _ hchoice => simp at hchoice
  · rintro ⟨⟨path, status⟩, hmem, rfl, hrelative⟩
    have hchoices := (Plan.choices_of_makeIn (isEmpty_of_mem_toList hmem) h).2
    apply Laid.mem_removed.mpr
    apply (mem_iff_of_mapM hchoices).mpr
    exact ⟨(path, .removed), hmem, bind_eq_ok_iff.mpr ⟨r, hrelative, rfl⟩⟩

theorem inner_of_removed (hinput : input.isEmpty = false)
    (h : Plan.make t input changes = .ok plan) : ∀ r ∈ plan.removed, r.Inner := by
  intro r hr
  obtain ⟨change, -, -, hrelative⟩ := (mem_removed_iff h).mp hr
  exact (relative_ok hinput hrelative).1

theorem removed_iff_marks (hinput : input.isEmpty = false)
    (h : Plan.make t input changes = .ok plan) :
    (∃ r ∈ plan.removed, r.place = names) ↔ Marks changes input names .removed := by
  constructor
  · rintro ⟨r, hr, rfl⟩
    obtain ⟨change, hmem, hstatus, hrelative⟩ := (mem_removed_iff h).mp hr
    exact ⟨change, hmem, hstatus, (relative_ok hinput hrelative).2⟩
  · rintro ⟨change, hmem, hstatus, hplace⟩
    obtain ⟨r, hrelative⟩ := relative_of_make h hmem
    rw [(relative_ok hinput hrelative).2] at hplace
    exact ⟨r, (mem_removed_iff h).mpr ⟨change, hmem, hstatus, hrelative⟩,
      List.append_cancel_left hplace⟩

end Deleted

end Retarget.Pass
