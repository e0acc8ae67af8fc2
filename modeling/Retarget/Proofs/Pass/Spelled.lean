import Mathlib.Data.List.Perm.Basic
import Retarget.Proofs.Files.Remainders
import Retarget.Proofs.Pass.Settled
import Retarget.Proofs.Pass.Vanished

/-!
Absolute and relative spellings of recorded changes. Below an absolute root it
does not matter which of them a change has: the same is chosen about it, so that
a plan has the same in perhaps another order. Below a relative root a change may
only have a relative path. An absolute one is refused there, even if it leads to
a file below the root.
-/

set_option autoImplicit false

namespace Retarget

open Retarget.Path (isVoid trimEnd IsName)

section Entries

variable {s : Changes} {path : Path} {entries : List (Path × FileChange)}

private theorem perm_toList_insert {α β : Type} [Ord α] [Std.TransOrd α] [Std.LawfulEqOrd α]
    {m : Std.ExtTreeMap α β} {k : α} (h : k ∉ m) (v : β) :
    (m.insert k v).toList.Perm ((k, v) :: m.toList) := by
  have hnodup : ∀ m' : Std.ExtTreeMap α β, m'.toList.Nodup := by
    intro m'
    refine m'.distinct_keys_toList.imp fun hne heq => ?_
    rw [heq] at hne
    exact hne Std.ReflCmp.compare_self
  have hnew : (k, v) ∉ m.toList := by
    rw [Std.ExtTreeMap.mem_toList_iff_getElem?_eq_some, Std.ExtTreeMap.getElem?_eq_none h]
    intro hnone
    cases hnone
  rw [List.perm_ext_iff_of_nodup (hnodup _) (List.nodup_cons.mpr ⟨hnew, hnodup m⟩)]
  rintro ⟨k', v'⟩
  rw [Std.ExtTreeMap.mem_toList_iff_getElem?_eq_some, List.mem_cons,
    Std.ExtTreeMap.mem_toList_iff_getElem?_eq_some, Std.ExtTreeMap.getElem?_insert]
  by_cases hkey : k' = k
  · subst hkey
    rw [if_pos Std.ReflCmp.compare_self, Std.ExtTreeMap.getElem?_eq_none h]
    simp [eq_comm]
  · rw [if_neg fun heq => hkey (Std.LawfulEqCmp.eq_of_compare heq).symm]
    simp [hkey]

private theorem Changes.toList_insert_perm (h : path.components ∉ s.entries) (status : FileChange) :
    (s.insert path status).toList.Perm ((path, status) :: s.toList) := by
  rw [Changes.insert, Std.ExtTreeMap.getElem?_eq_none h]
  exact (perm_toList_insert h (path, status)).map Prod.snd

private theorem Changes.toList_ofList_perm
    (h : (entries.map fun change => change.1.components).Nodup) :
    (Changes.ofList entries).toList.Perm entries := by
  have hfold : ∀ s : Changes, (∀ change ∈ entries, change.1.components ∉ s.entries) →
      (entries.foldl (fun s change => s.insert change.1 change.2) s).toList.Perm
        (s.toList ++ entries) := by
    induction entries with
    | nil =>
      intro s _
      rw [List.append_nil]
      exact List.Perm.refl _
    | cons change entries ih =>
      intro s hfresh
      rw [List.map_cons, List.nodup_cons] at h
      obtain ⟨hnew, hrest⟩ := List.forall_mem_cons.mp hfresh
      refine (ih h.2 (s.insert change.1 change.2) fun other hmem => ?_).trans ?_
      · rw [Changes.insert, Std.ExtTreeMap.mem_insert, not_or]
        refine ⟨fun heq => h.1 ?_, hrest other hmem⟩
        rw [Std.LawfulEqCmp.eq_of_compare heq]
        exact List.mem_map_of_mem hmem
      · exact ((toList_insert_perm hnew change.2).append_right entries).trans List.perm_middle.symm
  exact hfold .empty fun change _ => Std.ExtTreeMap.not_mem_empty

end Entries

namespace Plan

variable {t : FileTree} {cwd : Place} {root path path' rel whole : Path} {status : FileChange}
  {change change' : Path × FileChange} {plan plan' : Plan}
  {entries entries' : List (Path × FileChange)}

/-- Both paths are spellings of one file: the first one a path of names below the root, the second
one the absolute path to the place where the root's path is used, followed by the first one. Slashes
and dots may stand wherever they stand for no step. -/
structure Spells (cwd : Place) (root rel whole : Path) : Prop where
  named : rel.isEmpty = false
  normal : rel.components.all Component.isNormal = true
  whole : ∃ way after : List String, whole.segments = "" :: (way ++ (rel.segments ++ after)) ∧
    way.filterMap Component.ofSegment? = root.stepsIn cwd ∧ ∀ s ∈ after, isVoid s = true

private theorem spells_join (hroot : root.isEmpty = false) (hcwd : ∀ name ∈ cwd, IsName name)
    (hempty : rel.isEmpty = false) (hnormal : rel.components.all Component.isNormal = true) :
    Spells cwd root rel (if root.isAbsolute then root.join rel
      else ⟨"" :: (cwd ++ (root.join rel).segments)⟩) := by
  have hrelative : rel.isAbsolute = false := (Path.anchorSplit_of_normal hnormal).2.1
  obtain ⟨front, slash, hsegments, hslash, hfront, hjoin⟩ := Path.segments_join hroot hrelative
  have hsteps : root.stepsIn cwd = (if root.isAbsolute then [] else cwd.map .normal) ++
      front.filterMap Component.ofSegment? := by
    have hvoid : slash.filterMap Component.ofSegment? = [] :=
      List.filterMap_eq_nil_iff.mpr fun s hs =>
        Path.ofSegment?_of_isVoid (Path.isVoid_of_slash hslash s hs)
    rw [Path.stepsIn, Path.filter_components, ← Path.filterMap_ofSegment?, hsegments,
      List.filterMap_append, hvoid, List.append_nil]
  refine ⟨hempty, hnormal, ?_⟩
  cases habsolute : root.isAbsolute with
  | true =>
    obtain ⟨first, way, rfl⟩ := List.exists_cons_of_ne_nil hfront
    have hroot' : root = ⟨first :: (way ++ slash)⟩ := congrArg Path.mk hsegments
    rw [hroot'] at habsolute
    obtain ⟨rfl, -⟩ := Path.isAbsolute_cons_iff.mp habsolute
    rw [← hroot'] at habsolute
    refine ⟨way, [], ?_, ?_, fun s hs => absurd hs List.not_mem_nil⟩
    · rw [if_pos rfl, hjoin, List.append_nil]
      rfl
    · rw [hsteps, habsolute]
      rfl
  | false =>
    refine ⟨cwd ++ front, [], ?_, ?_, fun s hs => absurd hs List.not_mem_nil⟩
    · rw [if_neg Bool.false_ne_true, hjoin, List.append_nil, List.append_assoc]
    · have hnames : cwd.filterMap Component.ofSegment? = cwd.map .normal := by
        rw [← List.filterMap_eq_map]
        exact List.filterMap_congr fun name hname => Path.ofSegment?_of_isName (hcwd name hname)
      rw [hsteps, habsolute, if_neg Bool.false_ne_true, List.filterMap_append, hnames]

private theorem relative_of_relativeTo? (hpath : path.isAbsolute = true) {rest : Path}
    (h : root.relativeTo? path = some rest) : Plan.relative root path =
      if (rest.isEmpty || !rest.components.all Component.isNormal) = true then
        .error (.configuration (.noFile path root))
      else .ok rest := by
  rw [Plan.relative, hpath, if_pos rfl, h]
  exact ite_congr rfl (fun _ => rfl) fun _ => rfl

private theorem Spells.isAbsolute (h : Spells cwd root rel whole) : whole.isAbsolute = true := by
  obtain ⟨hempty, hnormal, way, after, hwhole, -, -⟩ := h
  obtain ⟨first, rest, rfl, -⟩ := Path.exists_first hempty hnormal
  have hwhole' : whole = ⟨"" :: (way ++ (first :: rest ++ after))⟩ := congrArg Path.mk hwhole
  rw [hwhole']
  exact Path.isAbsolute_rooted (List.append_ne_nil_of_right_ne_nil way (List.cons_ne_nil _ _))

private theorem relative_of_spells (hroot : root.isAbsolute = true)
    (h : Spells cwd root rel whole) :
    Plan.relative root whole = .ok ⟨trimEnd rel.segments⟩ := by
  have habsolute := h.isAbsolute
  obtain ⟨hempty, hnormal, way, after, hwhole, hway, hafter⟩ := h
  have hwhole' : whole = ⟨"" :: (way ++ (rel.segments ++ after))⟩ := congrArg Path.mk hwhole
  have hbelow : root.relativeTo? whole = some ⟨trimEnd rel.segments⟩ := by
    obtain ⟨body, hbody, rfl⟩ := Path.exists_rooted hroot
    have hsteps : Component.root :: (⟨"" :: body⟩ : Path).stepsIn cwd =
        .root :: body.filterMap Component.ofSegment? :=
      (Path.components_of_isAbsolute hroot).symm.trans (Path.components_rooted hbody)
    rw [hwhole']
    exact Path.relativeTo?_spelled hbody hempty hnormal (hway.trans (List.cons.inj hsteps).2) hafter
  obtain ⟨hcomponents, htrimmed⟩ := Path.components_trimEnd hempty hnormal
  rw [relative_of_relativeTo? habsolute hbelow, htrimmed, hcomponents, hnormal]
  rfl

private theorem relative_of_relativeRoot (hroot : root.isAbsolute = false)
    (hpath : path.isAbsolute = true) :
    Plan.relative root path = .error (.configuration
      (if root.components = [] then .noFile path root else .outside path root)) := by
  split_ifs with hsteps
  · -- behind such a root the path is left as it is, and starts at the root of the tree
    obtain ⟨rest, hrest, hnormal⟩ := Path.relativeTo?_of_no_steps hsteps hpath
    rw [relative_of_relativeTo? hpath hrest, hnormal, Bool.not_false, Bool.or_true, if_pos rfl]
  · rw [Plan.relative, hpath, if_pos rfl, Path.relativeTo?_of_relative hroot hpath hsteps]
    rfl

private theorem relative_absolute_iff (hpath : path.isAbsolute = true) :
    (∃ rest, Plan.relative root path = .ok rest) ↔ root.isAbsolute = true ∧
      ∃ names : List String, names ≠ [] ∧ path.components = root.components ++ names.map .normal := by
  cases hroot : root.isAbsolute with
  | false =>
    rw [relative_of_relativeRoot hroot hpath]
    simp
  | true =>
    rw [and_iff_right rfl]
    constructor
    · rintro ⟨rest, hrest⟩
      cases hbelow : root.relativeTo? path with
      | none =>
        rw [Plan.relative, hpath, if_pos rfl, hbelow] at hrest
        cases hrest
      | some rest' =>
        rw [relative_of_relativeTo? hpath hbelow] at hrest
        split_ifs at hrest with hbad
        rw [Bool.not_eq_true, Bool.or_eq_false_iff, Bool.not_eq_false'] at hbad
        obtain ⟨hempty, hnormal⟩ := hbad
        obtain ⟨names, hnames⟩ := Path.exists_names_of_normal hnormal
        have hcomponents := (Path.anchorSplit_of_normal hnormal).2.2
        refine ⟨names, ?_, ?_⟩
        · rintro rfl
          exact Path.components_ne_nil hempty hnormal hnames
        · rw [Path.components_of_relativeTo? hroot hpath hbelow, ← hcomponents, hnames]
    · rintro ⟨names, hne, hcomponents⟩
      have hsteps : names.map Component.normal ≠ [] := fun hnil => hne (List.map_eq_nil_iff.mp hnil)
      obtain ⟨rest, hbelow, hrest, hempty⟩ :=
        Path.exists_relativeTo? hroot hpath hsteps hcomponents
      have hnormal : rest.components.all Component.isNormal = true := by
        rw [hrest, List.all_map]
        exact List.all_eq_true.mpr fun _ _ => rfl
      rw [relative_of_relativeTo? hpath hbelow, hempty, hnormal]
      exact ⟨rest, rfl⟩

/-- The second change is the first one, or has the other spelling of its path. A relative path is
spelled without slashes and dots at its end. -/
inductive Respelled (cwd : Place) (root : Path) : Path × FileChange → Path × FileChange → Prop where
  | same {change : Path × FileChange} : Respelled cwd root change change
  | absolute {rel whole : Path} {status : FileChange} (h : Spells cwd root rel whole)
      (hend : trimEnd rel.segments = rel.segments) : Respelled cwd root (rel, status) (whole, status)
  | relative {rel whole : Path} {status : FileChange} (h : Spells cwd root rel whole)
      (hend : trimEnd rel.segments = rel.segments) : Respelled cwd root (whole, status) (rel, status)

private theorem Spells.relative_eq (h : Spells cwd root rel whole) :
    Plan.relative root rel = .ok rel := by
  rw [relative_of_normal h.normal, h.named]
  rfl

private theorem ofChangeIn_congr (h : Plan.relative root path = Plan.relative root path')
    (status : FileChange) :
    ofChangeIn t cwd root (path, status) = ofChangeIn t cwd root (path', status) := by
  rw [ofChangeIn, ofChangeIn, h]

private theorem Respelled.ofChangeIn_eq (hroot : root.isAbsolute = true)
    (h : Respelled cwd root change change') :
    ofChangeIn t cwd root change = ofChangeIn t cwd root change' := by
  have hsame : ∀ {rel whole : Path}, Spells cwd root rel whole →
      trimEnd rel.segments = rel.segments → Plan.relative root rel = Plan.relative root whole := by
    intro rel whole hspells hend
    rw [hspells.relative_eq, relative_of_spells hroot hspells, hend]
  cases h with
  | same => rfl
  | absolute hspells hend => exact ofChangeIn_congr (hsame hspells hend) _
  | relative hspells hend => exact ofChangeIn_congr (hsame hspells hend).symm _

/-- Two plans have the same in perhaps another order. -/
structure SameButOrder (plan plan' : Plan) : Prop where
  fullRebuild : plan.fullRebuild = plan'.fullRebuild
  classes : plan.classes.Perm plan'.classes
  removed : plan.removed.Perm plan'.removed
  ignored : plan.ignored = plan'.ignored
  warnings : plan.warnings = plan'.warnings

private theorem SameButOrder.of_perm (hfull : plan.fullRebuild = plan'.fullRebuild)
    (h : plan.choices.Perm plan'.choices) : SameButOrder plan plan' where
  fullRebuild := hfull
  classes := h.filterMap _
  removed := h.filterMap _
  ignored := h.count_eq _
  warnings := h.count_eq _

/-- Both runs succeed with the same, or both fail, with the same fault or each at a change that fails
alike in the other one. -/
inductive Alike (t : FileTree) (cwd : Place) (root : Path)
    (entries entries' : List (Path × FileChange)) :
    Except Fault Plan → Except Fault Plan → Prop where
  | made {plan plan' : Plan} (h : SameButOrder plan plan') :
      Alike t cwd root entries entries' (.ok plan) (.ok plan')
  | failed {fault fault' : Fault} (h : fault = fault' ∨
      (∃ change ∈ entries, ofChangeIn t cwd root change = .error fault') ∧
        ∃ change ∈ entries', ofChangeIn t cwd root change = .error fault) :
      Alike t cwd root entries entries' (.error fault) (.error fault')

theorem SameButOrder.refl (plan : Plan) : SameButOrder plan plan :=
  .of_perm rfl (List.Perm.refl _)

private theorem isEmpty_ofList (hnodup : (entries.map fun change => change.1.components).Nodup)
    (hne : entries ≠ []) : (Changes.ofList entries).isEmpty = false := by
  obtain ⟨change, rest, rfl⟩ := List.exists_cons_of_ne_nil hne
  have hmem := (Changes.toList_ofList_perm hnodup).mem_iff.mpr List.mem_cons_self
  exact Pass.isEmpty_of_mem_toList hmem

private theorem alike_of_respelled (hroot : root.isAbsolute = true)
    (hnodup : (entries.map fun change => change.1.components).Nodup)
    (hnodup' : (entries'.map fun change => change.1.components).Nodup)
    (h : List.Forall₂ (Respelled cwd root) entries entries') :
    Alike t cwd root entries entries' (makeIn t cwd root (.ofList entries))
      (makeIn t cwd root (.ofList entries')) := by
  by_cases hne : entries = []
  · subst hne
    cases h
    cases makeIn t cwd root (.ofList []) with
    | ok plan => exact .made (.refl plan)
    | error fault => exact .failed (.inl rfl)
  · have hne' : entries' ≠ [] := by
      rintro rfl
      cases h
      exact hne rfl
    have hperm := Changes.toList_ofList_perm hnodup
    have hperm' := Changes.toList_ofList_perm hnodup'
    have hsame : entries.map (ofChangeIn t cwd root) = entries'.map (ofChangeIn t cwd root) :=
      map_eq_of_forall₂ (h.imp fun _ _ hentry => hentry.ofChangeIn_eq hroot)
    -- a new spelling has another place in the order of the changes
    have hsteps : ((Changes.ofList entries).toList.map (ofChangeIn t cwd root)).Perm
        ((Changes.ofList entries').toList.map (ofChangeIn t cwd root)) := by
      refine (hperm.map _).trans ?_
      rw [hsame]
      exact (hperm'.map _).symm
    rw [makeIn_of_isEmpty (isEmpty_ofList hnodup hne),
      makeIn_of_isEmpty (isEmpty_ofList hnodup' hne')]
    rcases mapM_of_perm_map hsteps with ⟨choices, choices', hok, hok', hchoices⟩ |
      ⟨fault, fault', hfail, hfail', ⟨change, hmem, hchange⟩, change', hmem', hchange'⟩
    · rw [hok, hok']
      exact .made (.of_perm rfl hchoices)
    · rw [hfail, hfail']
      exact .failed (.inr ⟨⟨change, hperm.mem_iff.mp hmem, hchange⟩,
        change', hperm'.mem_iff.mp hmem', hchange'⟩)

private theorem ofChangeIn_slash {base : Place} {left : Nat} (hroot : root.isEmpty = false)
    (hsound : FileTree.isSound root = true)
    (hopen : t.Opens FileTree.linkLimit (root.start cwd) root.segments base left)
    (h : Spells cwd root rel whole) (hend : trimEnd rel.segments ≠ rel.segments)
    (hstatus : status.isUpdate = true) (hfile : t.FindsFile left base (trimEnd rel.segments)) :
    ofChangeIn t cwd root (rel, status) = .error (.io (root.join rel)) := by
  obtain ⟨tail, htail⟩ : trimEnd rel.segments <+: rel.segments := List.rdropWhile_prefix isVoid _
  have hne : tail ≠ [] := by
    rintro rfl
    rw [List.append_nil] at htail
    exact hend htail
  obtain ⟨q, content, hfinds⟩ := hfile
  have hbreaks : t.Breaks left base rel.segments .notDirectory := by
    rw [← htail]
    generalize trimEnd rel.segments = segments at hfinds
    cases hfinds with
    | entry hfront hname hshort hat =>
      rw [List.append_assoc, List.singleton_append]
      exact .file hfront hname hshort hat hne
  exact (answers_ofChangeIn hroot hsound hopen h.normal).of_blocked h.named hstatus
    (.inr (.inr ⟨_, Trouble.noConfusion, hbreaks⟩))

private theorem ofChangeIn_of_spells (hroot : root.isAbsolute = true)
    (h : Spells cwd root rel whole)
    (status : FileChange) :
    ofChangeIn t cwd root (whole, status) = ofChangeIn t cwd root (⟨trimEnd rel.segments⟩, status) := by
  obtain ⟨hcomponents, hempty⟩ := Path.components_trimEnd h.named h.normal
  refine ofChangeIn_congr ?_ status
  rw [relative_of_spells hroot h, relative_of_normal (hcomponents ▸ h.normal), hempty]
  rfl

private theorem makeIn_of_relativeRoot {changes : Changes} (hroot : root.isAbsolute = false)
    (hmem : change ∈ changes.toList) (hpath : change.1.isAbsolute = true) :
    ∃ fault, makeIn t cwd root changes = .error fault := by
  cases hmade : makeIn t cwd root changes with
  | error fault => exact ⟨fault, rfl⟩
  | ok plan =>
    have hall := (exists_makeIn_iff (Pass.isEmpty_of_mem_toList hmem)).mp ⟨plan, hmade⟩
    obtain ⟨choice, hchoice⟩ := hall change hmem
    rw [ofChangeIn, relative_of_relativeRoot hroot hpath] at hchoice
    cases hchoice

/-- What the spelling of a recorded change decides, in every current directory. A path of names has
an absolute spelling: joined to the root, and behind the current directory if the root is relative.
The relative spelling is always accepted, the absolute one only if the root is absolute; then it is
accepted exactly if it goes on behind the root with names. Below an absolute root the changes of
different files may have either spelling: the plan is the same but for the order, or it fails alike.
Below a relative root there is no plan once a path is absolute. And a relative path that leads to a
file fails if it ends with a slash, which an absolute one may do. -/
theorem spellings_decide (t : FileTree) (cwd : Place) (root : Path) :
    (∀ rel : Path, root.isEmpty = false → (∀ name ∈ cwd, IsName name) → rel.isEmpty = false →
      rel.components.all Component.isNormal = true →
        Spells cwd root rel (if root.isAbsolute then root.join rel
          else ⟨"" :: (cwd ++ (root.join rel).segments)⟩)) ∧
    (∀ rel whole, Spells cwd root rel whole → Plan.relative root rel = .ok rel ∧
      Plan.relative root whole = if root.isAbsolute then .ok ⟨trimEnd rel.segments⟩
        else .error (.configuration
          (if root.components = [] then .noFile whole root else .outside whole root))) ∧
    (∀ path : Path, path.isAbsolute = true → ((∃ rest, Plan.relative root path = .ok rest) ↔
      root.isAbsolute = true ∧ ∃ names : List String, names ≠ [] ∧
        path.components = root.components ++ names.map .normal)) ∧
    (root.isAbsolute = true → ∀ entries entries' : List (Path × FileChange),
      (entries.map fun change => change.1.components).Nodup →
      (entries'.map fun change => change.1.components).Nodup →
      List.Forall₂ (Respelled cwd root) entries entries' →
      Alike t cwd root entries entries' (makeIn t cwd root (.ofList entries))
        (makeIn t cwd root (.ofList entries'))) ∧
    (root.isAbsolute = false → ∀ changes : Changes,
      (∃ change ∈ changes.toList, change.1.isAbsolute = true) →
        ∃ fault, makeIn t cwd root changes = .error fault) ∧
    ∀ base, t.lookupIn cwd true root = .ok (base, .directory) →
      ∃ left, t.Opens FileTree.linkLimit (root.start cwd) root.segments base left ∧
        ∀ rel whole status, Spells cwd root rel whole → trimEnd rel.segments ≠ rel.segments →
          status.isUpdate = true → t.FindsFile left base (trimEnd rel.segments) →
          ofChangeIn t cwd root (rel, status) = .error (.io (root.join rel)) ∧
            (root.isAbsolute = true → ofChangeIn t cwd root (whole, status) =
              ofChangeIn t cwd root (⟨trimEnd rel.segments⟩, status)) := by
  refine ⟨fun rel hroot hcwd hempty hnormal => spells_join hroot hcwd hempty hnormal,
    fun rel whole h => ⟨h.relative_eq, ?_⟩, fun path hpath => relative_absolute_iff hpath,
    fun hroot entries entries' hnodup hnodup' h => alike_of_respelled hroot hnodup hnodup' h,
    fun hroot changes hchanges => ?_, fun base hbase => ?_⟩
  · cases hroot : root.isAbsolute with
    | true => exact relative_of_spells hroot h
    | false => exact relative_of_relativeRoot hroot h.isAbsolute
  · obtain ⟨change, hmem, hpath⟩ := hchanges
    exact makeIn_of_relativeRoot hroot hmem hpath
  · obtain ⟨⟨hsound, -⟩, hempty, left, hmakes⟩ := FileTree.makes_of_lookupIn hbase
    refine ⟨left, hmakes.opens, fun rel whole status h hend hstatus hfile => ⟨?_, fun hroot => ?_⟩⟩
    · exact ofChangeIn_slash hempty hsound hmakes.opens h hend hstatus hfile
    · exact ofChangeIn_of_spells hroot h status

section Sample

/-- Below the absolute root a class may be spelled absolutely, with a dot and two slashes on the way.
Below the relative root, which is the same directory, the absolute path is refused. -/
theorem spellings_decide_sample :
    (∃ plan, SameButOrder ⟨[.process ⟨["A.class"]⟩, .ignore], false⟩ plan ∧
      makeIn vanishedSample ["w"] ⟨["", "w", "in"]⟩ (.ofList
        [(⟨["", "w", ".", "in", "", "A.class"]⟩, .changed), (⟨["b.txt"]⟩, .added)]) = .ok plan) ∧
    Plan.relative ⟨["in"]⟩ ⟨["", "w", "in", "A.class"]⟩ =
      .error (.configuration (.outside ⟨["", "w", "in", "A.class"]⟩ ⟨["in"]⟩)) := by
  have hwhole : Spells ["w"] ⟨["", "w", "in"]⟩ ⟨["A.class"]⟩ ⟨["", "w", ".", "in", "", "A.class"]⟩ :=
    ⟨by decide, by decide, ["w", ".", "in", ""], [], rfl, by decide, by simp⟩
  have hbelow : Spells ["w"] ⟨["in"]⟩ ⟨["A.class"]⟩ ⟨["", "w", "in", "A.class"]⟩ :=
    ⟨by decide, by decide, ["w", "in"], [], rfl, by decide, by simp⟩
  refine ⟨?_, ?_⟩
  · obtain ⟨-, -, -, halike, -⟩ := spellings_decide vanishedSample ["w"] ⟨["", "w", "in"]⟩
    have hmade : makeIn vanishedSample ["w"] ⟨["", "w", "in"]⟩
        (.ofList [(⟨["A.class"]⟩, .changed), (⟨["b.txt"]⟩, .added)]) =
          .ok ⟨[.process ⟨["A.class"]⟩, .ignore], false⟩ := by
      decide +kernel
    have hrespelled : List.Forall₂ (Respelled ["w"] ⟨["", "w", "in"]⟩)
        [(⟨["A.class"]⟩, .changed), (⟨["b.txt"]⟩, .added)]
        [(⟨["", "w", ".", "in", "", "A.class"]⟩, .changed), (⟨["b.txt"]⟩, .added)] :=
      .cons (.absolute hwhole (by decide)) (.cons .same .nil)
    have hsame := halike rfl _ _ (by decide) (by decide) hrespelled
    rw [hmade] at hsame
    generalize hmade' : makeIn vanishedSample ["w"] ⟨["", "w", "in"]⟩ (.ofList
      [(⟨["", "w", ".", "in", "", "A.class"]⟩, .changed), (⟨["b.txt"]⟩, .added)]) = made at hsame ⊢
    cases hsame with
    | made hsame => exact ⟨_, hsame, rfl⟩
  · obtain ⟨-, hspelled, -⟩ := spellings_decide vanishedSample ["w"] ⟨["in"]⟩
    exact (hspelled _ _ hbelow).2

end Sample

end Plan

end Retarget
