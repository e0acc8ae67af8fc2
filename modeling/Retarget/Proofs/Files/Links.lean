import Retarget.Proofs.Files.Effect

/-!
Trees with links. A walk along the segments of a path passes through
directories that are there and over links; it either opens a directory in the
end or stops at a segment that it cannot pass. What a walk opens is opened in
every tree with the same links and at least the same directories. The place a
path reaches once the missing directories on its way are there depends on the
links alone.
-/

set_option autoImplicit false

namespace Retarget

open Retarget.Path (IsName)

def Spot.place : Spot → Place
  | .found place .. => place
  | .vacant directory name _ => directory ++ [name]

namespace FileTree

variable {t t' : FileTree} {follow : Bool} {links left less : Nat} {place q q' mid names : Place}
  {s : String} {segments rest front back more : List String} {target : Path} {node : Node}
  {content : Bytes} {spot : Spot}

section FirstSegment

theorem resolveFrom_nil (t : FileTree) (follow : Bool) (links : Nat) (place : Place) :
    t.resolveFrom follow links place [] = .ok (.found place .directory links) := by
  cases links <;> rfl

theorem resolveFrom_void (h : Path.isVoid s = true) (links : Nat) (place : Place)
    (rest : List String) :
    t.resolveFrom follow links place (s :: rest) = t.resolveFrom follow links place rest := by
  cases links <;> simp only [resolveFrom, descend, h, if_true]

theorem resolveFrom_parent (t : FileTree) (follow : Bool) (links : Nat) (place : Place)
    (rest : List String) : t.resolveFrom follow links place (".." :: rest) =
      t.resolveFrom follow links place.dropLast rest := by
  have hvoid : Path.isVoid ".." = false := by decide
  cases links <;> simp only [resolveFrom, descend, hvoid, if_true, Bool.false_eq_true, if_false]

theorem resolveFrom_long (hname : IsName s) (h : nameLimit < s.utf8ByteSize) (links : Nat)
    (place : Place) (rest : List String) :
    t.resolveFrom follow links place (s :: rest) = .error .nameTooLong := by
  cases links <;>
    simp only [resolveFrom, descend, hname.1, hname.2, h, if_true, Bool.false_eq_true, if_false]

theorem resolveFrom_missing (hname : IsName s) (hshort : ¬ nameLimit < s.utf8ByteSize)
    (h : t.at? (place ++ [s]) = none) (links : Nat) (rest : List String) :
    t.resolveFrom follow links place (s :: rest) =
      if rest.all (· = "") then .ok (.vacant place s (!rest.isEmpty)) else .error .notFound := by
  cases links <;> simp only [resolveFrom, descend, hname.1, hname.2, hshort, h, if_true,
    Bool.false_eq_true, if_false]

theorem resolveFrom_directory (hname : IsName s) (hshort : ¬ nameLimit < s.utf8ByteSize)
    (h : t.at? (place ++ [s]) = some .directory) (links : Nat) (rest : List String) :
    t.resolveFrom follow links place (s :: rest) =
      t.resolveFrom follow links (place ++ [s]) rest := by
  cases links <;> simp only [resolveFrom, descend, hname.1, hname.2, hshort, h, if_true,
    Bool.false_eq_true, if_false]

theorem resolveFrom_file (hname : IsName s) (hshort : ¬ nameLimit < s.utf8ByteSize)
    (h : t.at? (place ++ [s]) = some (.file content)) (links : Nat) (rest : List String) :
    t.resolveFrom follow links place (s :: rest) =
      if rest = [] then .ok (.found (place ++ [s]) (.file content) links)
      else .error .notDirectory := by
  cases rest with
  | nil =>
    cases links <;> simp only [resolveFrom, descend, hname.1, hname.2, hshort, h, if_true,
      Bool.false_eq_true, if_false]
  | cons next rest =>
    cases links <;> simp only [resolveFrom, descend, hname.1, hname.2, hshort, h, if_true,
      Bool.false_eq_true, if_false, reduceCtorEq]

theorem resolveFrom_link_zero (hname : IsName s) (hshort : ¬ nameLimit < s.utf8ByteSize)
    (h : t.at? (place ++ [s]) = some (.link target)) (hfollow : (rest.isEmpty && !follow) = false) :
    t.resolveFrom follow 0 place (s :: rest) = .error .tooManyLinks := by
  simp only [resolveFrom, descend, hname.1, hname.2, hshort, h, if_true, hfollow,
    Bool.false_eq_true, if_false]

theorem resolveFrom_link_succ (hname : IsName s) (hshort : ¬ nameLimit < s.utf8ByteSize)
    (h : t.at? (place ++ [s]) = some (.link target)) (hfollow : (rest.isEmpty && !follow) = false)
    (links : Nat) : t.resolveFrom follow (links + 1) place (s :: rest) =
      t.resolveFrom follow links (target.start place) (target.segments ++ rest) := by
  simp only [resolveFrom, descend, hname.1, hname.2, hshort, h, if_true, hfollow,
    Bool.false_eq_true, if_false]

theorem resolveFrom_link_end (hname : IsName s) (hshort : ¬ nameLimit < s.utf8ByteSize)
    (h : t.at? (place ++ [s]) = some (.link target)) (links : Nat) :
    t.resolveFrom false links place [s] = .ok (.found (place ++ [s]) (.link target) links) := by
  cases links <;> simp [resolveFrom, descend, hname.1, hname.2, hshort, h]

end FirstSegment

/-- From the directory at a place the segments lead to the one at `q`, through directories that
are there and over at most `links` links, of which `left` are left. -/
inductive Opens (t : FileTree) : Nat → Place → List String → Place → Nat → Prop where
  | here {links : Nat} {place : Place} : Opens t links place [] place links
  | void {links left : Nat} {place q : Place} {s : String} {rest : List String}
      (hvoid : Path.isVoid s = true) (hrest : Opens t links place rest q left) :
      Opens t links place (s :: rest) q left
  | parent {links left : Nat} {place q : Place} {rest : List String}
      (hrest : Opens t links place.dropLast rest q left) : Opens t links place (".." :: rest) q left
  | directory {links left : Nat} {place q : Place} {s : String} {rest : List String} (hname : IsName s)
      (hshort : ¬ nameLimit < s.utf8ByteSize) (hat : t.at? (place ++ [s]) = some .directory)
      (hrest : Opens t links (place ++ [s]) rest q left) : Opens t links place (s :: rest) q left
  | link {links less left : Nat} {place mid q : Place} {s : String} {rest : List String}
      {target : Path} (hname : IsName s) (hshort : ¬ nameLimit < s.utf8ByteSize)
      (hat : t.at? (place ++ [s]) = some (.link target))
      (htarget : Opens t links (target.start place) target.segments mid less)
      (hrest : Opens t less mid rest q left) : Opens t (links + 1) place (s :: rest) q left

inductive Stops (t : FileTree) (links : Nat) (place : Place) (s : String) : Prop where
  | long (hname : IsName s) (hlong : nameLimit < s.utf8ByteSize)
  | missing (hname : IsName s) (hshort : ¬ nameLimit < s.utf8ByteSize)
      (hat : t.at? (place ++ [s]) = none)
  | file {content : Bytes} (hname : IsName s) (hshort : ¬ nameLimit < s.utf8ByteSize)
      (hat : t.at? (place ++ [s]) = some (.file content))
  | link {target : Path} (hname : IsName s) (hshort : ¬ nameLimit < s.utf8ByteSize)
      (hat : t.at? (place ++ [s]) = some (.link target))
      (hclosed : ∀ {less : Nat} {mid : Place} {left : Nat}, links = less + 1 →
        ¬ t.Opens less (target.start place) target.segments mid left)

namespace Opens

theorem append (h : t.Opens links place front mid less) (h' : t.Opens less mid back q left) :
    t.Opens links place (front ++ back) q left := by
  induction h with
  | here => exact h'
  | void hvoid _ ih => exact .void hvoid (ih h')
  | parent _ ih => exact .parent (ih h')
  | directory hname hshort hat _ ih => exact .directory hname hshort hat (ih h')
  | link hname hshort hat htarget _ _ ih => exact .link hname hshort hat htarget (ih h')

theorem split (h : t.Opens links place (front ++ back) q left) :
    ∃ mid less, t.Opens links place front mid less ∧ t.Opens less mid back q left := by
  induction front generalizing links place with
  | nil => exact ⟨place, links, .here, h⟩
  | cons s front ih =>
    cases h with
    | void hvoid hrest =>
      obtain ⟨mid, less, hfront, hback⟩ := ih hrest
      exact ⟨mid, less, .void hvoid hfront, hback⟩
    | parent hrest =>
      obtain ⟨mid, less, hfront, hback⟩ := ih hrest
      exact ⟨mid, less, .parent hfront, hback⟩
    | directory hname hshort hat hrest =>
      obtain ⟨mid, less, hfront, hback⟩ := ih hrest
      exact ⟨mid, less, .directory hname hshort hat hfront, hback⟩
    | link hname hshort hat htarget hrest =>
      obtain ⟨mid, less, hfront, hback⟩ := ih hrest
      exact ⟨mid, less, .link hname hshort hat htarget hfront, hback⟩

theorem of_void (h : ∀ s ∈ segments, Path.isVoid s = true) (links : Nat) (place : Place) :
    t.Opens links place segments place links := by
  induction segments with
  | nil => exact .here
  | cons s rest ih =>
    obtain ⟨hs, hrest⟩ := List.forall_mem_cons.mp h
    exact .void hs (ih hrest)

theorem left_le (h : t.Opens links place segments q left) : left ≤ links := by
  induction h with
  | here => exact Nat.le_refl _
  | void _ _ ih | parent _ ih | directory _ _ _ _ ih => exact ih
  | link _ _ _ _ _ ihtarget ihrest => omega

theorem resolveFrom_append_of (h : t.Opens links place segments q left)
    (hmore : (more.isEmpty && !follow) = false) :
    t.resolveFrom follow links place (segments ++ more) = t.resolveFrom follow left q more := by
  induction h generalizing more with
  | here => rfl
  | void hvoid _ ih => exact (resolveFrom_void hvoid _ _ _).trans (ih hmore)
  | parent _ ih => exact (resolveFrom_parent t follow _ _ _).trans (ih hmore)
  | directory hname hshort hat _ ih =>
    exact (resolveFrom_directory hname hshort hat _ _).trans (ih hmore)
  | @link links less left place mid q s rest target hname hshort hat _ _ ihtarget ihrest =>
    have hrest : ((rest ++ more).isEmpty && !follow) = false := by
      cases rest with
      | nil => exact hmore
      | cons next rest => rfl
    refine (resolveFrom_link_succ hname hshort hat hrest _).trans ?_
    exact (ihtarget hrest).trans (ihrest hmore)

theorem resolveFrom_append (h : t.Opens links place segments q left) (more : List String) :
    t.resolveFrom true links place (segments ++ more) = t.resolveFrom true left q more :=
  h.resolveFrom_append_of (Bool.and_false _)

theorem resolveFrom (h : t.Opens links place segments q left) :
    t.resolveFrom true links place segments = .ok (.found q .directory left) := by
  have hwhole := h.resolveFrom_append []
  rwa [List.append_nil, resolveFrom_nil] at hwhole

theorem unique (h : t.Opens links place segments q left)
    (h' : t.Opens links place segments q' less) : q = q' ∧ left = less := by
  have hfound := h.resolveFrom.symm.trans h'.resolveFrom
  cases hfound
  exact ⟨rfl, rfl⟩

end Opens

/-- Segments open a directory, or the walk stops at one of them. -/
theorem opens_or_stops (t : FileTree) (links : Nat) (place : Place) (segments : List String) :
    (∃ q left, t.Opens links place segments q left) ∨
    ∃ front s rest q left, segments = front ++ s :: rest ∧ t.Opens links place front q left ∧
      t.Stops left q s := by
  induction segments generalizing links place with
  | nil => exact .inl ⟨place, links, .here⟩
  | cons s rest ih =>
    -- a step that leads on to a directory is taken before the rest
    have hon : ∀ {less : Nat} {mid : Place}, t.Opens links place [s] mid less →
        (∃ q left, t.Opens links place (s :: rest) q left) ∨
        ∃ front s' rest' q left, s :: rest = front ++ s' :: rest' ∧
          t.Opens links place front q left ∧ t.Stops left q s' := by
      intro less mid hfirst
      rcases ih less mid with ⟨q, left, hrest⟩ | ⟨front, s', rest', q, left, heq, hfront, hstop⟩
      · exact .inl ⟨q, left, hfirst.append hrest⟩
      · exact .inr ⟨s :: front, s', rest', q, left, by rw [heq]; rfl, hfirst.append hfront, hstop⟩
    have hhere : t.Stops links place s → ∃ front s' rest' q left, s :: rest = front ++ s' :: rest' ∧
        t.Opens links place front q left ∧ t.Stops left q s' :=
      fun hstop => ⟨[], s, rest, place, links, rfl, .here, hstop⟩
    by_cases hvoid : Path.isVoid s = true
    · exact hon (.void hvoid .here)
    · by_cases hparent : s = ".."
      · subst hparent
        exact hon (.parent .here)
      · have hname : IsName s := ⟨Bool.eq_false_iff.mpr hvoid, hparent⟩
        by_cases hlong : nameLimit < s.utf8ByteSize
        · exact .inr (hhere (.long hname hlong))
        · cases hat : t.at? (place ++ [s]) with
          | none => exact .inr (hhere (.missing hname hlong hat))
          | some node =>
            cases node with
            | directory => exact hon (.directory hname hlong hat .here)
            | file content => exact .inr (hhere (.file hname hlong hat))
            | link target =>
              by_cases hopen : ∃ less mid left, links = less + 1 ∧
                  t.Opens less (target.start place) target.segments mid left
              · obtain ⟨less, mid, left, rfl, htarget⟩ := hopen
                exact hon (.link hname hlong hat htarget .here)
              · refine .inr (hhere (.link hname hlong hat fun hlinks htarget => ?_))
                exact hopen ⟨_, _, _, hlinks, htarget⟩

theorem opens_of_resolveFrom_append
    (hback : back.all (· = "") = false ∨ follow = true ∧ ∃ q left, spot = .found q .directory left)
    (h : t.resolveFrom follow links place (front ++ back) = .ok spot) :
    ∃ q left, t.Opens links place front q left := by
  -- on the links left: the front is open, or the walk stops in it at a link that it follows
  induction links using Nat.strongRecOn generalizing place front back with
  | ind links ih =>
    rcases opens_or_stops t links place front with hopen | ⟨fore, s, rest, q, left, rfl, hfore, hstop⟩
    · exact hopen
    · have hmore : (rest ++ back).all (· = "") = false ∨
          follow = true ∧ ∃ q left, spot = .found q .directory left := by
        refine hback.imp_left fun hname => ?_
        rw [List.all_append, hname, Bool.and_false]
      have hfollow : ((rest ++ back).isEmpty && !follow) = false := by
        rcases hmore with hname | ⟨rfl, -⟩
        · cases hwhole : rest ++ back with
          | nil =>
            rw [hwhole] at hname
            cases hname
          | cons next more => rfl
        · exact Bool.and_false _
      rw [List.append_assoc, List.cons_append, hfore.resolveFrom_append_of rfl] at h
      cases hstop with
      | long hname hlong => cases (resolveFrom_long hname hlong _ _ _).symm.trans h
      | missing hname hshort hat =>
        rw [resolveFrom_missing hname hshort hat] at h
        split_ifs at h with hslashes
        cases h
        rcases hmore with hmore | ⟨-, q, left, hspot⟩
        · cases hslashes.symm.trans hmore
        · cases hspot
      | file hname hshort hat =>
        rw [resolveFrom_file hname hshort hat] at h
        split_ifs at h with hnil
        cases h
        rcases hmore with hmore | ⟨-, q, left, hspot⟩
        · rw [hnil] at hmore
          cases hmore
        · cases hspot
      | link hname hshort hat hclosed =>
        cases left with
        | zero =>
          rw [resolveFrom_link_zero hname hshort hat hfollow] at h
          cases h
        | succ left =>
          rw [resolveFrom_link_succ hname hshort hat hfollow] at h
          have hlt : left < links := hfore.left_le
          obtain ⟨mid, less, htarget⟩ := ih left hlt hmore h
          exact absurd htarget (hclosed rfl)

theorem opens_of_resolveFrom
    (h : t.resolveFrom true links place segments = .ok (.found q .directory left)) :
    t.Opens links place segments q left := by
  have hwhole : t.resolveFrom true links place (segments ++ []) = .ok (.found q .directory left) := by
    rwa [List.append_nil]
  obtain ⟨q', left', hopen⟩ := opens_of_resolveFrom_append (.inr ⟨rfl, q, left, rfl⟩) hwhole
  cases hopen.resolveFrom.symm.trans h
  exact hopen

/-- The second tree has all directories and links of the first one. -/
structure Carries (t t' : FileTree) : Prop where
  directory : ∀ {q : Place}, t.at? q = some .directory → t'.at? q = some .directory
  link : ∀ {q : Place} {target : Path}, t.at? q = some (.link target) →
    t'.at? q = some (.link target)

theorem Opens.mono (h : t.Opens links place segments q left) (ht : t.Carries t') :
    t'.Opens links place segments q left := by
  induction h with
  | here => exact .here
  | void hvoid _ ih => exact .void hvoid ih
  | parent _ ih => exact .parent ih
  | directory hname hshort hat _ ih => exact .directory hname hshort (ht.directory hat) ih
  | link hname hshort hat _ _ ihtarget ihrest =>
    exact .link hname hshort (ht.link hat) ihtarget ihrest

/-- From a place the segments reach `q` once every directory is there that they pass. -/
inductive Reaches (t : FileTree) : Place → List String → Place → Prop where
  | here {place : Place} : Reaches t place [] place
  | pass {place q : Place} {s : String} {rest : List String}
      (hlink : IsName s → ∀ target, t.at? (place ++ [s]) ≠ some (.link target))
      (hrest : Reaches t (Path.step place s) rest q) : Reaches t place (s :: rest) q
  | link {place mid q : Place} {s : String} {rest : List String} {target : Path} (hname : IsName s)
      (hat : t.at? (place ++ [s]) = some (.link target))
      (htarget : Reaches t (target.start place) target.segments mid)
      (hrest : Reaches t mid rest q) : Reaches t place (s :: rest) q

namespace Reaches

theorem append (h : t.Reaches place front mid) (h' : t.Reaches mid back q) :
    t.Reaches place (front ++ back) q := by
  induction h with
  | here => exact h'
  | pass hlink _ ih => exact .pass hlink (ih h')
  | link hname hat htarget _ _ ih => exact .link hname hat htarget (ih h')

theorem split (h : t.Reaches place (front ++ back) q) :
    ∃ mid, t.Reaches place front mid ∧ t.Reaches mid back q := by
  induction front generalizing place with
  | nil => exact ⟨place, .here, h⟩
  | cons s front ih =>
    cases h with
    | pass hlink hrest =>
      obtain ⟨mid, hfront, hback⟩ := ih hrest
      exact ⟨mid, .pass hlink hfront, hback⟩
    | link hname hat htarget hrest =>
      obtain ⟨mid, hfront, hback⟩ := ih hrest
      exact ⟨mid, .link hname hat htarget hfront, hback⟩

theorem unique (h : t.Reaches place segments q) (h' : t.Reaches place segments q') : q = q' := by
  induction h generalizing q' with
  | here =>
    cases h'
    rfl
  | pass hlink _ ih =>
    cases h' with
    | pass _ hrest => exact ih hrest
    | link hname hat => exact absurd hat (hlink hname _)
  | link hname hat _ _ ihtarget ihrest =>
    cases h' with
    | pass hlink => exact absurd hat (hlink hname _)
    | link _ hat' htarget' hrest' =>
      cases hat.symm.trans hat'
      cases ihtarget htarget'
      exact ihrest hrest'

theorem congr (hlinks : ∀ {q : Place} {target : Path},
      t'.at? q = some (.link target) ↔ t.at? q = some (.link target))
    (h : t.Reaches place segments q) : t'.Reaches place segments q := by
  induction h with
  | here => exact .here
  | pass hlink _ ih => exact .pass (fun hname target hat => hlink hname target (hlinks.mp hat)) ih
  | link hname hat _ _ ihtarget ihrest => exact .link hname (hlinks.mpr hat) ihtarget ihrest

theorem of_void (h : ∀ s ∈ segments, Path.isVoid s = true) (place : Place) :
    t.Reaches place segments place := by
  induction segments with
  | nil => exact .here
  | cons s rest ih =>
    obtain ⟨hs, hrest⟩ := List.forall_mem_cons.mp h
    have hstep : Path.step place s = place := by rw [Path.step, if_pos hs]
    refine .pass (fun hname => absurd hs (Bool.eq_false_iff.mp hname.1)) ?_
    rw [hstep]
    exact ih hrest

theorem descends (hfree : ∀ (names : Place) (target : Path), t.at? (place ++ names) ≠ some (.link target))
    (hdown : ".." ∉ segments) (h : t.Reaches place segments q) : place <+: q := by
  induction h with
  | here => exact List.prefix_refl _
  | @pass place q s rest hlink hrest ih =>
    have hstep : place <+: Path.step place s := by
      rw [Path.step]
      split_ifs with hvoid hparent
      · exact List.prefix_refl place
      · exact absurd (hparent ▸ List.mem_cons_self) hdown
      · exact List.prefix_append place [s]
    have hnext : ∀ names target, t.at? (Path.step place s ++ names) ≠ some (.link target) := by
      intro names target
      obtain ⟨more, hmore⟩ := hstep
      rw [← hmore, List.append_assoc]
      exact hfree _ _
    exact hstep.trans (ih hnext fun hmem => hdown (List.mem_cons_of_mem s hmem))
  | link hname hat => exact absurd hat (hfree [_] _)

theorem of_no_link (h : ∀ (q : Place) (target : Path), t.at? q ≠ some (.link target)) :
    t.Reaches place segments (Path.walk place segments) := by
  induction segments generalizing place with
  | nil => exact .here
  | cons s rest ih => exact .pass (fun _ => h _) ih

end Reaches

theorem Opens.reaches (h : t.Opens links place segments q left) : t.Reaches place segments q := by
  induction h with
  | here => exact .here
  | void hvoid _ ih =>
    refine .pass (fun hname => absurd hvoid (Bool.eq_false_iff.mp hname.1)) ?_
    rwa [Path.step, if_pos hvoid]
  | parent _ ih => exact .pass (fun hname => absurd rfl hname.2) ih
  | directory hname _ hat _ ih =>
    refine .pass (fun _ target hlink => ?_) ?_
    · cases hat.symm.trans hlink
    · rwa [Path.step_name hname]
  | link hname _ hat _ _ ihtarget ihrest => exact .link hname hat ihtarget ihrest

theorem reaches_of_resolveFrom (h : t.resolveFrom true links place segments = .ok spot) :
    t.Reaches place segments spot.place := by
  induction links using Nat.strongRecOn generalizing place segments with
  | ind links ih =>
    rcases opens_or_stops t links place segments with ⟨q, left, hopen⟩ |
      ⟨fore, s, rest, q, left, rfl, hfore, hstop⟩
    · cases hopen.resolveFrom.symm.trans h
      exact hopen.reaches
    · rw [hfore.resolveFrom_append] at h
      refine hfore.reaches.append ?_
      cases hstop with
      | long hname hlong => cases (resolveFrom_long hname hlong _ _ _).symm.trans h
      | missing hname hshort hat =>
        rw [resolveFrom_missing hname hshort hat] at h
        split_ifs at h with hslashes
        cases h
        refine .pass (fun _ target hlink => ?_) ?_
        · cases hat.symm.trans hlink
        · rw [Path.step_name hname]
          refine .of_void (fun segment hsegment => ?_) _
          rw [of_decide_eq_true (List.all_eq_true.mp hslashes segment hsegment)]
          rfl
      | file hname hshort hat =>
        rw [resolveFrom_file hname hshort hat] at h
        split_ifs at h with hnil
        cases h
        subst hnil
        refine .pass (fun _ target hlink => ?_) ?_
        · cases hat.symm.trans hlink
        · rw [Path.step_name hname]
          exact .here
      | link hname hshort hat hclosed =>
        cases left with
        | zero =>
          rw [resolveFrom_link_zero hname hshort hat (Bool.and_false _)] at h
          cases h
        | succ left =>
          rw [resolveFrom_link_succ hname hshort hat (Bool.and_false _)] at h
          obtain ⟨mid, htarget, hrest⟩ := (ih left hfore.left_le h).split
          exact .link hname hat htarget hrest

theorem node_of_resolveFrom (h : t.resolveFrom true links place segments = .ok (.found q node left)) :
    node = .directory ∨ ∃ content, node = .file content ∧ t.at? q = some (.file content) := by
  induction links using Nat.strongRecOn generalizing place segments with
  | ind links ih =>
    rcases opens_or_stops t links place segments with ⟨mid, less, hopen⟩ |
      ⟨fore, s, rest, mid, less, rfl, hfore, hstop⟩
    · cases hopen.resolveFrom.symm.trans h
      exact .inl rfl
    · rw [hfore.resolveFrom_append] at h
      cases hstop with
      | long hname hlong => cases (resolveFrom_long hname hlong _ _ _).symm.trans h
      | missing hname hshort hat =>
        rw [resolveFrom_missing hname hshort hat] at h
        split_ifs at h
        cases h
      | file hname hshort hat =>
        rw [resolveFrom_file hname hshort hat] at h
        split_ifs at h
        cases h
        exact .inr ⟨_, rfl, hat⟩
      | link hname hshort hat hclosed =>
        cases less with
        | zero =>
          rw [resolveFrom_link_zero hname hshort hat (Bool.and_false _)] at h
          cases h
        | succ less =>
          rw [resolveFrom_link_succ hname hshort hat (Bool.and_false _)] at h
          exact ih less hfore.left_le h

theorem resolveFrom_follow (hnode : ∀ target, node ≠ .link target)
    (h : t.resolveFrom false links place segments = .ok (.found q node left)) :
    t.resolveFrom true links place segments = .ok (.found q node left) := by
  induction links using Nat.strongRecOn generalizing place segments with
  | ind links ih =>
    induction segments generalizing place with
    | nil =>
      rw [resolveFrom_nil] at h ⊢
      exact h
    | cons s rest ihrest =>
      by_cases hvoid : Path.isVoid s = true
      · rw [resolveFrom_void hvoid] at h ⊢
        exact ihrest h
      · by_cases hparent : s = ".."
        · subst hparent
          rw [resolveFrom_parent] at h ⊢
          exact ihrest h
        · have hname : IsName s := ⟨Bool.eq_false_iff.mpr hvoid, hparent⟩
          by_cases hlong : nameLimit < s.utf8ByteSize
          · cases (resolveFrom_long hname hlong _ _ _).symm.trans h
          · cases hat : t.at? (place ++ [s]) with
            | none =>
              rw [resolveFrom_missing hname hlong hat] at h ⊢
              exact h
            | some below =>
              cases below with
              | directory =>
                rw [resolveFrom_directory hname hlong hat] at h ⊢
                exact ihrest h
              | file content =>
                rw [resolveFrom_file hname hlong hat] at h ⊢
                exact h
              | link target =>
                cases rest with
                | nil =>
                  rw [resolveFrom_link_end hname hlong hat] at h
                  cases h
                  exact absurd rfl (hnode target)
                | cons next rest =>
                  cases links with
                  | zero =>
                    rw [resolveFrom_link_zero hname hlong hat rfl] at h
                    cases h
                  | succ links =>
                    rw [resolveFrom_link_succ hname hlong hat rfl] at h
                    rw [resolveFrom_link_succ hname hlong hat (Bool.and_false _)]
                    exact ih links (Nat.lt_succ_self links) h

end FileTree

end Retarget
