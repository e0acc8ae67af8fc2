import Mathlib.Data.List.Induction
import Retarget.Proofs.Files.Spelling
import Retarget.Proofs.Files.Writing

/-!
Making directories. This is a walk that puts directories where nothing is;
whether it succeeds, and what it makes, depends on the steps of a path and not
on how they are spelled, except for a dot at its end. In a tree where every node
is in a directory and under a name, that stays so.
-/

set_option autoImplicit false

namespace Retarget

open Retarget.Path (IsName)

namespace FileTree

variable {t t' t₁ t₂ : FileTree} {links left less : Nat} {place q q' mid names : Place}
  {s name : String} {segments rest front back : List String} {target p : Path} {node : Node}

/-- Every node is in a directory, under a name, and the root is not listed. -/
structure Rooted (t : FileTree) : Prop where
  unlisted : t.nodes[([] : Place)]? = none
  parent : ∀ {q : Place} {name : String} {node : Node}, t.at? (q ++ [name]) = some node →
    t.at? q = some .directory
  named : ∀ {q : Place} {name : String} {node : Node}, t.at? (q ++ [name]) = some node →
    IsName name

def isHoused (t : FileTree) : Place × Node → Bool
  | (q, _) => q ≠ [] && t.at? q.dropLast = some .directory &&
      (!Path.isVoid (q.getLastD "") && q.getLastD "" ≠ "..")

namespace Rooted

theorem of_all (h : t.nodes.toList.all t.isHoused = true) : t.Rooted := by
  have hnode : ∀ {q : Place} {node : Node}, t.nodes[q]? = some node →
      t.isHoused (q, node) = true := fun hat =>
    List.all_eq_true.mp h _ (Std.ExtTreeMap.mem_toList_iff_getElem?_eq_some.mpr hat)
  have hhoused : ∀ {q : Place} {name : String} {node : Node}, t.at? (q ++ [name]) = some node →
      t.at? q = some .directory ∧ IsName name := by
    intro q name node hat
    have hlisted : t.nodes[q ++ [name]]? = some node := by
      cases hq : q ++ [name] with
      | nil => exact absurd hq (append_singleton_ne_nil q name)
      | cons first others =>
        rw [hq] at hat
        exact hat
    have hok := hnode hlisted
    simp only [isHoused, List.dropLast_concat, List.getLastD_concat, Bool.and_eq_true,
      decide_eq_true_eq, Bool.not_eq_true'] at hok
    exact ⟨hok.1.2, hok.2⟩
  refine ⟨?_, fun hat => (hhoused hat).1, fun hat => (hhoused hat).2⟩
  cases hroot : t.nodes[([] : Place)]? with
  | none => rfl
  | some node =>
    have hok := hnode hroot
    simp [isHoused] at hok

theorem ext (ht : t.Rooted) (ht' : t'.Rooted) (h : ∀ q, t.at? q = t'.at? q) : t = t' := by
  obtain ⟨nodes⟩ := t
  obtain ⟨nodes'⟩ := t'
  congr 1
  apply Std.ExtTreeMap.ext_getElem?
  intro q
  cases q with
  | nil => exact ht.unlisted.trans ht'.unlisted.symm
  | cons first others => exact h (first :: others)

theorem none_below (ht : t.Rooted) (h : t.at? q = none) (names : Place) :
    t.at? (q ++ names) = none := by
  induction names generalizing q with
  | nil => rwa [List.append_nil]
  | cons name names ih =>
    have hnext : t.at? (q ++ [name]) = none := by
      cases hnode : t.at? (q ++ [name]) with
      | none => rfl
      | some node => cases h.symm.trans (ht.parent hnode)
    rw [← List.singleton_append, ← List.append_assoc]
    exact ih hnext

theorem directory_above (ht : t.Rooted) (h : t.at? (q ++ names) = some node) (hne : names ≠ []) :
    t.at? q = some .directory := by
  obtain ⟨name, rest, rfl⟩ := List.exists_cons_of_ne_nil hne
  cases hnext : t.at? (q ++ [name]) with
  | some next => exact ht.parent hnext
  | none =>
    have hnone := ht.none_below hnext rest
    rw [List.append_assoc, List.singleton_append, h] at hnone
    cases hnone

private theorem dropLast_directory (ht : t.Rooted) (h : t.at? q = some .directory) :
    t.at? q.dropLast = some .directory := by
  cases q using List.reverseRecOn with
  | nil => rfl
  | append_singleton q name =>
    rw [List.dropLast_concat]
    exact ht.parent h

theorem isName_of_mem (ht : t.Rooted) (h : t.at? (q ++ names) = some node) :
    ∀ name ∈ names, IsName name := by
  intro name hname
  obtain ⟨front, back, rfl⟩ := List.append_of_mem hname
  rw [← List.singleton_append, ← List.append_assoc, ← List.append_assoc] at h
  by_cases hback : back = []
  · subst hback
    rw [List.append_nil] at h
    exact ht.named h
  · exact ht.named (ht.directory_above h hback)

theorem set (ht : t.Rooted) (hq : t.at? q = some .directory) (hname : IsName name)
    (hold : t.at? (q ++ [name]) ≠ some .directory ∨ node = .directory) :
    (t.set (q ++ [name]) node).Rooted where
  unlisted := by
    rw [FileTree.set, Std.ExtTreeMap.getElem?_insert, if_neg]
    · exact ht.unlisted
    · rw [Std.LawfulEqCmp.compare_eq_iff_eq]
      exact append_singleton_ne_nil q name
  parent {r other node'} h := by
    rw [at?_set (append_singleton_ne_nil q name)] at h ⊢
    split_ifs at h with hr
    · obtain ⟨rfl, -⟩ := List.append_inj' hr rfl
      rw [if_neg (by simp), hq]
    · have hparent := ht.parent h
      split_ifs with heq
      · subst heq
        rcases hold with hold | hnode
        · exact absurd hparent hold
        · rw [hnode]
      · exact hparent
  named {r other node'} h := by
    rw [at?_set (append_singleton_ne_nil q name)] at h
    split_ifs at h with hr
    · obtain ⟨-, hlast⟩ := List.append_inj' hr rfl
      exact List.singleton_inj.mp hlast ▸ hname
    · exact ht.named h

theorem erase (ht : t.Rooted) (hq : q ≠ []) (hold : t.at? q ≠ some .directory) :
    (⟨t.nodes.erase q⟩ : FileTree).Rooted where
  unlisted := by
    rw [Std.ExtTreeMap.getElem?_erase, ht.unlisted, ite_self]
  parent {r other node} h := by
    rw [at?_erase hq] at h ⊢
    split_ifs at h
    have hparent := ht.parent h
    rw [if_neg, hparent]
    rintro rfl
    exact hold hparent
  named {r other node} h := by
    rw [at?_erase hq] at h
    split_ifs at h
    exact ht.named h

theorem clear (ht : t.Rooted) (place : Place) : (t.clear place).Rooted where
  unlisted := by
    rw [FileTree.clear, Std.ExtTreeMap.getElem?_filter', ht.unlisted]
    rfl
  parent {r other node} h := by
    rw [at?_clear] at h ⊢
    split_ifs at h with hbelow
    rw [if_neg, ht.parent h]
    rintro ⟨hin, hne⟩
    refine hbelow ⟨hin.trans (List.prefix_append r [other]), ?_⟩
    intro heq
    have hlength := hin.length_le
    rw [← heq, List.length_append, List.length_singleton] at hlength
    omega
  named {r other node} h := by
    rw [at?_clear] at h
    split_ifs at h
    exact ht.named h

theorem directory_of_opens (ht : t.Rooted) (h : t.Opens links place segments q left)
    (hplace : t.at? place = some .directory) : t.at? q = some .directory := by
  induction h with
  | here => exact hplace
  | void _ _ ih => exact ih hplace
  | parent _ ih => exact ih (ht.dropLast_directory hplace)
  | directory _ _ hat _ ih => exact ih hat
  | link _ _ _ _ _ ihtarget ihrest =>
    refine ihrest (ihtarget ?_)
    rw [Path.start]
    split_ifs
    · rfl
    · exact hplace

end Rooted

/-- From the directory at a place the segments lead to the one at `q`, once the directories are
made that are not there; `t'` is the tree with them. -/
inductive Makes : FileTree → Nat → Place → List String → FileTree → Place → Nat → Prop where
  | here {t : FileTree} {links : Nat} {place : Place} : Makes t links place [] t place links
  | void {t t' : FileTree} {links left : Nat} {place q : Place} {s : String} {rest : List String}
      (hvoid : Path.isVoid s = true) (hrest : Makes t links place rest t' q left) :
      Makes t links place (s :: rest) t' q left
  | parent {t t' : FileTree} {links left : Nat} {place q : Place} {rest : List String}
      (hrest : Makes t links place.dropLast rest t' q left) :
      Makes t links place (".." :: rest) t' q left
  | directory {t t' : FileTree} {links left : Nat} {place q : Place} {s : String}
      {rest : List String} (hname : IsName s) (hshort : ¬ nameLimit < s.utf8ByteSize)
      (hat : t.at? (place ++ [s]) = some .directory)
      (hrest : Makes t links (place ++ [s]) rest t' q left) :
      Makes t links place (s :: rest) t' q left
  | missing {t t' : FileTree} {links left : Nat} {place q : Place} {s : String}
      {rest : List String} (hname : IsName s) (hshort : ¬ nameLimit < s.utf8ByteSize)
      (hat : t.at? (place ++ [s]) = none)
      (hrest : Makes (t.set (place ++ [s]) .directory) links (place ++ [s]) rest t' q left) :
      Makes t links place (s :: rest) t' q left
  | link {t t' : FileTree} {links less left : Nat} {place mid q : Place} {s : String}
      {rest : List String} {target : Path} (hname : IsName s)
      (hshort : ¬ nameLimit < s.utf8ByteSize) (hat : t.at? (place ++ [s]) = some (.link target))
      (htarget : t.Opens links (target.start place) target.segments mid less)
      (hrest : Makes t less mid rest t' q left) : Makes t (links + 1) place (s :: rest) t' q left

namespace Makes

theorem append (h : Makes t links place front t₁ mid less) (h' : Makes t₁ less mid back t' q left) :
    Makes t links place (front ++ back) t' q left := by
  induction h with
  | here => exact h'
  | void hvoid _ ih => exact .void hvoid (ih h')
  | parent _ ih => exact .parent (ih h')
  | directory hname hshort hat _ ih => exact .directory hname hshort hat (ih h')
  | missing hname hshort hat _ ih => exact .missing hname hshort hat (ih h')
  | link hname hshort hat htarget _ ih => exact .link hname hshort hat htarget (ih h')

theorem split (h : Makes t links place (front ++ back) t' q left) : ∃ t₁ mid less,
    Makes t links place front t₁ mid less ∧ Makes t₁ less mid back t' q left := by
  induction front generalizing t links place with
  | nil => exact ⟨t, place, links, .here, h⟩
  | cons s front ih =>
    cases h with
    | void hvoid hrest =>
      obtain ⟨t₁, mid, less, hfront, hback⟩ := ih hrest
      exact ⟨t₁, mid, less, .void hvoid hfront, hback⟩
    | parent hrest =>
      obtain ⟨t₁, mid, less, hfront, hback⟩ := ih hrest
      exact ⟨t₁, mid, less, .parent hfront, hback⟩
    | directory hname hshort hat hrest =>
      obtain ⟨t₁, mid, less, hfront, hback⟩ := ih hrest
      exact ⟨t₁, mid, less, .directory hname hshort hat hfront, hback⟩
    | missing hname hshort hat hrest =>
      obtain ⟨t₁, mid, less, hfront, hback⟩ := ih hrest
      exact ⟨t₁, mid, less, .missing hname hshort hat hfront, hback⟩
    | link hname hshort hat htarget hrest =>
      obtain ⟨t₁, mid, less, hfront, hback⟩ := ih hrest
      exact ⟨t₁, mid, less, .link hname hshort hat htarget hfront, hback⟩

theorem of_opens (h : t.Opens links place segments q left) :
    Makes t links place segments t q left := by
  induction h with
  | here => exact .here
  | void hvoid _ ih => exact .void hvoid ih
  | parent _ ih => exact .parent ih
  | directory hname hshort hat _ ih => exact .directory hname hshort hat ih
  | link hname hshort hat htarget _ _ ih => exact .link hname hshort hat htarget ih

theorem unique (h : Makes t links place segments t₁ q left)
    (h' : Makes t links place segments t₂ q' less) : t₁ = t₂ ∧ q = q' ∧ left = less := by
  induction h with
  | here =>
    cases h'
    exact ⟨rfl, rfl, rfl⟩
  | void hvoid _ ih =>
    cases h' with
    | void _ hrest => exact ih hrest
    | parent => cases hvoid
    | directory hname | missing hname | link hname => cases hvoid.symm.trans hname.1
  | parent _ ih =>
    cases h' with
    | void hvoid => cases hvoid
    | parent hrest => exact ih hrest
    | directory hname | missing hname | link hname => exact absurd rfl hname.2
  | directory hname _ hat _ ih =>
    cases h' with
    | void hvoid => cases hvoid.symm.trans hname.1
    | parent => exact absurd rfl hname.2
    | directory _ _ _ hrest => exact ih hrest
    | missing _ _ hat' | link _ _ hat' => cases hat.symm.trans hat'
  | missing hname _ hat _ ih =>
    cases h' with
    | void hvoid => cases hvoid.symm.trans hname.1
    | parent => exact absurd rfl hname.2
    | missing _ _ _ hrest => exact ih hrest
    | directory _ _ hat' | link _ _ hat' => cases hat.symm.trans hat'
  | link hname _ hat htarget _ ih =>
    cases h' with
    | void hvoid => cases hvoid.symm.trans hname.1
    | parent => exact absurd rfl hname.2
    | directory _ _ hat' | missing _ _ hat' => cases hat.symm.trans hat'
    | link _ _ hat' htarget' hrest =>
      cases hat.symm.trans hat'
      obtain ⟨rfl, rfl⟩ := htarget.unique htarget'
      exact ih hrest

theorem adds (h : Makes t links place segments t' q left) : t.Adds t' := by
  induction h with
  | here => exact .refl _
  | void _ _ ih | parent _ ih | directory _ _ _ _ ih | link _ _ _ _ _ ih => exact ih
  | missing _ _ hat _ ih => exact (Adds.set hat).trans ih

theorem opens (h : Makes t links place segments t' q left) :
    t'.Opens links place segments q left := by
  induction h with
  | here => exact .here
  | void hvoid _ ih => exact .void hvoid ih
  | parent _ ih => exact .parent ih
  | directory hname hshort hat hrest ih =>
    exact .directory hname hshort (hrest.adds.at?_of_some hat) ih
  | missing hname hshort hat hrest ih =>
    refine .directory hname hshort (hrest.adds.at?_of_some ?_) ih
    rw [at?_set (append_singleton_ne_nil _ _), if_pos rfl]
  | link hname hshort hat htarget hrest ih =>
    exact .link hname hshort (hrest.adds.at?_of_some hat) (htarget.mono hrest.adds.carries) ih

theorem rooted (h : Makes t links place segments t' q left) (ht : t.Rooted)
    (hplace : t.at? place = some .directory) : t'.Rooted := by
  induction h with
  | here => exact ht
  | void _ _ ih => exact ih ht hplace
  | parent _ ih => exact ih ht (ht.dropLast_directory hplace)
  | directory _ _ hat _ ih => exact ih ht hat
  | missing hname _ hat _ ih =>
    refine ih (ht.set hplace hname (.inr rfl)) ?_
    rw [at?_set (append_singleton_ne_nil _ _), if_pos rfl]
  | link _ _ _ htarget _ ih =>
    refine ih ht (ht.directory_of_opens htarget ?_)
    rw [Path.start]
    split_ifs
    · rfl
    · exact hplace

private theorem cons_void (hvoid : Path.isVoid s = true) :
    Makes t links place (s :: rest) t' q left ↔
    Makes t links place rest t' q left := by
  refine ⟨fun h => ?_, .void hvoid⟩
  cases h with
  | void _ hrest => exact hrest
  | parent => cases hvoid
  | directory hname | missing hname | link hname => cases hvoid.symm.trans hname.1

theorem iff_filter : Makes t links place segments t' q left ↔
    Makes t links place (segments.filter fun s => !Path.isVoid s) t' q left := by
  induction segments generalizing t links place with
  | nil => rfl
  | cons s rest ih =>
    cases hvoid : Path.isVoid s with
    | true =>
      rw [cons_void hvoid, List.filter_cons_of_neg (by simp [hvoid])]
      exact ih
    | false =>
      rw [List.filter_cons_of_pos (by simp [hvoid])]
      constructor
      · intro h
        cases h with
        | void hvoid' => cases hvoid'.symm.trans hvoid
        | parent hrest => exact .parent (ih.mp hrest)
        | directory hname hshort hat hrest => exact .directory hname hshort hat (ih.mp hrest)
        | missing hname hshort hat hrest => exact .missing hname hshort hat (ih.mp hrest)
        | link hname hshort hat htarget hrest =>
          exact .link hname hshort hat htarget (ih.mp hrest)
      · intro h
        cases h with
        | void hvoid' => cases hvoid'.symm.trans hvoid
        | parent hrest => exact .parent (ih.mpr hrest)
        | directory hname hshort hat hrest => exact .directory hname hshort hat (ih.mpr hrest)
        | missing hname hshort hat hrest => exact .missing hname hshort hat (ih.mpr hrest)
        | link hname hshort hat htarget hrest =>
          exact .link hname hshort hat htarget (ih.mpr hrest)

theorem congr_filter (h : segments.filter (fun s => !Path.isVoid s) =
      front.filter (fun s => !Path.isVoid s)) :
    Makes t links place segments t' q left ↔ Makes t links place front t' q left := by
  rw [iff_filter, h, ← iff_filter]

end Makes

/-- The segments do not end with a void one, unless they are all void. -/
def Firm (segments : List String) : Prop :=
  ∀ s, segments.getLast? = some s → Path.isVoid s = true → ∀ r ∈ segments, Path.isVoid r = true

private theorem Firm.tail (h : Firm (s :: rest)) : Firm rest := by
  intro last hlast hvoid r hr
  refine h last ?_ hvoid r (List.mem_cons_of_mem s hr)
  rw [List.getLast?_cons, hlast]
  rfl

private theorem Firm.eq_nil (h : Firm (s :: rest)) (hs : Path.isVoid s = false)
    (hrest : rest.all Path.isVoid = true) : rest = [] := by
  by_contra hne
  have hlast : (s :: rest).getLast? = some (rest.getLast hne) := by
    rw [List.getLast?_cons, List.getLast?_eq_some_getLast hne]
    rfl
  have hvoid := List.all_eq_true.mp hrest _ (List.getLast_mem hne)
  cases hs.symm.trans (h _ hlast hvoid s List.mem_cons_self)

theorem makes_of_makeAlong (h : t.makeAlong segments place links = (t', .ok ())) :
    ∃ q left, Makes t links place segments t' q left := by
  fun_induction makeAlong segments place links t with
  | case1 place links t =>
    cases h
    exact ⟨place, links, .here⟩
  | case2 s rest place links t hvoid ih =>
    obtain ⟨q, left, hrest⟩ := ih h
    exact ⟨q, left, .void hvoid hrest⟩
  | case3 rest place links t hvoid ih =>
    obtain ⟨q, left, hrest⟩ := ih h
    exact ⟨q, left, .parent hrest⟩
  | case6 s rest place links t hvoid hparent hlong hnone hdot ih =>
    obtain ⟨q, left, hrest⟩ := ih h
    exact ⟨q, left, .missing ⟨Bool.eq_false_iff.mpr hvoid, hparent⟩ hlong hnone hrest⟩
  | case7 s rest place links t hvoid hparent hlong hat ih =>
    obtain ⟨q, left, hrest⟩ := ih h
    exact ⟨q, left, .directory ⟨Bool.eq_false_iff.mpr hvoid, hparent⟩ hlong hat hrest⟩
  | case10 s rest place t hvoid hparent hlong target links hat mid less htarget ih =>
    obtain ⟨q, left, hrest⟩ := ih h
    exact ⟨q, left, .link ⟨Bool.eq_false_iff.mpr hvoid, hparent⟩ hlong hat
      (opens_of_resolveFrom htarget) hrest⟩
  | case4 | case5 | case8 | case9 | case11 => cases h

private theorem makeAlong_of_makes (hfirm : Firm segments)
    (h : Makes t links place segments t' q left) :
    t.makeAlong segments place links = (t', .ok ()) := by
  induction h with
  | here => rfl
  | void hvoid _ ih =>
    unfold makeAlong
    rw [if_pos hvoid]
    exact ih hfirm.tail
  | parent _ ih =>
    have hvoid : ¬ Path.isVoid ".." = true := by decide
    unfold makeAlong
    rw [if_neg hvoid, if_pos rfl]
    exact ih hfirm.tail
  | directory hname hshort hat _ ih =>
    unfold makeAlong
    rw [hname.1, if_neg Bool.false_ne_true, if_neg hname.2, if_neg hshort, hat]
    exact ih hfirm.tail
  | @missing t t' links left place q s rest hname hshort hat _ ih =>
    have hdot : ¬ (rest.all Path.isVoid && rest.contains ".") = true := by
      intro hdot
      obtain ⟨hrest, hmem⟩ := Bool.and_eq_true_iff.mp hdot
      rw [hfirm.eq_nil hname.1 hrest] at hmem
      cases hmem
    unfold makeAlong
    rw [hname.1, if_neg Bool.false_ne_true, if_neg hname.2, if_neg hshort, hat]
    dsimp only
    rw [if_neg hdot]
    exact ih hfirm.tail
  | link hname hshort hat htarget _ ih =>
    unfold makeAlong
    rw [hname.1, if_neg Bool.false_ne_true, if_neg hname.2, if_neg hshort, hat]
    dsimp only
    rw [htarget.resolveFrom]
    exact ih hfirm.tail

/-- How a walk ends that finds nothing because something is not there. -/
inductive Misses : Except Trouble Spot → Prop where
  | notFound : Misses (.error .notFound)
  | vacant {directory : Place} {name : String} {slash : Bool} :
      Misses (.ok (.vacant directory name slash))

private theorem Makes.resolveFrom (h : Makes t links place segments t' q left) :
    (∃ q left, t.resolveFrom true links place segments = .ok (.found q .directory left)) ∨
      Misses (t.resolveFrom true links place segments) := by
  induction h with
  | @here t links place => exact .inl ⟨place, links, resolveFrom_nil t true links place⟩
  | void hvoid _ ih =>
    rw [resolveFrom_void hvoid]
    exact ih
  | parent _ ih =>
    rw [resolveFrom_parent]
    exact ih
  | directory hname hshort hat _ ih =>
    rw [resolveFrom_directory hname hshort hat]
    exact ih
  | @missing t t' links left place q s rest hname hshort hat _ ih =>
    rw [resolveFrom_missing hname hshort hat]
    split_ifs
    · exact .inr .vacant
    · exact .inr .notFound
  | link hname hshort hat htarget _ ih =>
    rw [resolveFrom_link_succ hname hshort hat (Bool.and_false _), htarget.resolveFrom_append]
    exact ih

/-- The directories of a path can be made exactly if the path can be looked for and the walk along
its segments can make them. -/
theorem makeDirectories_ok_iff (hfirm : Firm p.segments) :
    t.makeDirectories p = (t', .ok ()) ↔ isSound p = true ∧ isOverlong p = false ∧
      ∃ q left, Makes t linkLimit [] p.segments t' q left := by
  rw [makeDirectories, makeDirectoriesIn]
  by_cases hempty : p.isEmpty = true
  · have hnothing : isSound p = true ∧ isOverlong p = false ∧
        Makes t linkLimit [] p.segments t [] linkLimit := by
      obtain ⟨segments⟩ := p
      rcases Path.isEmpty_iff.mp hempty with hnil | hnil
      · subst hnil
        exact ⟨rfl, rfl, .here⟩
      · subst hnil
        exact ⟨rfl, rfl, .void rfl .here⟩
    obtain ⟨hsound, hlong, hmakes⟩ := hnothing
    rw [if_pos hempty]
    constructor
    · intro h
      cases h
      exact ⟨hsound, hlong, [], linkLimit, hmakes⟩
    · rintro ⟨-, -, q, left, h⟩
      rw [(hmakes.unique h).1]
  · rw [if_neg hempty, resolveIn, Path.start_root]
    cases hsound : isSound p with
    | false => simp
    | true =>
      cases hlong : isOverlong p with
      | true => simp [hempty]
      | false =>
        simp only [Bool.not_true, Bool.false_eq_true, if_false, hempty, true_and]
        constructor
        · intro h
          split at h
          · next q left hfound =>
            cases h
            exact ⟨q, left, .of_opens (opens_of_resolveFrom hfound)⟩
          · cases h
          · exact makes_of_makeAlong h
          · exact makes_of_makeAlong h
          · cases h
        · rintro ⟨q, left, h⟩
          rcases h.resolveFrom with ⟨q', left', hfound⟩ | hmisses
          · rw [hfound, ((Makes.of_opens (opens_of_resolveFrom hfound)).unique h).1]
          · generalize t.resolveFrom true linkLimit [] p.segments = result at hmisses ⊢
            cases hmisses with
            | notFound => exact makeAlong_of_makes hfirm h
            | vacant => exact makeAlong_of_makes hfirm h

section Missing

theorem Rooted.none_of_misses (ht : t.Rooted)
    (hlinks : ∀ (q : Place) (target : Path), t.at? q = some (.link target) → ".." ∉ target.segments)
    (hdown : ".." ∉ segments) (hmisses : Misses (t.resolveFrom true links place segments))
    (h : t.Reaches place segments q) : t.at? q = none := by
  induction links using Nat.strongRecOn generalizing place segments with
  | ind links ih =>
    rcases opens_or_stops t links place segments with ⟨mid, left, hopen⟩ |
      ⟨front, s, rest, mid, left, rfl, hfront, hstop⟩
    · rw [hopen.resolveFrom] at hmisses
      cases hmisses
    · rw [hfront.resolveFrom_append] at hmisses
      have hrest : ".." ∉ rest := fun hmem =>
        hdown (List.mem_append_right front (List.mem_cons_of_mem s hmem))
      obtain ⟨mid', hmid, hback⟩ := h.split
      rw [hmid.unique hfront.reaches] at hback
      cases hstop with
      | long hname hlong =>
        rw [resolveFrom_long hname hlong] at hmisses
        cases hmisses
      | missing hname hshort hat =>
        -- nothing is below a missing name, and without a parent the rest leads there
        have hbelow := ht.none_below hat
        cases hback with
        | link _ hlink => cases hat.symm.trans hlink
        | pass _ hback =>
          rw [Path.step_name hname] at hback
          have hfree : ∀ names target, t.at? (mid ++ [s] ++ names) ≠ some (.link target) := by
            intro names target hlink
            cases (hbelow names).symm.trans hlink
          obtain ⟨names, rfl⟩ := hback.descends hfree hrest
          exact hbelow names
      | file hname hshort hat =>
        rw [resolveFrom_file hname hshort hat] at hmisses
        split_ifs at hmisses
        all_goals cases hmisses
      | link hname hshort hat hclosed =>
        rename_i target
        cases left with
        | zero =>
          rw [resolveFrom_link_zero hname hshort hat (Bool.and_false _)] at hmisses
          cases hmisses
        | succ left =>
          rw [resolveFrom_link_succ hname hshort hat (Bool.and_false _)] at hmisses
          cases hback with
          | pass hlink => exact absurd hat (hlink hname target)
          | link _ hat' htarget hback =>
            cases hat.symm.trans hat'
            have hdown' : ".." ∉ target.segments ++ rest := by
              intro hmem
              rcases List.mem_append.mp hmem with hmem | hmem
              · exact hlinks _ target hat hmem
              · exact hrest hmem
            exact ih left hfront.left_le hdown' hmisses (htarget.append hback)

theorem misses_of_lookup (hempty : p.isEmpty = false) (h : t.lookup true p = .error .notFound) :
    Misses (t.resolveFrom true linkLimit [] p.segments) := by
  have hfrom : t.fromRoot true p.segments = t.resolveFrom true linkLimit [] p.segments := rfl
  rw [← hfrom]
  rcases missing_of_lookup hempty h with hmissing | ⟨directory, name, slash, hmissing⟩
  · rw [hmissing]
    exact .notFound
  · rw [hmissing]
    exact .vacant

end Missing

end FileTree

end Retarget
