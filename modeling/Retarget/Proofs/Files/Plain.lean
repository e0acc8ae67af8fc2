import Mathlib.Tactic.Common
import Retarget.FileTree

/-!
Plain trees: files and directories, no links, every node in a directory. In a
plain tree the segments of a path lead to the place that they name, or nowhere;
and segments without `..` lead nowhere only if nothing is at their place.
-/

set_option autoImplicit false

namespace Retarget

namespace Path

def step (place : Place) (segment : String) : Place :=
  if isVoid segment then place
  else if segment = ".." then place.dropLast
  else place ++ [segment]

def walk (place : Place) (segments : List String) : Place := segments.foldl step place

def place (p : Path) : Place := walk [] p.segments

variable {place : Place} {segment : String} {segments front back : List String}

theorem walk_append (place : Place) (front back : List String) :
    walk place (front ++ back) = walk (walk place front) back :=
  List.foldl_append

theorem walk_void (h : ∀ segment ∈ segments, isVoid segment = true) : walk place segments = place := by
  induction segments with
  | nil => rfl
  | cons segment rest ih =>
    have hfirst := h segment List.mem_cons_self
    have hrest := ih fun s hs => h s (List.mem_cons_of_mem _ hs)
    rw [walk, List.foldl_cons, step, if_pos hfirst]
    exact hrest

/-- A segment that is the name of something. -/
def IsName (segment : String) : Prop := isVoid segment = false ∧ segment ≠ ".."

theorem step_name (h : IsName segment) : step place segment = place ++ [segment] := by
  rw [step, h.1, if_neg Bool.false_ne_true, if_neg h.2]

theorem walk_names (h : ∀ segment ∈ segments, IsName segment) :
    walk place segments = place ++ segments := by
  induction segments generalizing place with
  | nil => exact (List.append_nil place).symm
  | cons segment rest ih =>
    have hfirst := h segment List.mem_cons_self
    have hrest := fun s hs => h s (List.mem_cons_of_mem segment hs)
    rw [walk, List.foldl_cons, step_name hfirst]
    refine (ih hrest).trans ?_
    rw [List.append_assoc, List.singleton_append]

theorem walk_of_no_parent (h : ".." ∉ segments) : walk place segments = place ++ walk [] segments := by
  induction segments generalizing place with
  | nil => exact (List.append_nil place).symm
  | cons segment rest ih =>
    have hne : segment ≠ ".." := fun heq => h (heq ▸ List.mem_cons_self)
    have hrest : ".." ∉ rest := fun hmem => h (List.mem_cons_of_mem segment hmem)
    show walk (step place segment) rest = place ++ walk (step [] segment) rest
    have hfirst : walk (step [] segment) rest = step [] segment ++ walk [] rest := ih hrest
    rw [ih hrest, hfirst, ← List.append_assoc]
    congr 1
    by_cases hvoid : isVoid segment = true
    · rw [step, step, if_pos hvoid, if_pos hvoid, List.append_nil]
    · have hname : IsName segment := ⟨Bool.eq_false_iff.mpr hvoid, hne⟩
      rw [step_name hname, step_name hname, List.nil_append]

end Path

open Retarget.Path (walk IsName)

namespace FileTree

variable {t t' : FileTree} {q place names : Place} {node : Node} {name : String}

theorem at?_cons (t : FileTree) (name : String) (names : Place) :
    t.at? (name :: names) = t.nodes[name :: names]? := rfl

theorem at?_set (hq : place ≠ []) (node : Node) (t : FileTree) (q : Place) :
    (t.set place node).at? q = if q = place then some node else t.at? q := by
  cases q with
  | nil => rw [if_neg (Ne.symm hq)]; rfl
  | cons name names =>
    rw [at?_cons, at?_cons, set, Std.ExtTreeMap.getElem?_insert]
    by_cases heq : name :: names = place
    · rw [if_pos heq, if_pos (Std.LawfulEqCmp.compare_eq_iff_eq.mpr heq.symm)]
    · rw [if_neg heq, if_neg fun h => heq (Std.LawfulEqCmp.compare_eq_iff_eq.mp h).symm]

/-- A tree of files and directories. -/
structure Plain (t : FileTree) : Prop where
  noLink : ∀ {q : Place} {target : Path}, t.at? q ≠ some (.link target)
  parent : ∀ {q : Place} {name : String} {node : Node}, t.at? (q ++ [name]) = some node →
    t.at? q = some .directory
  named : ∀ {q : Place} {name : String} {node : Node}, t.at? (q ++ [name]) = some node →
    IsName name

theorem mem_toList_of_at? (hq : q ≠ []) (h : t.at? q = some node) : (q, node) ∈ t.nodes.toList := by
  rw [Std.ExtTreeMap.mem_toList_iff_getElem?_eq_some]
  cases q with
  | nil => exact absurd rfl hq
  | cons name names => exact h

def isSettled (t : FileTree) : Place × Node → Bool
  | (_, .link _) => false
  | (q, _) => t.at? q.dropLast = some .directory &&
      (!Path.isVoid (q.getLastD "") && q.getLastD "" ≠ "..")

namespace Plain

theorem of_all (h : t.nodes.toList.all t.isSettled = true) : t.Plain := by
  have hnode : ∀ {q : Place} {node : Node}, t.at? q = some node → q ≠ [] →
      t.isSettled (q, node) = true := fun hat hq =>
    List.all_eq_true.mp h _ (mem_toList_of_at? hq hat)
  have hlink : ∀ {q : Place} {target : Path}, t.at? q ≠ some (.link target) := by
    intro q target hat
    by_cases hq : q = []
    · rw [hq] at hat
      cases hat
    · cases hnode hat hq
  have hsettled : ∀ {q : Place} {name : String} {node : Node}, t.at? (q ++ [name]) = some node →
      t.at? q = some .directory ∧ IsName name := by
    intro q name node hat
    have hok := hnode hat (by simp)
    cases node with
    | link target => exact absurd hat hlink
    | directory | file content =>
      simp only [isSettled, List.dropLast_concat, List.getLastD_concat, Bool.and_eq_true,
        decide_eq_true_eq, Bool.not_eq_true'] at hok
      exact hok
  exact ⟨hlink, fun hat => (hsettled hat).1, fun hat => (hsettled hat).2⟩

theorem parent_of_ne (ht : t.Plain) (h : t.at? q = some node) (hq : q ≠ []) :
    t.at? q.dropLast = some .directory := by
  rw [← List.dropLast_concat_getLast hq] at h
  exact ht.parent h

theorem none_below (ht : t.Plain) (h : t.at? q = none) (names : Place) :
    t.at? (q ++ names) = none := by
  induction names generalizing q with
  | nil => rwa [List.append_nil]
  | cons name names ih =>
    have hnext : t.at? (q ++ [name]) = none := by
      cases hnode : t.at? (q ++ [name]) with
      | none => rfl
      | some node => cases h.symm.trans (ht.parent hnode)
    rw [← List.singleton_append, ← List.append_assoc]
    exact ih hnext

theorem directory_of_below (ht : t.Plain)
    (h : t.at? (q ++ name :: names) = some node) : t.at? q = some .directory := by
  cases hnext : t.at? (q ++ [name]) with
  | none =>
    have hnone := ht.none_below hnext names
    rw [List.append_assoc, List.singleton_append, h] at hnone
    cases hnone
  | some next => exact ht.parent hnext

theorem isName_of_mem (ht : t.Plain) (h : t.at? (q ++ names) = some node) :
    ∀ name ∈ names, IsName name := by
  intro name hname
  obtain ⟨front, back, rfl⟩ := List.append_of_mem hname
  rw [← List.singleton_append, ← List.append_assoc, ← List.append_assoc] at h
  cases hnext : t.at? (q ++ front ++ [name]) with
  | none =>
    rw [ht.none_below hnext back] at h
    cases h
  | some next => exact ht.named hnext

theorem dropLast_directory (ht : t.Plain) (h : t.at? q = some .directory) :
    t.at? q.dropLast = some .directory := by
  by_cases hq : q = []
  · subst hq
    rfl
  · exact ht.parent_of_ne h hq

end Plain

variable {follow : Bool} {links left : Nat} {jump : Place → List String → Except Trouble Spot}
  {node' : Node} {segments front back : List String} {spot : Spot}

/-- What can be found of a place in a plain tree. -/
inductive Leads (t : FileTree) (target : Place) (links : Nat) : Spot → Prop where
  | found {node : Node} (h : t.at? target = some node) : Leads t target links (.found target node links)
  | vacant {q : Place} {name : String} {slash : Bool} (hq : q ++ [name] = target)
      (hdirectory : t.at? q = some .directory) (hnone : t.at? target = none) (hname : IsName name) :
      Leads t target links (.vacant q name slash)

inductive FirstStep (t : FileTree) (descend : Place → Node → List String → Except Trouble Spot)
    (place : Place) (node : Node) (segment : String) : Prop where
  | blocked (h : ∀ rest, descend place node (segment :: rest) = .error .notDirectory)
  | void (hnode : node = .directory) (hvoid : Path.isVoid segment = true)
      (h : ∀ rest, descend place node (segment :: rest) = descend place node rest)
  | parent (hnode : node = .directory) (hvoid : Path.isVoid segment = false) (hparent : segment = "..")
      (h : ∀ rest, descend place node (segment :: rest) = descend place.dropLast .directory rest)
  | long (h : ∀ rest, descend place node (segment :: rest) = .error .nameTooLong)
  | below {node' : Node} (hnode : node = .directory) (hname : IsName segment)
      (hlong : ¬ nameLimit < segment.utf8ByteSize)
      (hbelow : t.at? (place ++ [segment]) = some node')
      (h : ∀ rest, descend place node (segment :: rest) = descend (place ++ [segment]) node' rest)
  | missing (hnode : node = .directory) (hname : IsName segment)
      (hnone : t.at? (place ++ [segment]) = none)
      (h : ∀ rest, descend place node (segment :: rest) = if rest.all (· = "") then
        .ok (.vacant place segment (!rest.isEmpty)) else .error .notFound)

private theorem firstStep (ht : t.Plain) (follow : Bool) (links : Nat)
    (jump : Place → List String → Except Trouble Spot) (place : Place) (node : Node)
    (segment : String) : FirstStep t (t.descend follow links jump) place node segment := by
  by_cases hnode : node = .directory
  · by_cases hvoid : Path.isVoid segment = true
    · exact .void hnode hvoid fun rest => by rw [descend, if_pos hnode, if_pos hvoid]
    · have hvoid' : Path.isVoid segment = false := Bool.eq_false_iff.mpr hvoid
      by_cases hparent : segment = ".."
      · exact .parent hnode hvoid' hparent fun rest => by
          rw [descend, if_pos hnode, if_neg hvoid, if_pos hparent]
      · have hname : IsName segment := ⟨hvoid', hparent⟩
        by_cases hlong : nameLimit < segment.utf8ByteSize
        · exact .long fun rest => by
            rw [descend, if_pos hnode, if_neg hvoid, if_neg hparent, if_pos hlong]
        · cases hbelow : t.at? (place ++ [segment]) with
          | none =>
            refine .missing hnode hname hbelow fun rest => ?_
            rw [descend, if_pos hnode, if_neg hvoid, if_neg hparent, if_neg hlong, hbelow]
          | some below =>
            refine .below hnode hname hlong hbelow fun rest => ?_
            rw [descend, if_pos hnode, if_neg hvoid, if_neg hparent, if_neg hlong, hbelow]
            cases below with
            | link target => exact absurd hbelow ht.noLink
            | directory => rfl
            | file content => rfl
  · exact .blocked fun rest => by rw [descend, if_neg hnode]

private theorem walk_cons (place : Place) (segment : String) (rest : List String) :
    walk place (segment :: rest) = walk (Path.step place segment) rest := rfl

theorem leads_of_descend (ht : t.Plain) (hnode : t.at? place = some node)
    (h : t.descend follow links jump place node segments = .ok spot) :
    t.Leads (walk place segments) links spot := by
  induction segments generalizing place node with
  | nil =>
    cases h
    exact .found hnode
  | cons segment rest ih =>
    rw [walk_cons]
    cases firstStep ht follow links jump place node segment with
    | blocked heq => cases (heq rest).symm.trans h
    | long heq => cases (heq rest).symm.trans h
    | void hdirectory hvoid heq =>
      rw [Path.step, if_pos hvoid]
      exact ih hnode ((heq rest).symm.trans h)
    | parent hdirectory hvoid hparent heq =>
      rw [Path.step, hvoid, if_neg Bool.false_ne_true, if_pos hparent]
      exact ih (ht.dropLast_directory (hdirectory ▸ hnode)) ((heq rest).symm.trans h)
    | below hdirectory hname _ hbelow heq =>
      rw [Path.step_name hname]
      exact ih hbelow ((heq rest).symm.trans h)
    | missing hdirectory hname hnone heq =>
      rw [heq rest] at h
      split_ifs at h with hslashes
      cases h
      have hempty : ∀ s ∈ rest, Path.isVoid s = true := by
        intro s hs
        have hs := of_decide_eq_true (List.all_eq_true.mp hslashes s hs)
        rw [hs]
        rfl
      rw [Path.step_name hname, Path.walk_void hempty]
      exact .vacant rfl (hdirectory ▸ hnode) hnone hname

theorem descend_append (ht : t.Plain)
    (h : t.descend follow links jump place node front = .ok (.found q node' left)) :
    t.descend follow links jump place node (front ++ back) =
      t.descend follow links jump q node' back := by
  induction front generalizing place node with
  | nil =>
    cases h
    rfl
  | cons segment rest ih =>
    rw [List.cons_append]
    cases firstStep ht follow links jump place node segment with
    | blocked heq => cases (heq rest).symm.trans h
    | long heq => cases (heq rest).symm.trans h
    | void _ _ heq => exact (heq _).trans (ih ((heq rest).symm.trans h))
    | parent _ _ _ heq => exact (heq _).trans (ih ((heq rest).symm.trans h))
    | below _ _ _ _ heq => exact (heq _).trans (ih ((heq rest).symm.trans h))
    | missing _ _ _ heq =>
      rw [heq rest] at h
      split_ifs at h
      cases h

theorem descend_front (ht : t.Plain)
    (hback : back.all (· = "") = false ∨ ∃ q node left, spot = .found q node left)
    (h : t.descend follow links jump place node (front ++ back) = .ok spot) :
    ∃ q node', t.descend follow links jump place node front = .ok (.found q node' links) := by
  induction front generalizing place node with
  | nil => exact ⟨place, node, rfl⟩
  | cons segment rest ih =>
    rw [List.cons_append] at h
    cases firstStep ht follow links jump place node segment with
    | blocked heq => cases (heq _).symm.trans h
    | long heq => cases (heq _).symm.trans h
    | void _ _ heq =>
      rw [heq rest]
      exact ih ((heq _).symm.trans h)
    | parent _ _ _ heq =>
      rw [heq rest]
      exact ih ((heq _).symm.trans h)
    | below _ _ _ _ heq =>
      rw [heq rest]
      exact ih ((heq _).symm.trans h)
    | missing _ _ _ heq =>
      rw [heq] at h
      rcases hback with hback | ⟨q, node', left, rfl⟩
      · rw [List.all_append, hback, Bool.and_false, if_neg Bool.false_ne_true] at h
        cases h
      · split_ifs at h
        cases h

theorem none_of_descend (ht : t.Plain) (hsegments : ".." ∉ segments)
    (h : t.descend follow links jump place node segments = .error .notFound ∨
      ∃ q name slash, t.descend follow links jump place node segments = .ok (.vacant q name slash)) :
    t.at? (walk place segments) = none := by
  induction segments generalizing place node with
  | nil => rcases h with h | ⟨q, name, slash, h⟩ <;> cases h
  | cons segment rest ih =>
    have hrest : ".." ∉ rest := fun hmem => hsegments (List.mem_cons_of_mem segment hmem)
    rw [walk_cons]
    cases firstStep ht follow links jump place node segment with
    | blocked heq =>
      rw [heq rest] at h
      rcases h with h | ⟨q, name, slash, h⟩ <;> cases h
    | long heq =>
      rw [heq rest] at h
      rcases h with h | ⟨q, name, slash, h⟩ <;> cases h
    | void _ hvoid heq =>
      rw [Path.step, if_pos hvoid]
      exact ih hrest (heq rest ▸ h)
    | parent _ _ hparent _ => exact absurd (hparent ▸ List.mem_cons_self) hsegments
    | below _ hname _ _ heq =>
      rw [Path.step_name hname]
      exact ih hrest (heq rest ▸ h)
    | missing _ hname hnone _ =>
      rw [Path.step_name hname, Path.walk_of_no_parent hrest]
      exact ht.none_below hnone _

theorem directory_of_descend (ht : t.Plain)
    (h : t.descend follow links jump place node segments = .ok (.found q .directory left)) :
    node = .directory := by
  cases segments with
  | nil =>
    cases h
    rfl
  | cons segment rest =>
    cases firstStep ht follow links jump place node segment with
    | blocked heq => cases (heq rest).symm.trans h
    | long heq => cases (heq rest).symm.trans h
    | void hnode | parent hnode | below hnode | missing hnode => exact hnode

theorem descend_mono {follow' : Bool} {links' : Nat}
    {jump' : Place → List String → Except Trouble Spot} (ht : t.Plain)
    (hkept : ∀ {q : Place}, ".." ∈ segments ∨ q <+: walk place segments →
      t.at? q = some .directory → t'.at? q = some .directory)
    (h : t.descend follow links jump place node segments = .ok (.found q .directory left)) :
    t'.descend follow' links' jump' place node segments = .ok (.found q .directory links') := by
  induction segments generalizing place node with
  | nil =>
    cases h
    rfl
  | cons segment rest ih =>
    cases firstStep ht follow links jump place node segment with
    | blocked heq => cases (heq rest).symm.trans h
    | long heq => cases (heq rest).symm.trans h
    | void hnode hvoid heq =>
      have hstep : Path.step place segment = place := by rw [Path.step, if_pos hvoid]
      rw [descend, if_pos hnode, if_pos hvoid]
      refine ih (fun hq => hkept ?_) ((heq rest).symm.trans h)
      rw [walk_cons, hstep]
      exact hq.imp_left (List.mem_cons_of_mem segment)
    | parent hnode hvoid hparent heq =>
      rw [descend, if_pos hnode, hvoid, if_neg Bool.false_ne_true, if_pos hparent]
      exact ih (fun _ => hkept (.inl (hparent ▸ List.mem_cons_self))) ((heq rest).symm.trans h)
    | below hnode hname hlong hbelow heq =>
      have hrest := (heq rest).symm.trans h
      have hdirectory := directory_of_descend ht hrest
      subst hdirectory
      have hon : ".." ∈ segment :: rest ∨ place ++ [segment] <+: walk place (segment :: rest) := by
        by_cases hparent : ".." ∈ rest
        · exact .inl (List.mem_cons_of_mem segment hparent)
        · right
          rw [walk_cons, Path.step_name hname, Path.walk_of_no_parent hparent]
          exact List.prefix_append _ _
      rw [descend, if_pos hnode, hname.1, if_neg Bool.false_ne_true, if_neg hname.2, if_neg hlong,
        hkept hon hbelow]
      refine ih (fun hq => hkept ?_) hrest
      rw [walk_cons, Path.step_name hname]
      exact hq.imp_left (List.mem_cons_of_mem segment)
    | missing _ _ _ heq =>
      rw [heq rest] at h
      split_ifs at h
      cases h

end FileTree

end Retarget
