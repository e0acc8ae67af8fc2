import Retarget.Proofs.Files.Storing

/-!
Files that stay where they are found, and files that are taken away. A file is
found under its path as long as it is there and no directory and no link on the
way is lost. Below a directory without links, a path of names leads to the place
that it spells or misses it, and what can be removed there is a file.
-/

set_option autoImplicit false

namespace Retarget.FileTree

open Retarget.Path (IsName)

variable {t t' : FileTree} {follow : Bool} {links left : Nat} {b q place : Place}
  {segments : List String} {base p : Path} {content : Bytes} {node : Node}

private theorem resolveFrom_of_carries (hcarries : t.Carries t')
    (hq : t'.at? q = some (.file content))
    (h : t.resolveFrom true links place segments = .ok (.found q (.file content) left)) :
    t'.resolveFrom true links place segments = .ok (.found q (.file content) left) := by
  induction links using Nat.strongRecOn generalizing place segments with
  | ind links ih =>
    rcases opens_or_stops t links place segments with ⟨mid, less, hopen⟩ |
      ⟨fore, s, rest, mid, less, rfl, hfore, hstop⟩
    · cases hopen.resolveFrom.symm.trans h
    · rw [hfore.resolveFrom_append] at h
      rw [(hfore.mono hcarries).resolveFrom_append]
      cases hstop with
      | long hname hlong => cases (resolveFrom_long hname hlong _ _ _).symm.trans h
      | missing hname hshort hat =>
        rw [resolveFrom_missing hname hshort hat] at h
        split_ifs at h
        cases h
      | file hname hshort hat =>
        rw [resolveFrom_file hname hshort hat] at h
        split_ifs at h with hrest
        cases h
        rw [resolveFrom_file hname hshort hq, if_pos hrest]
      | link hname hshort hat hclosed =>
        cases less with
        | zero =>
          rw [resolveFrom_link_zero hname hshort hat (Bool.and_false _)] at h
          cases h
        | succ less =>
          rw [resolveFrom_link_succ hname hshort hat (Bool.and_false _)] at h
          rw [resolveFrom_link_succ hname hshort (hcarries.link hat) (Bool.and_false _)]
          exact ih less hfore.left_le h

theorem lookup_of_carries (hcarries : t.Carries t') (hq : t'.at? q = some (.file content))
    (h : t.lookup true p = .ok (q, .file content)) : t'.lookup true p = .ok (q, .file content) := by
  rw [lookup, lookupIn, resolveIn, Path.start_root] at h ⊢
  split_ifs at h ⊢
  cases hspot : t.resolveFrom true linkLimit [] p.segments with
  | error trouble =>
    rw [hspot] at h
    cases h
  | ok spot =>
    rw [hspot] at h
    cases spot with
    | found place node left =>
      cases h
      rw [resolveFrom_of_carries hcarries hq hspot]
    | vacant => cases h

section Looked

theorem lookup_follow (hnode : ∀ target, node ≠ .link target)
    (h : t.lookup false p = .ok (q, node)) : t.lookup true p = .ok (q, node) := by
  rw [lookup, lookupIn, resolveIn, Path.start_root] at h ⊢
  split_ifs at h ⊢
  cases hspot : t.resolveFrom false linkLimit [] p.segments with
  | error trouble =>
    rw [hspot] at h
    cases h
  | ok spot =>
    rw [hspot] at h
    cases spot with
    | found place found left =>
      cases h
      rw [resolveFrom_follow hnode hspot]
    | vacant => cases h

theorem node_of_lookup (h : t.lookup true p = .ok (q, node)) :
    node = .directory ∨ ∃ content, node = .file content ∧ t.at? q = some (.file content) := by
  rw [lookup, lookupIn, ← resolve] at h
  cases hspot : t.resolve true p with
  | error trouble =>
    rw [hspot] at h
    cases h
  | ok spot =>
    rw [hspot] at h
    rw [resolve, resolveIn, Path.start_root] at hspot
    split_ifs at hspot
    cases spot with
    | found place found left =>
      cases h
      exact node_of_resolveFrom hspot
    | vacant => cases h

theorem reaches_of_lookup (h : t.lookup true p = .ok (q, node)) :
    t.Reaches [] p.segments q := by
  rw [lookup, lookupIn, ← resolve] at h
  cases hspot : t.resolve true p with
  | error trouble =>
    rw [hspot] at h
    cases h
  | ok spot =>
    rw [hspot] at h
    rw [resolve, resolveIn, Path.start_root] at hspot
    split_ifs at hspot
    have hreaches := reaches_of_resolveFrom hspot
    cases spot with
    | found place found left =>
      cases h
      exact hreaches
    | vacant => cases h

theorem at?_of_lookup_file (h : t.lookup true p = .ok (q, .file content)) :
    t.at? q = some (.file content) := by
  rcases node_of_lookup h with heq | ⟨content', heq, hat⟩
  · cases heq
  · cases heq
    exact hat

theorem opens_of_lookup (h : t.lookup true p = .ok (q, .directory)) :
    ∃ left, t.Opens linkLimit [] p.segments q left := by
  obtain ⟨-, -, -, left, hfound⟩ := fromRoot_of_lookup h
  exact ⟨left, opens_of_resolveFrom hfound⟩

private theorem Opens.unfollowed (h : t.Opens links place segments q left) :
    ∃ q' node left', t.resolveFrom false links place segments = .ok (.found q' node left') ∧
      (q' = q ∧ node = .directory ∨ ∃ target, node = .link target) := by
  induction h with
  | here =>
    rw [resolveFrom_nil]
    exact ⟨_, _, _, rfl, .inl ⟨rfl, rfl⟩⟩
  | void hvoid _ ih =>
    rw [resolveFrom_void hvoid]
    exact ih
  | parent _ ih =>
    rw [resolveFrom_parent]
    exact ih
  | directory hname hshort hat _ ih =>
    rw [resolveFrom_directory hname hshort hat]
    exact ih
  | @link _ _ _ _ _ _ s rest target hname hshort hat htarget _ _ ih =>
    cases rest with
    | nil =>
      rw [resolveFrom_link_end hname hshort hat]
      exact ⟨_, _, _, rfl, .inr ⟨target, rfl⟩⟩
    | cons next rest =>
      rw [resolveFrom_link_succ hname hshort hat rfl, htarget.resolveFrom_append_of rfl]
      exact ih

theorem lookup_unfollowed (h : t.lookup true p = .ok (q, .directory)) :
    t.lookup false p = .ok (q, .directory) ∨
      ∃ place target, t.lookup false p = .ok (place, .link target) := by
  obtain ⟨left, hopen⟩ := opens_of_lookup h
  obtain ⟨q', node, left', hfound, hnode⟩ := hopen.unfollowed
  have hlookup : t.lookup false p = .ok (q', node) := by
    rw [lookup, lookupIn, resolveIn, Path.start_root] at h ⊢
    split_ifs at h ⊢
    rw [hfound]
  rw [hlookup]
  rcases hnode with ⟨rfl, rfl⟩ | ⟨target, rfl⟩
  · exact .inl rfl
  · exact .inr ⟨q', target, rfl⟩

end Looked

section Erased

theorem ne_nil_of_file (h : t.at? q = some (.file content)) : q ≠ [] := by
  rintro rfl
  cases h

theorem carries_erase_file (h : t.at? q = some (.file content)) :
    t.Carries ⟨t.nodes.erase q⟩ := by
  have hkept : ∀ {r : Place} {node : Node}, t.at? r = some node → node ≠ .file content →
      (⟨t.nodes.erase q⟩ : FileTree).at? r = some node := by
    intro r node hr hnode
    rw [at?_erase (ne_nil_of_file h), if_neg, hr]
    rintro rfl
    exact hnode (Option.some.inj (hr.symm.trans h))
  exact ⟨fun hr => hkept hr Node.noConfusion, fun hr => hkept hr Node.noConfusion⟩

theorem link_erase_file_iff {r : Place} {target : Path} (h : t.at? q = some (.file content)) :
    (⟨t.nodes.erase q⟩ : FileTree).at? r = some (.link target) ↔
      t.at? r = some (.link target) := by
  constructor
  · intro hr
    rw [at?_erase (ne_nil_of_file h)] at hr
    split_ifs at hr
    exact hr
  · exact (carries_erase_file h).link

theorem Rooted.erase_file (ht : t.Rooted) (h : t.at? q = some (.file content)) :
    (⟨t.nodes.erase q⟩ : FileTree).Rooted := by
  apply ht.erase (ne_nil_of_file h)
  rw [h]
  exact fun heq => Node.noConfusion (Option.some.inj heq)

theorem carries_of_clear (t : FileTree) (place : Place) : (t.clear place).Carries t := by
  have hkept : ∀ {r : Place} {node : Node}, (t.clear place).at? r = some node →
      t.at? r = some node := by
    intro r node hr
    rw [at?_clear] at hr
    split_ifs at hr
    exact hr
  exact ⟨hkept, hkept⟩

end Erased

section Down

/-- How a walk ends that only goes down: at its target, at a miss while nothing is there, or at
something else that is wrong. -/
inductive Arrives (t : FileTree) (target : Place) : Except Trouble Spot → Prop where
  | found {node : Node} {left : Nat} (hat : t.at? target = some node) :
      Arrives t target (.ok (.found target node left))
  | vacant {directory : Place} {name : String} {slash : Bool} (hnone : t.at? target = none) :
      Arrives t target (.ok (.vacant directory name slash))
  | missing (hnone : t.at? target = none) : Arrives t target (.error .notFound)
  | failed {trouble : Trouble} (hother : trouble ≠ .notFound) : Arrives t target (.error trouble)

private theorem arrives_of_linkless (ht : t.Rooted) (hlinkless : t.Linkless b)
    (hb : t.at? b = some .directory) (hdown : ".." ∉ segments) (follow : Bool) (links : Nat) :
    Arrives t (Path.walk b segments) (t.resolveFrom follow links b segments) := by
  induction segments generalizing b with
  | nil =>
    rw [resolveFrom_nil]
    exact .found hb
  | cons s rest ih =>
    have hrest : ".." ∉ rest := fun hmem => hdown (List.mem_cons_of_mem s hmem)
    have hwalk : Path.walk b (s :: rest) = Path.walk (Path.step b s) rest := rfl
    by_cases hvoid : Path.isVoid s = true
    · rw [resolveFrom_void hvoid, hwalk, Path.step, if_pos hvoid]
      exact ih hlinkless hb hrest
    · have hname : IsName s :=
        ⟨Bool.eq_false_iff.mpr hvoid, fun heq => hdown (heq ▸ List.mem_cons_self)⟩
      rw [hwalk, Path.step_name hname]
      by_cases hlong : nameLimit < s.utf8ByteSize
      · rw [resolveFrom_long hname hlong]
        exact .failed Trouble.noConfusion
      · cases hat : t.at? (b ++ [s]) with
        | none =>
          -- nothing is below a missing name, however far the rest goes
          have hnone : t.at? (Path.walk (b ++ [s]) rest) = none := by
            rw [Path.walk_of_no_parent hrest]
            exact ht.none_below hat _
          rw [resolveFrom_missing hname hlong hat]
          split_ifs
          · exact .vacant hnone
          · exact .missing hnone
        | some below =>
          cases below with
          | directory =>
            have hbelow : t.Linkless (b ++ [s]) := by
              intro names target hlink
              rw [List.append_assoc] at hlink
              exact hlinkless _ _ hlink
            rw [resolveFrom_directory hname hlong hat]
            exact ih hbelow hat hrest
          | file old =>
            rw [resolveFrom_file hname hlong hat]
            split_ifs with hnil
            · subst hnil
              exact .found hat
            · exact .failed Trouble.noConfusion
          | link target => exact absurd hat (hlinkless [s] target)

private theorem Linkless.reaches_eq (hlinkless : t.Linkless b) (hdown : ".." ∉ segments)
    (h : t.Reaches b segments q) : q = Path.walk b segments := by
  induction h with
  | here => rfl
  | @pass place q s rest _ _ ih =>
    have hrest : ".." ∉ rest := fun hmem => hdown (List.mem_cons_of_mem s hmem)
    have hwalk : Path.walk place (s :: rest) = Path.walk (Path.step place s) rest := rfl
    have hs : s ≠ ".." := fun heq => hdown (heq ▸ List.mem_cons_self)
    rw [hwalk]
    refine ih (fun names target hlink => ?_) hrest
    rw [Path.step, if_neg hs] at hlink
    split_ifs at hlink with hvoid
    · exact hlinkless names target hlink
    · rw [List.append_assoc] at hlink
      exact hlinkless _ target hlink
  | @link place _ _ s _ target _ hat => exact absurd hat (hlinkless [s] target)

theorem reaches_join (hbase : base.isEmpty = false) (hlinkless : t.LinklessBelow base)
    (hp : p.Inner) (h : t.Reaches [] (base.join p).segments q) :
    ∃ b, t.Reaches [] base.segments b ∧ q = b ++ p.place := by
  obtain ⟨front, slash, hsegments, hslash, -, hjoin⟩ := Path.segments_join hbase hp.relative
  rw [hjoin] at h
  obtain ⟨b, hfront, hback⟩ := h.split
  have hb : t.Reaches [] base.segments b := by
    rw [hsegments]
    exact hfront.append (.of_void (Path.isVoid_of_slash hslash) b)
  refine ⟨b, hb, ?_⟩
  rw [← hp.walk]
  exact (hlinkless b hb).reaches_eq hp.noParent hback

private theorem arrives_join (ht : t.Rooted) (hbase : base.isEmpty = false) (hp : p.Inner)
    (hlinkless : t.Linkless b) (hopen : t.Opens linkLimit [] base.segments b left)
    (follow : Bool) : Arrives t (b ++ p.place) (t.resolve follow (base.join p)) := by
  obtain ⟨front, slash, hsegments, hslash, -, hjoin⟩ := Path.segments_join hbase hp.relative
  have hvoid := Path.isVoid_of_slash hslash
  rw [hsegments] at hopen
  obtain ⟨mid, less, hfront, hback⟩ := hopen.split
  obtain ⟨rfl, rfl⟩ := hback.unique (.of_void hvoid less mid)
  have hmore : (p.segments.isEmpty && !follow) = false := by
    cases hp' : p.segments with
    | nil => exact absurd hp' hp.segments_ne_nil
    | cons s rest => rfl
  have hempty : (base.join p).isEmpty = false :=
    Path.isEmpty_join hbase hp.relative hp.segments_ne_nil
  rw [resolve, resolveIn, Path.start_root, hempty, if_neg Bool.false_ne_true, hjoin]
  split_ifs
  · exact .failed Trouble.noConfusion
  · exact .failed Trouble.noConfusion
  · rw [hfront.resolveFrom_append_of hmore, ← hp.walk]
    exact arrives_of_linkless ht hlinkless (ht.directory_of_opens hfront rfl) hp.noParent follow _

theorem opens_of_lookup_join {found : Place × Node} (hbase : base.isEmpty = false) (hp : p.Inner)
    (h : t.lookup follow (base.join p) = .ok found) :
    ∃ b left, t.Opens linkLimit [] base.segments b left := by
  obtain ⟨front, slash, hsegments, hslash, -, hjoin⟩ := Path.segments_join hbase hp.relative
  obtain ⟨spot, hspot⟩ := resolve_of_lookup h
  rw [resolve, resolveIn, Path.start_root, hjoin] at hspot
  split_ifs at hspot
  obtain ⟨b, left, hopen⟩ := opens_of_resolveFrom_append (.inl hp.all_eq_false) hspot
  rw [hsegments]
  exact ⟨b, left, hopen.append (.of_void (Path.isVoid_of_slash hslash) left b)⟩

theorem removeFile_join (ht : t.Rooted) (hbase : base.isEmpty = false)
    (hlinkless : t.LinklessBelow base) (hp : p.Inner) (h : t.removeFile (base.join p) = .ok t') :
    ∃ b content, t.Reaches [] base.segments b ∧ t.at? (b ++ p.place) = some (.file content) ∧
      t' = ⟨t.nodes.erase (b ++ p.place)⟩ := by
  obtain ⟨⟨q, node⟩, hfound⟩ := lookup_of_removeFile h
  obtain ⟨b, left, hopen⟩ := opens_of_lookup_join hbase hp hfound
  have hb : t.Reaches [] base.segments b := hopen.reaches
  obtain ⟨hq, hnode⟩ : q = b ++ p.place ∧ t.at? q = some node := by
    have harrives := arrives_join ht hbase hp (hlinkless b hb) hopen false
    rw [lookup, lookupIn, ← resolve] at hfound
    generalize t.resolve false (base.join p) = result at harrives hfound
    cases harrives with
    | found hat =>
      cases hfound
      exact ⟨rfl, hat⟩
    | vacant | missing | failed => cases hfound
  rw [removeFile, hfound] at h
  rw [hq] at hnode
  cases node with
  | directory => cases h
  | link target => exact absurd hnode (hlinkless b hb p.place target)
  | file content =>
    cases h
    exact ⟨b, content, hb, hnode, by rw [hq]⟩

theorem none_of_removeFile_join (ht : t.Rooted) (hbase : base.isEmpty = false)
    (hlinkless : t.Linkless b) (hp : p.Inner) (hopen : t.Opens linkLimit [] base.segments b left)
    (h : t.removeFile (base.join p) = .error .notFound) : t.at? (b ++ p.place) = none := by
  have hmissing := lookup_of_removeFile_notFound h
  have harrives := arrives_join ht hbase hp hlinkless hopen false
  rw [lookup, lookupIn, ← resolve] at hmissing
  generalize t.resolve false (base.join p) = result at harrives hmissing
  cases harrives with
  | found hat => cases hmissing
  | vacant hnone => exact hnone
  | missing hnone => exact hnone
  | failed hother =>
    cases hmissing
    exact absurd rfl hother

end Down

end Retarget.FileTree
