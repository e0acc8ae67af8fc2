import Retarget.Proofs.Files.Remainders

/-!
What storing a file changes. Directories are only made where the path to the
file leads over, and the file is written where the path leads to, also if the
storing fails on the way. Which places these are depends on the links of the
tree; a path that goes up leads over what lies beside the directories it names.
-/

set_option autoImplicit false

namespace Retarget

open Retarget.Path (IsName isVoid)

namespace FileTree

variable {t t' t₁ : FileTree} {place q b : Place} {s last : String} {links : Nat}
  {segments front back rest : List String} {bytes : Bytes} {p : Path}

section Passes

private theorem reaches_void (h : isVoid s = true) :
    t.Reaches place (s :: rest) q ↔ t.Reaches place rest q := by
  have hstep : Path.step place s = place := by rw [Path.step, if_pos h]
  constructor
  · intro hreach
    cases hreach with
    | pass hlink hrest => rwa [hstep] at hrest
    | link hname => exact absurd h (Bool.eq_false_iff.mp hname.1)
  · intro hrest
    exact .pass (fun hname => absurd h (Bool.eq_false_iff.mp hname.1)) (hstep.symm ▸ hrest)

private theorem reaches_filter_iff : t.Reaches place (segments.filter fun s => !isVoid s) q ↔
    t.Reaches place segments q := by
  induction segments generalizing place with
  | nil => exact Iff.rfl
  | cons s rest ih =>
    cases hvoid : isVoid s with
    | true =>
      rw [List.filter_cons_of_neg (by rw [hvoid]; decide), reaches_void hvoid]
      exact ih
    | false =>
      rw [List.filter_cons_of_pos (by rw [hvoid]; decide)]
      constructor
      · intro h
        cases h with
        | pass hlink hrest => exact .pass hlink (ih.mp hrest)
        | link hname hat htarget hrest => exact .link hname hat htarget (ih.mp hrest)
      · intro h
        cases h with
        | pass hlink hrest => exact .pass hlink (ih.mpr hrest)
        | link hname hat htarget hrest => exact .link hname hat htarget (ih.mpr hrest)

theorem reaches_congr (h : (front.filter fun s => !isVoid s) = back.filter fun s => !isVoid s) :
    t.Reaches place front q ↔ t.Reaches place back q := by
  rw [← reaches_filter_iff, h, reaches_filter_iff]

def Passes (t : FileTree) (place : Place) (segments : List String) (q : Place) : Prop :=
  ∃ front, front <+: segments ∧ t.Reaches place front q

theorem Passes.congr (hsame : (front.filter fun s => !isVoid s) = back.filter fun s => !isVoid s)
    (h : t.Passes place front q) : t.Passes place back q := by
  obtain ⟨start, hstart, hreach⟩ := h
  have hprefix := hstart.filter fun s => !isVoid s
  rw [hsame, List.prefix_filter_iff] at hprefix
  obtain ⟨start', hstart', hfilter⟩ := hprefix
  exact ⟨start', hstart', (reaches_congr hfilter).mp hreach⟩

private theorem Passes.cons
    (hlink : IsName s → ∀ target, t.at? (place ++ [s]) ≠ some (.link target))
    (h : t.Passes (Path.step place s) rest q) : t.Passes place (s :: rest) q := by
  obtain ⟨front, hfront, hreach⟩ := h
  exact ⟨s :: front, List.cons_prefix_cons.mpr ⟨rfl, hfront⟩, .pass hlink hreach⟩

private theorem makeAlong_passes (segments : List String) (place : Place) (links : Nat)
    (t : FileTree)
    (hq : (makeAlong segments place links t).1.at? q ≠ t.at? q) : t.Passes place segments q := by
  fun_induction makeAlong segments place links t with
  | case1 | case4 | case5 | case8 | case9 | case11 => exact absurd rfl hq
  | case2 segment rest place links t hvoid ih =>
    refine .cons (fun hname => absurd hvoid (Bool.eq_false_iff.mp hname.1)) ?_
    rw [Path.step, if_pos hvoid]
    exact ih hq
  | case3 rest place links t hvoid ih =>
    refine .cons (fun hname => absurd rfl hname.2) ?_
    rw [Path.step, if_neg hvoid, if_pos rfl]
    exact ih hq
  | case6 segment rest place links t hvoid hparent hshort hnone hdots ih =>
    refine .cons (fun _ target => by simp [hnone]) ?_
    rw [Path.step, if_neg hvoid, if_neg hparent]
    -- the rest is made in a tree with one directory more, which has the same links
    by_cases hself : q = place ++ [segment]
    · exact ⟨[], List.nil_prefix, hself ▸ .here⟩
    · have hset : (t.set (place ++ [segment]) .directory).at? q = t.at? q := by
        rw [at?_set (append_singleton_ne_nil place segment), if_neg hself]
      obtain ⟨front, hfront, hreach⟩ := ih (hset.symm ▸ hq)
      exact ⟨front, hfront, hreach.congr (Adds.set hnone).link_iff.symm⟩
  | case7 segment rest place links t hvoid hparent hshort hat ih =>
    refine .cons (fun _ target => by simp [hat]) ?_
    rw [Path.step, if_neg hvoid, if_neg hparent]
    exact ih hq
  | case10 segment rest place t hvoid hparent hshort target links hat below left htarget ih =>
    obtain ⟨front, hfront, hreach⟩ := ih hq
    have hname : IsName segment := ⟨Bool.eq_false_iff.mpr hvoid, hparent⟩
    exact ⟨segment :: front, List.cons_prefix_cons.mpr ⟨rfl, hfront⟩,
      .link hname hat (reaches_of_resolveFrom htarget) hreach⟩

private theorem makeDirectories_passes (h : (t.makeDirectories p).1.at? q ≠ t.at? q) :
    t.Passes [] p.segments q := by
  rw [makeDirectories, makeDirectoriesIn, Path.start_root] at h
  split_ifs at h
  · exact absurd rfl h
  · split at h
    · exact absurd rfl h
    · exact absurd rfl h
    · exact makeAlong_passes _ _ _ _ h
    · exact makeAlong_passes _ _ _ _ h
    · exact absurd rfl h

end Passes

section Stored

private theorem parent?_of_name (hlast : IsName last) (front : List String) :
    ∃ parent : Path, (⟨front ++ [last]⟩ : Path).parent? = some parent ∧
      (parent.segments.filter fun s => !isVoid s) = front.filter fun s => !isVoid s := by
  by_cases hfront : front = []
  · subst hfront
    have hsplit : (⟨[last]⟩ : Path).anchorSplit = (none, [] ++ [last]) :=
      Path.anchorSplit_of_first hlast.1 []
    exact ⟨_, Path.parent?_of_anchorSplit hlast hsplit, rfl⟩
  · obtain ⟨parent, hparent, -, -, hfilter⟩ := Path.parent?_concat hlast hfront
    exact ⟨parent, hparent, hfilter⟩

private theorem store_ends {parent : Path} (hparent : p.parent? = some parent)
    (h : ClassFile.store bytes p t = .ok () t' ∨
      ∃ fault, ClassFile.store bytes p t = .error fault t') :
    t' = (t.makeDirectories parent).1 ∨ (t.makeDirectories parent).1.write p bytes = .ok t' := by
  rw [ClassFile.store, hparent] at h
  dsimp only at h
  generalize t.makeDirectories parent = result at h ⊢
  obtain ⟨t₁, made⟩ := result
  cases made with
  | error trouble =>
    rcases h with h | ⟨fault, h⟩
    · cases h
    · cases h
      exact .inl rfl
  | ok =>
    dsimp only [ClassFile.store.finish] at h ⊢
    cases hwrite : t₁.write p bytes with
    | error trouble =>
      rw [hwrite] at h
      rcases h with h | ⟨fault, h⟩
      · cases h
      · cases h
        exact .inl rfl
    | ok t₂ =>
      rw [hwrite] at h
      rcases h with h | ⟨fault, h⟩
      · cases h
        exact .inr rfl
      · cases h

/-- Storing a file makes directories where its path leads over, and writes it where the path leads
to. Nothing else changes, whether it succeeds or fails. -/
theorem changed_by_store (hlast : IsName last) (hp : p.segments = front ++ [last])
    (h : ClassFile.store bytes p t = .ok () t' ∨
      ∃ fault, ClassFile.store bytes p t = .error fault t') (hq : t'.at? q ≠ t.at? q) :
    (t.at? q = none ∧ t'.at? q = some .directory ∧ t.Passes [] front q) ∨
      (t'.at? q = some (.file bytes) ∧ t.Reaches [] p.segments q) := by
  obtain ⟨parent, hparent, hfilter⟩ := parent?_of_name hlast front
  have hpath : p = ⟨front ++ [last]⟩ := by rw [← hp]
  have hadds := Adds.makeDirectories parent t
  have hmade : ∀ {r}, (t.makeDirectories parent).1.at? r ≠ t.at? r → t.at? r = none ∧
      (t.makeDirectories parent).1.at? r = some .directory ∧ t.Passes [] front r := by
    intro r hr
    obtain ⟨hnone, hnew⟩ := (hadds r).resolve_left hr
    exact ⟨hnone, hnew, (makeDirectories_passes hr).congr hfilter⟩
  rcases store_ends (hpath ▸ hparent) h with rfl | hwrite
  · exact .inl (hmade hq)
  · obtain ⟨r, hreach, hr, -, -, rfl, -⟩ := write_found hwrite
    rw [at?_set hr] at hq ⊢
    split_ifs at hq ⊢ with hself
    · subst hself
      exact .inr ⟨rfl, hreach.congr hadds.link_iff.symm⟩
    · exact .inl (hmade hq)

end Stored

end FileTree

end Retarget
