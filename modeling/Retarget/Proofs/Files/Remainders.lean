import Retarget.Proofs.Files.Anchors

/-!
What follows a path in an absolute one. The steps alone decide whether anything
does, however both are spelled; what follows is then spelled as it is there,
without the slashes and dots around it. No absolute path starts with a relative
one, be it of a place above.
-/

set_option autoImplicit false

namespace Retarget.Path

variable {base p rel : Path} {first : String} {front body body' more after rest : List String}
  {steps : List Component} {cwd : Place}

section Starts

theorem anchorSplit_rooted (hbody : body ≠ []) :
    (⟨"" :: body⟩ : Path).anchorSplit = (some .root, body) := by
  obtain ⟨s, rest, rfl⟩ := List.exists_cons_of_ne_nil hbody
  rfl

theorem anchorSplit_of_first (h : isVoid first = false) (rest : List String) :
    (⟨first :: rest⟩ : Path).anchorSplit = (none, first :: rest) := by
  rw [anchorSplit]
  split
  · next hsegments =>
    cases hsegments
    cases h
  · next hsegments =>
    cases hsegments
    cases h
  · rfl

theorem exists_rooted (h : p.isAbsolute = true) : ∃ body, body ≠ [] ∧ p = ⟨"" :: body⟩ := by
  obtain ⟨segments⟩ := p
  simp only [isAbsolute] at h
  split at h
  · exact ⟨_, List.cons_ne_nil _ _, rfl⟩
  · cases h

theorem isAbsolute_rooted (hbody : body ≠ []) : (⟨"" :: body⟩ : Path).isAbsolute = true :=
  isAbsolute_cons_iff.mpr ⟨rfl, hbody⟩

theorem components_rooted (hbody : body ≠ []) :
    (⟨"" :: body⟩ : Path).components = .root :: body.filterMap Component.ofSegment? := by
  rw [components, anchorSplit_rooted hbody]
  rfl

theorem components_of_first (h : isVoid first = false) (rest : List String) :
    (⟨first :: rest⟩ : Path).components = (first :: rest).filterMap Component.ofSegment? := by
  rw [components, anchorSplit_of_first h]
  rfl

private theorem isEmpty_of_first (h : isVoid first = false) (rest : List String) :
    (⟨first :: rest⟩ : Path).isEmpty = false := by
  cases hempty : (⟨first :: rest⟩ : Path).isEmpty with
  | false => rfl
  | true =>
    rcases isEmpty_iff.mp hempty with hnil | hnil
    · cases hnil
    · cases hnil
      cases h

theorem components_of_isAbsolute (h : p.isAbsolute = true) :
    p.components = .root :: p.stepsIn cwd := by
  obtain ⟨body, hbody, rfl⟩ := exists_rooted h
  rw [stepsIn, if_pos h, List.nil_append, filter_components, ← filterMap_ofSegment?,
    components_rooted hbody]
  rfl

private theorem head?_components (h : p.isAbsolute = false) : p.components.head? ≠ some .root := by
  have hbody : ∀ body : List String, (body.filterMap Component.ofSegment?).head? ≠ some .root := by
    intro body hhead
    obtain ⟨s, -, hs⟩ := List.mem_filterMap.mp (List.mem_of_head? hhead)
    rw [Component.ofSegment?] at hs
    split_ifs at hs <;> cases hs
  rw [components, anchorSplit]
  split
  · next anchor body hanchor =>
    split at hanchor
    · next s rest hsegments =>
      rw [isAbsolute, hsegments] at h
      cases h
    · cases hanchor
      exact fun hhead => Component.noConfusion (Option.some.inj hhead)
    · cases hanchor
      exact hbody _

end Starts

section Follows

private theorem trimEnd_append_void (h : ∀ s ∈ after, isVoid s = true) (segments : List String) :
    trimEnd (segments ++ after) = trimEnd segments := by
  rw [trimEnd, List.reverse_append, List.dropWhile_append_of_pos fun s hs =>
    h s (List.mem_reverse.mp hs), trimEnd]

private theorem exists_trimEnd (h : isVoid first = false) (rest : List String) :
    ∃ rest', trimEnd (first :: rest) = first :: rest' := by
  have hprefix : trimEnd (first :: rest) <+: first :: rest := List.rdropWhile_prefix isVoid _
  cases htrim : trimEnd (first :: rest) with
  | nil =>
    have hkept := filter_trimEnd (first :: rest)
    rw [htrim, List.filter_cons_of_pos (by rw [h]; rfl)] at hkept
    cases hkept
  | cons s rest' =>
    rw [htrim] at hprefix
    exact ⟨rest', by rw [(List.cons_prefix_cons.mp hprefix).1]⟩

theorem components_trimEnd (hempty : p.isEmpty = false)
    (h : p.components.all Component.isNormal = true) :
    (⟨trimEnd p.segments⟩ : Path).components = p.components ∧
      (⟨trimEnd p.segments⟩ : Path).isEmpty = false := by
  obtain ⟨first, rest, rfl, hfirst⟩ := exists_first hempty h
  obtain ⟨rest', htrim⟩ := exists_trimEnd hfirst rest
  refine ⟨?_, htrim ▸ isEmpty_of_first hfirst rest'⟩
  rw [htrim, components_of_first hfirst, components_of_first hfirst, ← htrim, filterMap_trimEnd]

theorem dropWhile_dropSteps (front more : List String) :
    (dropSteps (front.filterMap Component.ofSegment?).length (front ++ more)).dropWhile isVoid =
      more.dropWhile isVoid := by
  induction front with
  | nil => rw [List.filterMap_nil, List.length_nil, dropSteps, List.nil_append]
  | cons s front ih =>
    cases hvoid : isVoid s with
    | false =>
      rw [List.filterMap_cons, ofSegment?_of_not_isVoid hvoid, List.length_cons, List.cons_append,
        dropSteps, hvoid, if_neg Bool.false_ne_true]
      exact ih
    | true =>
      rw [List.filterMap_cons, ofSegment?_of_isVoid hvoid, List.cons_append]
      cases hcount : (front.filterMap Component.ofSegment?).length with
      | zero =>
        rw [hcount, dropSteps] at ih
        rw [dropSteps, List.dropWhile_cons_of_pos hvoid]
        exact ih
      | succ n =>
        rw [hcount] at ih
        rw [dropSteps, hvoid, if_pos rfl]
        exact ih

private theorem relativeTo?_rooted (hbody : body ≠ []) (hbody' : body' ≠ [])
    (h : body.filterMap Component.ofSegment? = body'.filterMap Component.ofSegment? ++ steps) :
    (⟨"" :: body'⟩ : Path).relativeTo? ⟨"" :: body⟩ = some (ofAnchor none (trimEnd
      ((dropSteps (body'.filterMap Component.ofSegment?).length body).dropWhile isVoid))) := by
  have hprefix : (⟨"" :: body'⟩ : Path).components.isPrefixOf (⟨"" :: body⟩ : Path).components =
      true := by
    rw [components_rooted hbody, components_rooted hbody', h, List.isPrefixOf_iff_prefix,
      List.cons_prefix_cons]
    exact ⟨rfl, List.prefix_append _ _⟩
  rw [relativeTo?, anchorSplit_rooted hbody]
  dsimp only
  rw [if_pos hprefix, components_rooted hbody', List.length_cons, if_neg (Nat.succ_ne_zero _)]
  rfl

theorem relativeTo?_spelled (hbody' : body' ≠ []) (hempty : rel.isEmpty = false)
    (hnormal : rel.components.all Component.isNormal = true)
    (hfront : front.filterMap Component.ofSegment? = body'.filterMap Component.ofSegment?)
    (hafter : ∀ s ∈ after, isVoid s = true) :
    (⟨"" :: body'⟩ : Path).relativeTo? ⟨"" :: (front ++ (rel.segments ++ after))⟩ =
      some ⟨trimEnd rel.segments⟩ := by
  obtain ⟨first, rest, rfl, hfirst⟩ := exists_first hempty hnormal
  have hbody : front ++ (first :: rest ++ after) ≠ [] :=
    List.append_ne_nil_of_right_ne_nil _ (List.cons_ne_nil _ _)
  have hsteps : (front ++ (first :: rest ++ after)).filterMap Component.ofSegment? =
      body'.filterMap Component.ofSegment? ++
        (first :: rest ++ after).filterMap Component.ofSegment? := by
    rw [List.filterMap_append, hfront]
  rw [relativeTo?_rooted hbody hbody' hsteps, ← hfront, dropWhile_dropSteps, List.cons_append,
    List.dropWhile_cons_of_neg (Bool.eq_false_iff.mp hfirst), ← List.cons_append,
    trimEnd_append_void hafter, ofAnchor_trimEnd hfirst]

theorem exists_relativeTo? (hbase : base.isAbsolute = true) (hp : p.isAbsolute = true)
    (hne : steps ≠ []) (h : p.components = base.components ++ steps) :
    ∃ rest, base.relativeTo? p = some rest ∧ rest.components = steps ∧ rest.isEmpty = false := by
  obtain ⟨body', hbody', rfl⟩ := exists_rooted hbase
  obtain ⟨body, hbody, rfl⟩ := exists_rooted hp
  have hsteps : body.filterMap Component.ofSegment? =
      body'.filterMap Component.ofSegment? ++ steps := by
    rw [components_rooted hbody, components_rooted hbody', List.cons_append] at h
    exact (List.cons.inj h).2
  refine ⟨_, relativeTo?_rooted hbody hbody' hsteps, ?_⟩
  have hrest : ((dropSteps (body'.filterMap Component.ofSegment?).length body).dropWhile
      isVoid).filterMap Component.ofSegment? = steps := by
    rw [filterMap_dropWhile, filterMap_dropSteps, hsteps, List.drop_left]
  cases hleft : (dropSteps (body'.filterMap Component.ofSegment?).length body).dropWhile isVoid with
  | nil =>
    rw [hleft] at hrest
    exact absurd hrest.symm hne
  | cons first rest =>
    have hfirst : isVoid first = false := by
      have hhead := List.head?_dropWhile_not isVoid
        (dropSteps (body'.filterMap Component.ofSegment?).length body)
      rw [hleft] at hhead
      exact hhead
    obtain ⟨rest', htrim⟩ := exists_trimEnd hfirst rest
    rw [hleft, ← filterMap_trimEnd, htrim] at hrest
    rw [ofAnchor_trimEnd hfirst, htrim]
    exact ⟨(components_of_first hfirst rest').trans hrest, isEmpty_of_first hfirst rest'⟩

theorem components_of_relativeTo? (hbase : base.isAbsolute = true) (hp : p.isAbsolute = true)
    (h : base.relativeTo? p = some rel) :
    p.components = base.components ++ rel.segments.filterMap Component.ofSegment? := by
  obtain ⟨body', hbody', rfl⟩ := exists_rooted hbase
  obtain ⟨body, hbody, rfl⟩ := exists_rooted hp
  have hprefix : (⟨"" :: body'⟩ : Path).components.isPrefixOf (⟨"" :: body⟩ : Path).components =
      true := by
    by_contra hnone
    rw [relativeTo?, anchorSplit_rooted hbody] at h
    dsimp only at h
    rw [if_neg hnone] at h
    cases h
  rw [components_rooted hbody, components_rooted hbody', List.isPrefixOf_iff_prefix,
    List.cons_prefix_cons] at hprefix
  obtain ⟨-, steps, hsteps⟩ := hprefix
  rw [relativeTo?_rooted hbody hbody' hsteps.symm] at h
  cases h
  rw [filterMap_ofAnchor, filterMap_trimEnd, filterMap_dropWhile, filterMap_dropSteps, ← hsteps,
    List.drop_left, components_rooted hbody, components_rooted hbody', ← hsteps]
  rfl

theorem relativeTo?_of_no_steps (hbase : base.components = []) (hp : p.isAbsolute = true) :
    ∃ rest, base.relativeTo? p = some rest ∧ rest.components.all Component.isNormal = false := by
  obtain ⟨body, hbody, rfl⟩ := exists_rooted hp
  rw [relativeTo?, anchorSplit_rooted hbody, hbase]
  refine ⟨_, rfl, ?_⟩
  cases htrim : trimEnd body with
  | nil => rfl
  | cons s rest => exact Bool.and_eq_false_imp.mpr fun h => Bool.noConfusion h

theorem relativeTo?_of_relative (hbase : base.isAbsolute = false) (hp : p.isAbsolute = true)
    (hne : base.components ≠ []) : base.relativeTo? p = none := by
  obtain ⟨body, hbody, rfl⟩ := exists_rooted hp
  have hprefix : ¬ base.components.isPrefixOf (⟨"" :: body⟩ : Path).components = true := by
    intro h
    obtain ⟨step, steps, hsteps⟩ := List.exists_cons_of_ne_nil hne
    have hhead := head?_components hbase
    rw [hsteps, components_rooted hbody, List.isPrefixOf_iff_prefix, List.cons_prefix_cons] at h
    rw [hsteps, h.1] at hhead
    exact hhead rfl
  rw [relativeTo?, anchorSplit_rooted hbody]
  dsimp only
  rw [if_neg hprefix]

end Follows

end Retarget.Path
