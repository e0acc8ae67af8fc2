import Retarget.Proofs.Files.Lookup
import Retarget.Proofs.Text.Cut

/-!
Paths and the places they name. The steps of a path determine its place, and
names alone spell the place they make up. The name of a class with dots and the
path of its file are two spellings of one place, if no part of it holds a dot
or a slash.
-/

set_option autoImplicit false

namespace Retarget

namespace Path

variable {p base rest : Path} {place : Place} {segment name stem : String}
  {segments names front : List String}

def stepTo (place : Place) : Component → Place
  | .root => []
  | .current => place
  | .parent => place.dropLast
  | .normal name => place ++ [name]

theorem ofSegment?_of_isVoid (h : isVoid segment = true) : Component.ofSegment? segment = none := by
  rw [isVoid, Bool.or_eq_true, decide_eq_true_eq, decide_eq_true_eq] at h
  rw [Component.ofSegment?, if_pos h]

theorem ofSegment?_of_not_isVoid (h : isVoid segment = false) : Component.ofSegment? segment =
    some (if segment = ".." then .parent else .normal segment) := by
  have hvoid : ¬ (segment = "" ∨ segment = ".") := by
    rw [isVoid, Bool.or_eq_false_iff, decide_eq_false_iff_not, decide_eq_false_iff_not] at h
    exact not_or.mpr h
  rw [Component.ofSegment?, if_neg hvoid]
  split_ifs <;> rfl

theorem ofSegment?_of_isName (h : IsName name) :
    Component.ofSegment? name = some (.normal name) := by
  rw [ofSegment?_of_not_isVoid h.1, if_neg h.2]

private theorem isName_of_ofSegment? (h : Component.ofSegment? segment = some (.normal name)) :
    segment = name ∧ IsName name := by
  cases hvoid : isVoid segment with
  | true => cases (ofSegment?_of_isVoid hvoid).symm.trans h
  | false =>
    rw [ofSegment?_of_not_isVoid hvoid] at h
    split_ifs at h with hparent
    · cases h
    · cases h
      exact ⟨rfl, hvoid, hparent⟩

private theorem step_eq (place : Place) (segment : String) :
    step place segment = (Component.ofSegment? segment).elim place (stepTo place) := by
  cases hvoid : isVoid segment with
  | true =>
    rw [ofSegment?_of_isVoid hvoid, step, if_pos hvoid]
    rfl
  | false =>
    rw [ofSegment?_of_not_isVoid hvoid, step, hvoid, if_neg Bool.false_ne_true]
    split_ifs <;> rfl

private theorem walk_eq (place : Place) (segments : List String) :
    walk place segments = (segments.filterMap Component.ofSegment?).foldl stepTo place := by
  induction segments generalizing place with
  | nil => rfl
  | cons segment segments ih =>
    have hfirst : walk place (segment :: segments) = walk (step place segment) segments := rfl
    rw [hfirst, ih, step_eq, List.filterMap_cons]
    cases Component.ofSegment? segment <;> rfl

private theorem place_eq (p : Path) : p.place = p.components.foldl stepTo [] := by
  rw [components, anchorSplit]
  obtain ⟨segments⟩ := p
  split
  · next anchor body h =>
    split at h
    · next s rest hsegments =>
      cases h
      rw [List.foldl_append, ← walk_eq, place, hsegments]
      rfl
    · next rest hsegments =>
      cases h
      rw [List.foldl_append, ← walk_eq, place, hsegments]
      rfl
    · cases h
      exact walk_eq [] segments

private theorem foldl_normal (place : Place) (names : List String) :
    (names.map Component.normal).foldl stepTo place = place ++ names := by
  induction names generalizing place with
  | nil => exact (List.append_nil place).symm
  | cons name names ih =>
    rw [List.map_cons, List.foldl_cons, ih, stepTo, List.append_assoc, List.singleton_append]

section Relative

theorem filterMap_dropWhile (segments : List String) :
    (segments.dropWhile isVoid).filterMap Component.ofSegment? =
      segments.filterMap Component.ofSegment? := by
  induction segments with
  | nil => rfl
  | cons segment segments ih =>
    cases hvoid : isVoid segment with
    | true =>
      rw [List.dropWhile_cons_of_pos hvoid, ih, List.filterMap_cons, ofSegment?_of_isVoid hvoid]
    | false => rw [List.dropWhile_cons_of_neg (Bool.eq_false_iff.mp hvoid)]

theorem filterMap_trimEnd (segments : List String) :
    (trimEnd segments).filterMap Component.ofSegment? = segments.filterMap Component.ofSegment? := by
  rw [trimEnd, List.filterMap_reverse, filterMap_dropWhile, List.filterMap_reverse,
    List.reverse_reverse]

theorem filterMap_dropSteps (n : Nat) (segments : List String) :
    (dropSteps n segments).filterMap Component.ofSegment? =
      (segments.filterMap Component.ofSegment?).drop n := by
  induction segments generalizing n with
  | nil => cases n <;> rfl
  | cons segment segments ih =>
    cases n with
    | zero => rfl
    | succ n =>
      rw [dropSteps, ih, List.filterMap_cons]
      cases hvoid : isVoid segment with
      | true => rw [ofSegment?_of_isVoid hvoid, if_pos rfl]
      | false =>
        rw [ofSegment?_of_not_isVoid hvoid, if_neg Bool.false_ne_true]
        rfl

theorem filterMap_ofAnchor (segments : List String) :
    (ofAnchor none segments).segments.filterMap Component.ofSegment? =
      segments.filterMap Component.ofSegment? := by
  cases segments <;> rfl

/-- A path of names, as a path below another one has to be. -/
structure Inner (p : Path) : Prop where
  relative : p.isAbsolute = false
  noParent : ".." ∉ p.segments
  components : p.components = p.place.map .normal
  names : ∀ name ∈ p.place, IsName name
  place : p.place ≠ []

theorem Inner.segments_ne_nil (h : p.Inner) : p.segments ≠ [] := by
  intro hnil
  apply h.place
  rw [Path.place, hnil]
  rfl

theorem Inner.all_eq_false (h : p.Inner) : p.segments.all (· = "") = false := by
  rw [← Bool.not_eq_true, List.all_eq_true]
  intro hall
  refine h.place (walk_void fun segment hsegment => ?_)
  rw [of_decide_eq_true (hall segment hsegment)]
  rfl

theorem Inner.walk (h : p.Inner) (place : Place) : Path.walk place p.segments = place ++ p.place :=
  walk_of_no_parent h.noParent

theorem Inner.place_join (h : p.Inner) (hbase : base.isEmpty = false) :
    (base.join p).place = base.place ++ p.place := by
  rw [Path.place_join hbase h.relative, h.walk]

theorem anchorSplit_of_normal (h : p.components.all Component.isNormal = true) :
    p.anchorSplit = (none, p.segments) ∧ p.isAbsolute = false ∧
      p.components = p.segments.filterMap Component.ofSegment? := by
  have hanchor : p.anchorSplit = (none, p.segments) ∧ p.isAbsolute = false := by
    rw [components] at h
    rw [isAbsolute]
    simp only [anchorSplit] at h ⊢
    split at h
    · cases h
    · cases h
    · next hroot hcurrent =>
      refine ⟨rfl, ?_⟩
      split
      · next s rest hsegments => exact absurd hsegments (hroot s rest)
      · rfl
  refine ⟨hanchor.1, hanchor.2, ?_⟩
  rw [components, hanchor.1]
  rfl

theorem exists_names_of_normal (h : p.components.all Component.isNormal = true) :
    ∃ names : List String, p.components = names.map .normal := by
  refine ⟨p.components.map Component.text, ?_⟩
  rw [List.map_map]
  have hid : ∀ step ∈ p.components, (Component.normal ∘ Component.text) step = step := by
    intro step hstep
    cases step with
    | normal name => rfl
    | root | current | parent => cases List.all_eq_true.mp h _ hstep
  rw [List.map_congr_left hid, List.map_id']

theorem exists_first (hempty : p.isEmpty = false)
    (h : p.components.all Component.isNormal = true) :
    ∃ first rest, p = ⟨first :: rest⟩ ∧ isVoid first = false := by
  obtain ⟨hanchor, habsolute, -⟩ := anchorSplit_of_normal h
  obtain ⟨segments⟩ := p
  match segments with
  | [] => cases hempty
  | first :: rest =>
    refine ⟨first, rest, rfl, ?_⟩
    by_contra hvoid
    rw [Bool.not_eq_false, isVoid, Bool.or_eq_true, decide_eq_true_eq, decide_eq_true_eq] at hvoid
    rcases hvoid with rfl | rfl
    · cases rest with
      | nil => cases hempty
      | cons next rest => cases habsolute
    · cases hanchor

theorem components_ne_nil (hempty : p.isEmpty = false)
    (h : p.components.all Component.isNormal = true) : p.components ≠ [] := by
  obtain ⟨first, rest, rfl, hfirst⟩ := exists_first hempty h
  rw [(anchorSplit_of_normal h).2.2, List.filterMap_cons, ofSegment?_of_not_isVoid hfirst]
  exact List.cons_ne_nil _ _

theorem inner_of_components (hempty : p.isEmpty = false)
    (h : p.components.all Component.isNormal = true) : p.Inner := by
  obtain ⟨-, habsolute, hcomponents⟩ := anchorSplit_of_normal h
  obtain ⟨names, hnames⟩ := exists_names_of_normal h
  have hplace : p.place = names := by
    rw [place_eq, hnames, foldl_normal, List.nil_append]
  refine ⟨habsolute, fun hmem => ?_, hplace ▸ hnames, fun name hname => ?_, fun hnil => ?_⟩
  · have hparent : Component.parent ∈ p.components := by
      rw [hcomponents, List.mem_filterMap]
      exact ⟨"..", hmem, rfl⟩
    cases List.all_eq_true.mp h _ hparent
  · have hstep : Component.normal name ∈ p.components := by
      rw [hnames, ← hplace]
      exact List.mem_map_of_mem hname
    rw [hcomponents, List.mem_filterMap] at hstep
    obtain ⟨segment, -, hsegment⟩ := hstep
    exact (isName_of_ofSegment? hsegment).2
  · rw [← hplace, hnil, List.map_nil] at hnames
    exact components_ne_nil hempty h hnames

private theorem anchorSplit_of_isAbsolute (h : p.isAbsolute = true) :
    ∃ body, p.anchorSplit = (some .root, body) := by
  obtain ⟨segments⟩ := p
  simp only [isAbsolute] at h
  split at h
  · exact ⟨_, rfl⟩
  · cases h

/-- What follows a path in an absolute one leads on from its place. -/
theorem place_of_relativeTo? (hp : p.isAbsolute = true) (hrest : rest.Inner)
    (h : relativeTo? base p = some rest) : p.place = base.place ++ rest.place := by
  obtain ⟨body, hanchor⟩ := anchorSplit_of_isAbsolute hp
  have hcomponents : p.components = .root :: body.filterMap Component.ofSegment? := by
    rw [components, hanchor]
    rfl
  simp only [relativeTo?, hanchor] at h
  split_ifs at h with hbelow hskipped
  · cases h
    have hroot : (ofAnchor (some .root) (trimEnd body)).isAbsolute = true := by
      cases htrim : trimEnd body <;> rfl
    cases hroot.symm.trans hrest.relative
  · obtain ⟨more, hmore⟩ := List.isPrefixOf_iff_prefix.mp hbelow
    have hdrop : more = (body.filterMap Component.ofSegment?).drop (base.components.length - 1) := by
      have hwhole := congrArg (List.drop base.components.length) hmore
      rw [List.drop_left, hcomponents] at hwhole
      obtain ⟨n, hn⟩ := Nat.exists_eq_succ_of_ne_zero hskipped
      rw [hn] at hwhole ⊢
      exact hwhole
    have hsteps : rest.segments.filterMap Component.ofSegment? = more := by
      cases h
      rw [filterMap_ofAnchor, filterMap_trimEnd, filterMap_dropWhile, filterMap_dropSteps, hdrop]
      rfl
    have hwalk : walk base.place rest.segments = p.place := by
      rw [walk_eq, hsteps, place_eq base, ← List.foldl_append, hmore, ← place_eq]
    rw [← hwalk, hrest.walk]

end Relative

end Path

end Retarget
