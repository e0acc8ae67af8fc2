import Retarget.Proofs.Placing

/-!
Where a class is looked for by its name. Only names that are parts with dots
between them are looked for, and no part has a separator of its own; so the path
of what was found is the root with the parts behind it, and what follows the root
leads back to the name. Different names never share a path. They share a file
only over a link below the root, and only such a link leads out of it.
-/

set_option autoImplicit false

namespace Retarget

open Retarget.Path (IsName isVoid)

namespace Path

variable {base p root : Path} {anchor : Option Component} {front names : List String}

private theorem trimEnd_names (hnames : ∀ name ∈ names, IsName name) : trimEnd names = names := by
  cases names using List.reverseRecOn with
  | nil => rfl
  | append_singleton front last => exact trimEnd_concat (hnames last (by simp)).1 front

private theorem dropWhile_names (hnames : ∀ name ∈ names, IsName name) :
    names.dropWhile isVoid = names := by
  cases names with
  | nil => rfl
  | cons first rest =>
    exact List.dropWhile_cons_of_neg (Bool.eq_false_iff.mp (hnames first List.mem_cons_self).1)

private theorem ofAnchor_names (hnames : ∀ name ∈ names, IsName name) (hne : names ≠ []) :
    ofAnchor none (trimEnd names) = ⟨names⟩ := by
  rw [trimEnd_names hnames]
  obtain ⟨first, rest, rfl⟩ := List.exists_cons_of_ne_nil hne
  rfl

private theorem components_of_anchorSplit {body : List String}
    (h : p.anchorSplit = (anchor, body)) :
    p.components = anchor.toList ++ body.filterMap Component.ofSegment? := by
  rw [components, h]

private theorem relativeTo?_of_anchorSplit (hp : p.anchorSplit = (anchor, front ++ names))
    (hbase : base.components = anchor.toList ++ front.filterMap Component.ofSegment?)
    (hsteps : base.components ≠ []) (hnames : ∀ name ∈ names, IsName name) (hne : names ≠ []) :
    base.relativeTo? p = some ⟨names⟩ := by
  have hprefix : base.components.isPrefixOf p.components = true := by
    rw [components_of_anchorSplit hp, List.filterMap_append, ← List.append_assoc, ← hbase,
      List.isPrefixOf_iff_prefix]
    exact List.prefix_append _ _
  have hskipped : base.components.length - anchor.toList.length =
      (front.filterMap Component.ofSegment?).length := by
    rw [hbase, List.length_append, Nat.add_sub_cancel_left]
  have hcount : base.components.length ≠ 0 := fun h => hsteps (List.length_eq_zero_iff.mp h)
  rw [relativeTo?, hp]
  dsimp only
  rw [if_pos hprefix, if_neg hcount, hskipped, dropWhile_dropSteps, dropWhile_names hnames,
    ofAnchor_names hnames hne]

private theorem exists_anchorSplit (hbase : base.isEmpty = false)
    (hnames : ∀ name ∈ names, IsName name)
    (hne : names ≠ []) : ∃ anchor front,
      (base.join ⟨names⟩).anchorSplit = (anchor, front ++ names) ∧
      base.components = anchor.toList ++ front.filterMap Component.ofSegment? ∧
      base.components ≠ [] := by
  obtain ⟨start, slash, hsegments, hslash, hstart, hjoin⟩ :=
    segments_join hbase (isAbsolute_of_names hnames)
  obtain ⟨first, rest, rfl⟩ := List.exists_cons_of_ne_nil hstart
  have hvoid : slash.filterMap Component.ofSegment? = [] := by
    rcases hslash with rfl | rfl <;> rfl
  have hrest : (rest ++ slash).filterMap Component.ofSegment? =
      rest.filterMap Component.ofSegment? := by
    rw [List.filterMap_append, hvoid, List.append_nil]
  have hbase' : base = ⟨first :: (rest ++ slash)⟩ := congrArg Path.mk hsegments
  have hjoin' : base.join ⟨names⟩ = ⟨first :: (rest ++ names)⟩ := congrArg Path.mk hjoin
  rw [hjoin']
  by_cases hroot : first = ""
  · subst hroot
    have hbody : rest ++ slash ≠ [] := by
      intro hnil
      rw [hbase', hnil] at hbase
      cases hbase
    refine ⟨some .root, rest, anchorSplit_rooted (by simp [hne]), ?_, ?_⟩
    · rw [hbase', components_rooted hbody, hrest]
      rfl
    · rw [hbase', components_rooted hbody]
      exact List.cons_ne_nil _ _
  · by_cases hdot : first = "."
    · subst hdot
      refine ⟨some .current, rest, rfl, ?_, ?_⟩
      · rw [hbase', ← hrest]
        rfl
      · rw [hbase']
        exact List.cons_ne_nil _ _
    · have hfirst : isVoid first = false := by simp [isVoid, hroot, hdot]
      refine ⟨none, first :: rest, anchorSplit_of_first hfirst _, ?_, ?_⟩
      · rw [hbase', components_of_first hfirst, List.filterMap_cons, hrest,
          ← List.filterMap_cons]
        rfl
      · rw [hbase', components_of_first hfirst, List.filterMap_cons,
          ofSegment?_of_not_isVoid hfirst]
        exact List.cons_ne_nil _ _

private theorem relativeTo?_join (root : Path) (hnames : ∀ name ∈ names, IsName name)
    (hne : names ≠ []) :
    root.relativeTo? (root.join ⟨names⟩) = some ⟨names⟩ := by
  cases hroot : root.isEmpty with
  | false =>
    obtain ⟨anchor, front, hsplit, hcomponents, hsteps⟩ := exists_anchorSplit hroot hnames hne
    exact relativeTo?_of_anchorSplit hsplit hcomponents hsteps hnames hne
  | true =>
    obtain ⟨first, rest, rfl⟩ := List.exists_cons_of_ne_nil hne
    have hfirst := (hnames first List.mem_cons_self).1
    rw [join, hroot, Bool.or_true, if_pos rfl, relativeTo?, components_of_isEmpty hroot,
      anchorSplit_of_first hfirst]
    exact congrArg some (ofAnchor_names hnames hne)

private theorem components_join (root : Path) (hnames : ∀ name ∈ names, IsName name)
    (hne : names ≠ []) :
    (root.join ⟨names⟩).components = root.components ++ names.map .normal := by
  cases hroot : root.isEmpty with
  | false =>
    obtain ⟨anchor, front, hsplit, hcomponents, -⟩ := exists_anchorSplit hroot hnames hne
    have hsteps : names.filterMap Component.ofSegment? = names.map .normal := by
      rw [← List.filterMap_eq_map]
      exact List.filterMap_congr fun name hname => ofSegment?_of_isName (hnames name hname)
    rw [components_of_anchorSplit hsplit, hcomponents, List.filterMap_append, hsteps,
      List.append_assoc]
  | true =>
    rw [join, hroot, Bool.or_true, if_pos rfl, components_of_isEmpty hroot, List.nil_append,
      components_of_names hnames]

end Path

namespace FileTree

variable {t : FileTree} {b q names : Place} {root p : Path} {node : Node}

/-- Going down from a place by names leads over a link, or ends at one. -/
def Linked (t : FileTree) (b names : Place) : Prop :=
  ∃ front target, front ≠ [] ∧ front <+: names ∧ t.at? (b ++ front) = some (.link target)

private theorem Linked.cons {name : String} (h : t.Linked (b ++ [name]) names) :
    t.Linked b (name :: names) := by
  obtain ⟨front, target, -, hfront, hat⟩ := h
  rw [List.append_assoc] at hat
  exact ⟨name :: front, target, List.cons_ne_nil _ _, (List.prefix_cons_inj name).mpr hfront, hat⟩

private theorem Reaches.eq_or_linked (hnames : ∀ name ∈ names, IsName name)
    (h : t.Reaches b names q) :
    q = b ++ names ∨ t.Linked b names := by
  induction names generalizing b with
  | nil =>
    cases h
    exact .inl (List.append_nil _).symm
  | cons name names ih =>
    obtain ⟨hname, hnames⟩ := List.forall_mem_cons.mp hnames
    cases h with
    | pass hlink hrest =>
      rw [Path.step_name hname] at hrest
      rcases ih hnames hrest with rfl | hlinked
      · exact .inl (List.append_assoc _ _ _)
      · exact .inr hlinked.cons
    | link _ hat =>
      exact .inr ⟨[name], _, List.cons_ne_nil _ _, List.prefix_append [name] names, hat⟩

private theorem below_of_lookup_join (hnames : ∀ name ∈ names, IsName name)
    (h : t.lookup true (root.join ⟨names⟩) = .ok (q, node)) : ∃ b, t.Reaches [] root.segments b ∧
      (q = b ++ names ∨ t.Linked b names) := by
  have hreach := reaches_of_lookup h
  cases hroot : root.isEmpty with
  | false =>
    obtain ⟨front, slash, hsegments, hslash, -, hjoin⟩ :=
      Path.segments_join hroot (Path.isAbsolute_of_names hnames)
    rw [hjoin] at hreach
    obtain ⟨b, hfront, hback⟩ := hreach.split
    refine ⟨b, ?_, hback.eq_or_linked hnames⟩
    rw [hsegments]
    exact hfront.append (.of_void (Path.isVoid_of_slash hslash) b)
  | true =>
    rw [Path.join, hroot, Bool.or_true, if_pos rfl] at hreach
    refine ⟨[], .of_void (fun s hs => ?_) [], hreach.eq_or_linked hnames⟩
    rcases Path.isEmpty_iff.mp hroot with hnil | hvoid
    · rw [hnil] at hs
      cases hs
    · rw [hvoid] at hs
      rw [List.mem_singleton.mp hs]
      rfl

end FileTree

namespace ClassPath

open FileTree

variable {t : FileTree} {root p : Path} {verify : Bool} {name other : String} {cp : ClassPath}

private theorem parts_of_isWellFormed (h : isWellFormed name = true) : ∀ part ∈ Text.split '.' name,
    part ≠ "" ∧ '.' ∉ part.toList ∧ '/' ∉ part.toList ∧ '\\' ∉ part.toList := by
  rw [isWellFormed, Bool.and_eq_true, Bool.and_eq_true, Bool.not_eq_true', Bool.not_eq_true',
    List.all_eq_true] at h
  obtain ⟨⟨hslash, hbackslash⟩, hparts⟩ := h
  have hfree : ∀ {c : Char}, name.toList.contains c = false → ∀ part ∈ Text.split '.' name,
      c ∉ part.toList := by
    intro c hc part hpart hmem
    rw [Text.split, List.mem_map] at hpart
    obtain ⟨piece, hpiece, rfl⟩ := hpart
    rw [String.toList_ofList] at hmem
    have hname := List.contains_iff_mem.mpr (Text.mem_of_mem_pieces hpiece hmem)
    cases hc.symm.trans hname
  intro part hpart
  refine ⟨?_, dot_not_mem_split hpart, hfree hslash part hpart, hfree hbackslash part hpart⟩
  rintro rfl
  cases hparts _ hpart

private theorem find_new_ok (h : find t name (new root verify) = .ok p cp) :
    isWellFormed name = true ∧
    p = root.join ⟨placeOf name⟩ ∧ t.isFile p = true := by
  obtain ⟨⟨rfl, hname⟩, -⟩ := find_grown (grown_new root verify) h
  have hroot : (new root verify).root = root := rfl
  refine ⟨hname, pathOf_eq root hname, ?_⟩
  have hnone : (new root verify).resolved[name]? = none := by simp [new]
  rw [find, hnone] at h
  dsimp only at h
  split_ifs at h with hfile
  rw [Bool.and_eq_true] at hfile
  exact hfile.2

private theorem components_of_find (h : find t name (new root verify) = .ok p cp) :
    p.components = root.components ++ (placeOf name).map .normal := by
  obtain ⟨hname, rfl, -⟩ := find_new_ok h
  exact Path.components_join root (isName_placeOf hname) (by simp [placeOf])

private theorem eq_of_components {p' : Path} {cp' : ClassPath}
    (h : find t name (new root verify) = .ok p cp)
    (h' : find t other (new root verify) = .ok p' cp') (hp : p'.components = p.components) :
    other = name := by
  rw [components_of_find h, components_of_find h', List.append_cancel_left_eq] at hp
  have hplace : placeOf other = placeOf name :=
    (List.map_inj_right fun a b hab => Component.normal.inj hab).mp hp
  exact eq_of_placeOf_prefix (hplace ▸ List.prefix_rfl)

private theorem exists_place_of_find (h : find t name (new root verify) = .ok p cp) :
    ∃ b q content, t.Reaches [] root.segments b ∧ t.lookup true p = .ok (q, .file content) ∧
      (q = b ++ placeOf name ∨ t.Linked b (placeOf name)) := by
  obtain ⟨hname, rfl, hfile⟩ := find_new_ok h
  obtain ⟨q, content, hlookup⟩ := isFile_iff.mp hfile
  obtain ⟨b, hb, hplace⟩ := below_of_lookup_join (isName_placeOf hname) hlookup
  exact ⟨b, q, content, hb, hlookup, hplace⟩

private theorem linked_of_same_place {p' : Path} {cp' : ClassPath} {b q : Place} {node node' : Node}
    (h : find t name (new root verify) = .ok p cp)
    (h' : find t other (new root verify) = .ok p' cp') (hother : other ≠ name)
    (hb : t.Reaches [] root.segments b) (hlookup : t.lookup true p = .ok (q, node))
    (hlookup' : t.lookup true p' = .ok (q, node')) :
    t.Linked b (placeOf name) ∨ t.Linked b (placeOf other) := by
  obtain ⟨hname, rfl, -⟩ := find_new_ok h
  obtain ⟨hname', rfl, -⟩ := find_new_ok h'
  obtain ⟨c, hc, hplace⟩ := below_of_lookup_join (isName_placeOf hname) hlookup
  obtain ⟨c', hc', hplace'⟩ := below_of_lookup_join (isName_placeOf hname') hlookup'
  cases hb.unique hc
  cases hb.unique hc'
  rcases hplace with rfl | hlinked
  · rcases hplace' with heq | hlinked'
    · have hsame : placeOf name = placeOf other := List.append_cancel_left heq
      have hname : name = other := eq_of_placeOf_prefix (hsame ▸ List.prefix_rfl)
      exact absurd hname.symm hother
    · exact .inr hlinked'
  · exact .inl hlinked

/-- A name that is found is made of parts with dots between them, and is found at the root with these
parts as names behind it, the last with the extension of class files. What follows the root leads back
to the name, so no other name is found at this path. The file that is there lies straight below the
root unless a link leads elsewhere, and without links it is the file of no other name. -/
theorem find_locates (h : find t name (new root verify) = .ok p cp) : ∃ dirs stem,
    placeOf name = dirs ++ [stem ++ ".class"] ∧ name = Text.join "." (dirs ++ [stem]) ∧
    (∀ part ∈ dirs ++ [stem],
      part ≠ "" ∧ '.' ∉ part.toList ∧ '/' ∉ part.toList ∧ '\\' ∉ part.toList) ∧
    p.components = root.components ++ (dirs ++ [stem ++ ".class"]).map .normal ∧
    (∃ rest, root.relativeTo? p = some rest ∧
      rest.components = (dirs ++ [stem ++ ".class"]).map .normal ∧ rest.binaryName = name) ∧
    (∀ other p' cp', find t other (new root verify) = .ok p' cp' → other ≠ name →
      p'.components ≠ p.components) ∧
    ∃ b q content, t.Reaches [] root.segments b ∧ t.lookup true p = .ok (q, .file content) ∧
      (q = b ++ placeOf name ∨ t.Linked b (placeOf name)) ∧
      ∀ other p' cp', find t other (new root verify) = .ok p' cp' → other ≠ name →
        (∃ node, t.lookup true p' = .ok (q, node)) →
          t.Linked b (placeOf name) ∨ t.Linked b (placeOf other) := by
  obtain ⟨hname, hp, -⟩ := find_new_ok h
  have hnames := isName_placeOf hname
  have hne : placeOf name ≠ [] := by simp [placeOf]
  have hrest : root.relativeTo? p = some ⟨placeOf name⟩ := hp ▸ Path.relativeTo?_join root hnames hne
  have hback : (⟨placeOf name⟩ : Path).binaryName = name := (binaryName_placeOf hname).2
  refine ⟨(Text.split '.' name).dropLast, (Text.split '.' name).getLastD "", rfl, ?_, ?_,
    components_of_find h, ⟨_, hrest, Path.components_of_names hnames, hback⟩, ?_, ?_⟩
  · rw [dropLast_split]
    exact (Text.join_split '.' name).symm
  · rw [dropLast_split]
    exact parts_of_isWellFormed hname
  · exact fun other p' cp' h' hother hsame => hother (eq_of_components h h' hsame)
  · obtain ⟨b, q, content, hb, hlookup, hplace⟩ := exists_place_of_find h
    refine ⟨b, q, content, hb, hlookup, hplace, ?_⟩
    rintro other p' cp' h' hother ⟨node, hlookup'⟩
    exact linked_of_same_place h h' hother hb hlookup hlookup'

def linkedSample : FileTree :=
  FileTree.empty |>.set ["in"] .directory
    |>.set ["in", "a"] .directory
    |>.set ["in", "a", "B.class"] (.file (Pass.namedClass "a/B"))
    |>.set ["in", "C.class"] (.link ⟨["a", "B.class"]⟩)

/-- The link is found at a path of its own, and leads to a file that is not where it is. -/
theorem find_locates_linkedSample : ∃ p cp,
    find linkedSample "C" (new ⟨["in", ""]⟩ true) = .ok p cp ∧
    p.components = [.normal "in", .normal "C.class"] ∧
    linkedSample.lookup true p = .ok (["in", "a", "B.class"], .file (Pass.namedClass "a/B")) ∧
    linkedSample.Linked ["in"] ["C.class"] := by
  have hfile : linkedSample.isFile (pathOf ⟨["in", ""]⟩ "C") = true := by decide +kernel
  obtain ⟨cp, hfind⟩ := exists_find (grown_new ⟨["in", ""]⟩ true) (by decide) hfile
  obtain ⟨dirs, stem, hplace, -, -, hcomponents, -, -, b, q, content, hb, hlookup, hbelow, -⟩ :=
    find_locates hfind
  rw [← hplace] at hcomponents
  have hfound : linkedSample.lookup true (pathOf ⟨["in", ""]⟩ "C") =
      .ok (["in", "a", "B.class"], .file (Pass.namedClass "a/B")) := by decide +kernel
  have hroot : linkedSample.Reaches [] ["in", ""] ["in"] := by
    have hat : linkedSample.at? ["in"] = some .directory := by decide +kernel
    refine .pass (fun _ target hlink => ?_) (.of_void (by decide) ["in"])
    cases hat.symm.trans hlink
  refine ⟨_, cp, hfind, hcomponents, hfound, ?_⟩
  cases hb.unique hroot
  cases hfound.symm.trans hlookup
  exact hbelow.resolve_left (by decide)

end ClassPath

end Retarget
