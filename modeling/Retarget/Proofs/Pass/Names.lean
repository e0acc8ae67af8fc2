import Mathlib.Data.List.Basic
import Mathlib.Data.List.Induction
import Retarget.ClassPath
import Retarget.Proofs.Files.Spelling

/-!
The name of a class leads back to its file. The name is made of the steps of a
path, with dots between them, and gives way to slashes again when the file is
looked for or written; only if no part of the path holds a dot or a slash does
this give the path back.
-/

set_option autoImplicit false

namespace Retarget

namespace Path

variable {p root : Path} {name stem : String} {names front : List String}

theorem ne_empty_of_isName (h : IsName name) : name ≠ "" := by
  rintro rfl
  cases h.1

theorem isName_class (stem : String) : IsName (stem ++ ".class") := by
  have hmem : 'c' ∈ (stem ++ ".class").toList := by
    rw [String.toList_append]
    exact List.mem_append_right _ (by decide)
  have hne : ∀ s : String, 'c' ∉ s.toList → stem ++ ".class" ≠ s := fun s hs heq => hs (heq ▸ hmem)
  refine ⟨?_, hne ".." (by decide)⟩
  rw [isVoid, Bool.or_eq_false_iff, decide_eq_false_iff_not, decide_eq_false_iff_not]
  exact ⟨hne "" (by decide), hne "." (by decide)⟩

theorem isAbsolute_of_names (h : ∀ name ∈ names, IsName name) :
    (⟨names⟩ : Path).isAbsolute = false := by
  rw [isAbsolute]
  split
  · next s rest hnames =>
    have hname : "" ∈ (⟨names⟩ : Path).segments := by
      rw [hnames]
      exact List.mem_cons_self
    exact absurd rfl (ne_empty_of_isName (h _ hname))
  · rfl

theorem components_of_names (h : ∀ name ∈ names, IsName name) :
    (⟨names⟩ : Path).components = names.map .normal := by
  have hsteps : names.filterMap Component.ofSegment? = names.map .normal := by
    rw [← List.filterMap_eq_map]
    exact List.filterMap_congr fun name hname => ofSegment?_of_isName (h name hname)
  rw [components, anchorSplit]
  split
  · next anchor body hsplit =>
    split at hsplit
    · next s rest hnames =>
      have hname : "" ∈ (⟨names⟩ : Path).segments := by
        rw [hnames]
        exact List.mem_cons_self
      exact absurd rfl (ne_empty_of_isName (h _ hname))
    · next rest hnames =>
      have hname : "." ∈ (⟨names⟩ : Path).segments := by
        rw [hnames]
        exact List.mem_cons_self
      cases (h _ hname).1
    · cases hsplit
      exact hsteps

theorem place_of_names (h : ∀ name ∈ names, IsName name) : (⟨names⟩ : Path).place = names :=
  (walk_names h).trans (List.nil_append names)

theorem inner_of_names (h : ∀ name ∈ names, IsName name) (hne : names ≠ []) :
    (⟨names⟩ : Path).Inner where
  relative := isAbsolute_of_names h
  noParent hmem := (h _ hmem).2 rfl
  components := by rw [components_of_names h, place_of_names h]
  names := by rwa [place_of_names h]
  place := by rwa [place_of_names h]

theorem Inner.binaryName (h : p.Inner) : p.binaryName = (⟨p.place⟩ : Path).binaryName := by
  rw [Path.binaryName, Path.binaryName, components_of_names h.names, h.components]

theorem Inner.hasClassExtension (h : p.Inner) :
    p.hasClassExtension = (⟨p.place⟩ : Path).hasClassExtension := by
  rw [Path.hasClassExtension, Path.hasClassExtension, extension?, extension?, fileName?, fileName?,
    components_of_names h.names, h.components]

private theorem endsWithSlash_of_names (segments : List String) (h : ∀ name ∈ names, IsName name)
    (hne : names ≠ []) : (⟨segments ++ names⟩ : Path).isEmpty = false ∧
      (⟨segments ++ names⟩ : Path).endsWithSlash = false := by
  have hend := ne_empty_of_isName (h _ (List.getLast_mem hne))
  have hwhole : segments ++ names = (segments ++ names.dropLast) ++ [names.getLast hne] := by
    rw [List.append_assoc, List.dropLast_concat_getLast]
  rw [hwhole]
  cases segments ++ names.dropLast with
  | nil => simp [isEmpty, endsWithSlash, hend]
  | cons first rest => simp [isEmpty, endsWithSlash, hend]

theorem join_append {front back : List String} (root : Path)
    (hfront : (⟨front⟩ : Path).isAbsolute = false)
    (hwhole : (⟨front ++ back⟩ : Path).isAbsolute = false) :
    ∃ segments, root.join ⟨front⟩ = ⟨segments ++ front⟩ ∧
      root.join ⟨front ++ back⟩ = ⟨segments ++ front ++ back⟩ := by
  simp only [join, hfront, hwhole, Bool.false_or]
  split_ifs
  · exact ⟨[], rfl, rfl⟩
  · exact ⟨_, rfl, by rw [List.append_assoc]⟩
  · exact ⟨_, rfl, by rw [List.append_assoc]⟩

private theorem foldl_child (root : Path) (h : ∀ name ∈ names, IsName name) (hne : names ≠ []) :
    names.foldl child root = root.join ⟨names⟩ := by
  induction names using List.reverseRecOn with
  | nil => exact absurd rfl hne
  | append_singleton front name ih =>
    have hname : IsName name := h name (by simp)
    have hsingle : (⟨[name]⟩ : Path).isAbsolute = false :=
      isAbsolute_of_names fun s hs => List.mem_singleton.mp hs ▸ hname
    rw [List.foldl_append, List.foldl_cons, List.foldl_nil]
    by_cases hfront : front = []
    · subst hfront
      rfl
    · have hnames : ∀ s ∈ front, IsName s := fun s hs => h s (List.mem_append_left _ hs)
      rw [ih hnames hfront, child]
      obtain ⟨segments, hfront', hwhole⟩ :=
        join_append root (isAbsolute_of_names hnames) (isAbsolute_of_names h)
      obtain ⟨hempty, hslash⟩ := endsWithSlash_of_names segments hnames hfront
      rw [hfront', hwhole, join, hsingle, hempty, hslash]
      rfl

theorem join_injective {q : Path} (hroot : root.isEmpty = false) (hp : p.isAbsolute = false)
    (hq : q.isAbsolute = false) (h : root.join p = root.join q) : p = q := by
  simp only [join, hp, hq, hroot, Bool.or_false, Bool.false_eq_true, if_false] at h
  have hsegments : p.segments = q.segments := by
    split_ifs at h
    · exact List.append_cancel_left (congrArg segments h)
    · exact List.append_cancel_left (congrArg segments h)
  exact congrArg Path.mk hsegments

private theorem of_splitExtension? {extension : String}
    (h : splitExtension? name = some (stem, extension)) : name = stem ++ "." ++ extension := by
  rw [splitExtension?] at h
  split at h
  · cases h
  · next front back _ hsplit =>
    cases h
    apply String.toList_inj.mp
    have hname := Text.of_splitLast hsplit
    simp [hname]
  · cases h

private theorem stem_of_hasClassExtension (hnames : ∀ name ∈ names, IsName name)
    (h : (⟨names⟩ : Path).hasClassExtension = true) : ∃ front stem,
      names = front ++ [stem ++ ".class"] ∧
        splitExtension? (stem ++ ".class") = some (stem, "class") := by
  have hextension := of_decide_eq_true h
  rw [extension?, fileName?, components_of_names hnames] at hextension
  cases names using List.reverseRecOn with
  | nil => cases hextension
  | append_singleton front last =>
    rw [List.map_append, List.map_singleton, List.getLast?_concat, Option.bind_some,
      Option.map_eq_some_iff] at hextension
    obtain ⟨⟨stem, extension⟩, hsplit, hextension⟩ := hextension
    cases hextension
    have hlast : last = stem ++ ".class" := by
      rw [of_splitExtension? hsplit, String.append_assoc]
      rfl
    exact ⟨front, stem, by rw [hlast], hlast ▸ hsplit⟩

end Path

namespace ClassPath

open Retarget.Path (IsName)

variable {names : List String}

private theorem binaryName_of_names {front : List String} {stem : String}
    (hnames : ∀ name ∈ front ++ [stem ++ ".class"], IsName name)
    (hsplit : Path.splitExtension? (stem ++ ".class") = some (stem, "class")) (hne : stem ≠ ".") :
    (⟨front ++ [stem ++ ".class"]⟩ : Path).binaryName =
      Text.join (String.singleton '.') (front ++ [stem]) := by
  rw [Path.binaryName, Path.components_of_names hnames, List.map_map]
  have hid : Component.text ∘ Component.normal = id := rfl
  rw [hid, List.map_id, List.dropLast_concat, List.getLast?_concat, Option.toList_some,
    List.map_singleton, Path.withoutExtension, hsplit]
  simp only [if_neg hne]
  rfl

private theorem parts_of_names (hnames : ∀ name ∈ names, IsName name)
    (hclass : (⟨names⟩ : Path).hasClassExtension = true)
    (hdot : ∀ name ∈ names.dropLast, '.' ∉ name.toList)
    (hstem : ∀ stem, names.getLast? = some (stem ++ ".class") → '.' ∉ stem.toList) :
    ∃ front stem, names = front ++ [stem ++ ".class"] ∧
      (⟨names⟩ : Path).binaryName = Text.join (String.singleton '.') (front ++ [stem]) ∧
      ∀ part ∈ front ++ [stem], '.' ∉ part.toList := by
  obtain ⟨front, stem, rfl, hsplit⟩ := Path.stem_of_hasClassExtension hnames hclass
  have hdots : ∀ part ∈ front ++ [stem], '.' ∉ part.toList := by
    intro part hpart
    rcases List.mem_append.mp hpart with hpart | hpart
    · exact hdot part (by rwa [List.dropLast_concat])
    · rw [List.mem_singleton.mp hpart]
      exact hstem stem (List.getLast?_concat)
  have hne : stem ≠ "." := by
    rintro rfl
    exact hdots "." (by simp) (by decide)
  exact ⟨front, stem, rfl, binaryName_of_names hnames hsplit hne, hdots⟩

theorem pathOf_binaryName (root : Path) (hnames : ∀ name ∈ names, IsName name)
    (hclass : (⟨names⟩ : Path).hasClassExtension = true)
    (hslash : ∀ name ∈ names, '/' ∉ name.toList) (hdot : ∀ name ∈ names.dropLast, '.' ∉ name.toList)
    (hstem : ∀ stem, names.getLast? = some (stem ++ ".class") → '.' ∉ stem.toList) :
    pathOf root (⟨names⟩ : Path).binaryName = root.join ⟨names⟩ := by
  obtain ⟨front, stem, rfl, hname, hdots⟩ := parts_of_names hnames hclass hdot hstem
  have hslash' : ∀ part ∈ front ++ [stem], '/' ∉ part.toList := by
    intro part hpart
    rcases List.mem_append.mp hpart with hpart | hpart
    · exact hslash part (List.mem_append_left _ hpart)
    · rw [List.mem_singleton.mp hpart]
      intro hmem
      refine hslash (stem ++ ".class") (by simp) ?_
      rw [String.toList_append]
      exact List.mem_append_left _ hmem
  rw [hname, pathOf, Text.exchange_join _ _ hdots, ClassFile.pathBelow,
    Text.split_join (by simp) hslash', List.dropLast_concat, List.getLastD_concat,
    ← Path.foldl_child root hnames (by simp), List.foldl_append]
  rfl

section WellFormed

variable {name name' : String}

def placeOf (name : String) : Place :=
  (Text.split '.' name).dropLast ++ [(Text.split '.' name).getLastD "" ++ ".class"]

theorem placeOf_binaryName (hnames : ∀ name ∈ names, IsName name)
    (hclass : (⟨names⟩ : Path).hasClassExtension = true)
    (hdot : ∀ name ∈ names.dropLast, '.' ∉ name.toList)
    (hstem : ∀ stem, names.getLast? = some (stem ++ ".class") → '.' ∉ stem.toList) :
    placeOf (⟨names⟩ : Path).binaryName = names := by
  obtain ⟨front, stem, rfl, hname, hdots⟩ := parts_of_names hnames hclass hdot hstem
  rw [hname, placeOf, Text.split_join (by simp) hdots, List.dropLast_concat, List.getLastD_concat]

private theorem split_ne_nil (name : String) : Text.split '.' name ≠ [] := by
  rw [Text.split, Ne, List.map_eq_nil_iff]
  exact Text.pieces_ne_nil '.' name.toList

theorem dot_not_mem_split {segment : String} (h : segment ∈ Text.split '.' name) :
    '.' ∉ segment.toList := by
  rw [Text.split, List.mem_map] at h
  obtain ⟨piece, hpiece, rfl⟩ := h
  rw [String.toList_ofList]
  exact Text.not_mem_of_mem_pieces hpiece

private theorem dot_mem_last (name : String) :
    '.' ∈ ((Text.split '.' name).getLastD "" ++ ".class").toList := by
  rw [String.toList_append]
  exact List.mem_append_right _ (by decide)

theorem isName_of_mem_placeOf (h : isWellFormed name = true) :
    (∀ segment ∈ (Text.split '.' name).dropLast, IsName segment) ∧
      IsName ((Text.split '.' name).getLastD "" ++ ".class") := by
  have hsegments : ∀ segment ∈ Text.split '.' name, segment ≠ "" := by
    intro segment hsegment
    rw [isWellFormed, Bool.and_eq_true, List.all_eq_true] at h
    have hne := h.2 segment hsegment
    rintro rfl
    cases hne
  constructor
  · intro segment hsegment
    have hmem := List.dropLast_subset _ hsegment
    have hdot := dot_not_mem_split hmem
    have hne := hsegments segment hmem
    refine ⟨?_, ?_⟩
    · rw [Path.isVoid, Bool.or_eq_false_iff, decide_eq_false_iff_not, decide_eq_false_iff_not]
      refine ⟨hne, ?_⟩
      rintro rfl
      exact hdot (by decide)
    · rintro rfl
      exact hdot (by decide)
  · exact Path.isName_class _

theorem isName_placeOf (h : isWellFormed name = true) : ∀ segment ∈ placeOf name, IsName segment := by
  obtain ⟨hdirs, hlast⟩ := isName_of_mem_placeOf h
  intro segment hsegment
  rcases List.mem_append.mp hsegment with hsegment | hsegment
  · exact hdirs segment hsegment
  · exact List.mem_singleton.mp hsegment ▸ hlast

theorem slash_not_mem (h : isWellFormed name = true) : '/' ∉ name.toList := by
  intro hmem
  rw [isWellFormed, Bool.and_eq_true, Bool.and_eq_true] at h
  have hnot := h.1.1
  rw [List.contains_iff_mem.mpr hmem] at hnot
  cases hnot

theorem pathOf_eq (root : Path) (h : isWellFormed name = true) :
    pathOf root name = root.join ⟨placeOf name⟩ := by
  have hslash := slash_not_mem h
  rw [pathOf, ClassFile.pathBelow, Text.split_exchange hslash,
    ← Path.foldl_child root (isName_placeOf h) (by simp [placeOf]), placeOf, List.foldl_append]
  rfl

theorem dropLast_split (name : String) : (Text.split '.' name).dropLast ++
    [(Text.split '.' name).getLastD ""] = Text.split '.' name := by
  rw [List.getLastD_eq_getLast?, List.getLast?_eq_some_getLast (split_ne_nil name)]
  exact List.dropLast_concat_getLast (split_ne_nil name)

theorem getLastD_mem_split (name : String) :
    (Text.split '.' name).getLastD "" ∈ Text.split '.' name := by
  have hmem : (Text.split '.' name).getLastD "" ∈
      (Text.split '.' name).dropLast ++ [(Text.split '.' name).getLastD ""] :=
    List.mem_append_right _ List.mem_cons_self
  rwa [dropLast_split] at hmem

theorem binaryName_placeOf (h : isWellFormed name = true) :
    (⟨placeOf name⟩ : Path).hasClassExtension = true ∧ (⟨placeOf name⟩ : Path).binaryName = name := by
  have hnames := isName_placeOf h
  have hdot := dot_not_mem_split (getLastD_mem_split name)
  have hne : (Text.split '.' name).getLastD "" ≠ "" := by
    rw [isWellFormed, Bool.and_eq_true, List.all_eq_true] at h
    intro hempty
    have hsome := h.2 _ (getLastD_mem_split name)
    rw [hempty] at hsome
    cases hsome
  have hdots : (Text.split '.' name).getLastD "" ≠ "." := by
    intro heq
    rw [heq] at hdot
    exact hdot (by decide)
  have hsplit : Path.splitExtension? ((Text.split '.' name).getLastD "" ++ ".class") =
      some ((Text.split '.' name).getLastD "", "class") := by
    have hlist : ((Text.split '.' name).getLastD "" ++ ".class").toList =
        ((Text.split '.' name).getLastD "").toList ++ '.' :: "class".toList := by
      rw [String.toList_append]
      rfl
    rw [Path.splitExtension?, hlist, Text.splitLast_append (by decide)]
    split
    · next heq =>
      obtain ⟨hnil, -⟩ := Prod.mk.inj (Option.some.inj heq)
      exact absurd (String.toList_inj.mp hnil) hne
    · next heq =>
      obtain ⟨hstem, hclass⟩ := Prod.mk.inj (Option.some.inj heq)
      rw [← hstem, ← hclass, String.ofList_toList, String.ofList_toList]
    · next heq => cases heq
  constructor
  · rw [Path.hasClassExtension, Path.extension?, Path.fileName?, Path.components_of_names hnames,
      placeOf, List.map_append, List.map_singleton, List.getLast?_concat]
    simp only [Option.bind_some, hsplit, Option.map_some, decide_true]
  · rw [placeOf, binaryName_of_names hnames hsplit hdots, dropLast_split, Text.join_split]

/-- No class file is in the way of another one. -/
theorem eq_of_placeOf_prefix (h : placeOf name <+: placeOf name') : name = name' := by
  have hplace : placeOf name = placeOf name' := by
    rcases List.prefix_concat_iff.mp h with heq | hdirs
    · exact heq
    · have hlast : (Text.split '.' name).getLastD "" ++ ".class" ∈ (Text.split '.' name').dropLast :=
        hdirs.subset (List.mem_append_right _ List.mem_cons_self)
      exact absurd (dot_mem_last name) (dot_not_mem_split (List.dropLast_subset _ hlast))
  obtain ⟨hdirs, hlast⟩ := List.append_inj' hplace rfl
  have hstem : (Text.split '.' name).getLastD "" = (Text.split '.' name').getLastD "" := by
    have htext := congrArg String.toList (List.singleton_inj.mp hlast)
    rw [String.toList_append, String.toList_append] at htext
    exact String.toList_inj.mp (List.append_cancel_right htext)
  have hsplit : Text.split '.' name = Text.split '.' name' := by
    rw [← dropLast_split name, ← dropLast_split name', hdirs, hstem]
  rw [← Text.join_split '.' name, hsplit, Text.join_split]

end WellFormed

end ClassPath

end Retarget
