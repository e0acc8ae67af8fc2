import Retarget.Proofs.Files.Lookup

/-!
What the operations do to a plain tree. Writing puts a file at the place of its
path, removing takes the file there away, making directories adds directories,
and cleaning takes away what is below a place. The tree stays plain.
-/

set_option autoImplicit false

namespace Retarget.FileTree

open Retarget.Path (IsName)

variable {t t' t₁ : FileTree} {follow : Bool} {p : Path} {q place names : Place} {node : Node}
  {content : Bytes}

def fileAt? (t : FileTree) (q : Place) : Option Bytes :=
  match t.at? q with
  | some (.file content) => some content
  | _ => none

theorem fileAt?_eq_some_iff : t.fileAt? q = some content ↔ t.at? q = some (.file content) := by
  unfold fileAt?
  split <;> simp_all

theorem fileAt?_congr (h : t'.at? q = t.at? q) : t'.fileAt? q = t.fileAt? q := by
  rw [fileAt?, h, fileAt?]

theorem mem_below : (names, node) ∈ t.below place ↔
    names ≠ [] ∧ t.at? (place ++ names) = some node := by
  rw [below, List.mem_filterMap]
  constructor
  · rintro ⟨⟨other, node'⟩, hmem, hentry⟩
    simp only at hentry
    split_ifs at hentry with hbelow
    cases hentry
    simp only [Bool.and_eq_true, decide_eq_true_eq, List.isPrefixOf_iff_prefix] at hbelow
    obtain ⟨⟨names, rfl⟩, hne⟩ := hbelow
    rw [List.drop_left]
    have hnames : names ≠ [] := fun hnil => hne (by rw [hnil, List.append_nil])
    refine ⟨hnames, ?_⟩
    rw [Std.ExtTreeMap.mem_toList_iff_getElem?_eq_some] at hmem
    cases hwhole : place ++ names with
    | nil => exact absurd (List.append_eq_nil_iff.mp hwhole).2 hnames
    | cons first rest => rwa [hwhole] at hmem
  · rintro ⟨hnames, hnode⟩
    refine ⟨(place ++ names, node), ?_, ?_⟩
    · exact mem_toList_of_at? (fun hnil => hnames (List.append_eq_nil_iff.mp hnil).2) hnode
    · have hbelow : place.isPrefixOf (place ++ names) = true :=
        List.isPrefixOf_iff_prefix.mpr (List.prefix_append place names)
      simp [hbelow, hnames]

theorem file_of_contents (ht : t.Plain) (h : t.contents p = .ok content) :
    t.at? p.place = some (.file content) := by
  rw [contents] at h
  split at h
  · next hlookup =>
    split_ifs at h
    cases h
    exact (at?_of_lookup ht hlookup).2
  all_goals cases h

theorem resolve_of_lookup {follow : Bool} {found : Place × Node}
    (h : t.lookup follow p = .ok found) : ∃ spot, t.resolve follow p = .ok spot := by
  rw [lookup, lookupIn, ← resolve] at h
  cases hspot : t.resolve follow p with
  | ok spot => exact ⟨spot, rfl⟩
  | error trouble =>
    rw [hspot] at h
    cases h

/-- The second tree has the directories of the first one and perhaps more, and the same files at
all places but one kind. -/
structure Keeps (t t' : FileTree) (changed : Place → Prop) : Prop where
  plain : t'.Plain
  directories : ∀ {q : Place}, t.at? q = some .directory → t'.at? q = some .directory
  files : ∀ {q : Place}, ¬ changed q → t'.fileAt? q = t.fileAt? q

theorem Keeps.refl (ht : t.Plain) (changed : Place → Prop) : t.Keeps t changed :=
  ⟨ht, fun h => h, fun _ => rfl⟩

theorem Keeps.trans {changed : Place → Prop} (h : t.Keeps t₁ changed) (h' : t₁.Keeps t' changed) :
    t.Keeps t' changed :=
  ⟨h'.plain, fun hq => h'.directories (h.directories hq),
    fun hq => (h'.files hq).trans (h.files hq)⟩

theorem Keeps.mono {changed changed' : Place → Prop} (h : t.Keeps t' changed)
    (himp : ∀ q, changed q → changed' q) : t.Keeps t' changed' :=
  ⟨h.plain, h.directories, fun hq => h.files fun hc => hq (himp _ hc)⟩

theorem append_singleton_ne_nil (q : Place) (name : String) : q ++ [name] ≠ [] := by simp

private theorem Plain.set {name : String} {node : Node} (ht : t.Plain)
    (hq : t.at? q = some .directory)
    (hname : IsName name) (hold : t.at? (q ++ [name]) ≠ some .directory)
    (hnode : ∀ target, node ≠ .link target) : (t.set (q ++ [name]) node).Plain where
  noLink {r target} h := by
    rw [at?_set (append_singleton_ne_nil q name)] at h
    split_ifs at h with hr
    · exact hnode target (Option.some.inj h)
    · exact ht.noLink h
  parent {r name' node'} h := by
    rw [at?_set (append_singleton_ne_nil q name)] at h ⊢
    split_ifs at h with hr
    · obtain ⟨rfl, -⟩ := List.append_inj' hr rfl
      rw [if_neg (by simp), hq]
    · have hparent := ht.parent h
      have hne : r ≠ q ++ [name] := by
        rintro rfl
        exact hold hparent
      rw [if_neg hne, hparent]
  named {r name' node'} h := by
    rw [at?_set (append_singleton_ne_nil q name)] at h
    split_ifs at h with hr
    · obtain ⟨-, hlast⟩ := List.append_inj' hr rfl
      exact List.singleton_inj.mp hlast ▸ hname
    · exact ht.named h

private theorem keeps_set_file {name : String} (ht : t.Plain) (hq : t.at? q = some .directory)
    (hname : IsName name) (hold : t.at? (q ++ [name]) ≠ some .directory) (content : Bytes) :
    t.Keeps (t.set (q ++ [name]) (.file content)) (· = q ++ [name]) ∧
      (t.set (q ++ [name]) (.file content)).fileAt? (q ++ [name]) = some content := by
  have hset := at?_set (append_singleton_ne_nil q name) (.file content) t
  refine ⟨⟨ht.set hq hname hold (fun _ => Node.noConfusion), fun {r} hr => ?_, fun {r} hr => ?_⟩, ?_⟩
  · have hne : r ≠ q ++ [name] := by
      rintro rfl
      exact hold hr
    rw [hset, if_neg hne, hr]
  · exact fileAt?_congr ((hset r).trans (if_neg hr))
  · rw [fileAt?_eq_some_iff, hset, if_pos rfl]

theorem resolve_of_write (h : t.write p content = .ok t') : ∃ spot, t.resolve true p = .ok spot := by
  rw [write] at h
  cases hspot : t.resolve true p with
  | ok spot => exact ⟨spot, rfl⟩
  | error trouble =>
    rw [hspot] at h
    cases h

theorem write_ok (ht : t.Plain) (h : t.write p content = .ok t') :
    t.Keeps t' (· = p.place) ∧ t'.fileAt? p.place = some content := by
  rw [write] at h
  cases hspot : t.resolve true p with
  | error trouble =>
    rw [hspot] at h
    cases h
  | ok spot =>
    rw [hspot] at h
    cases leads_of_resolve ht hspot with
    | vacant hq hdirectory hnone hname =>
      rename_i q name slash
      cases slash with
      | true => cases h
      | false =>
        cases h
        rw [← hq] at hnone ⊢
        have hold : t.at? (q ++ [name]) ≠ some .directory := by simp [hnone]
        exact keeps_set_file ht hdirectory hname hold content
    | found hnode =>
      rename_i node
      cases node with
      | directory => cases h
      | link target => exact absurd hnode ht.noLink
      | file old =>
        cases h
        have hne : p.place ≠ [] := by
          intro hnil
          rw [hnil] at hnode
          cases hnode
        have hdirectory := ht.parent_of_ne hnode hne
        rw [← List.dropLast_concat_getLast hne] at hnode ⊢
        refine keeps_set_file ht hdirectory (ht.named hnode) ?_ content
        rw [hnode]
        exact fun heq => Node.noConfusion (Option.some.inj heq)

private theorem keeps_set_directory {name : String} (ht : t.Plain) (hq : t.at? q = some .directory)
    (hname : IsName name) (hnone : t.at? (q ++ [name]) = none) :
    t.Keeps (t.set (q ++ [name]) .directory) (fun _ => False) := by
  have hset := at?_set (append_singleton_ne_nil q name) .directory t
  have hold : t.at? (q ++ [name]) ≠ some .directory := by simp [hnone]
  refine ⟨ht.set hq hname hold (fun _ => Node.noConfusion), fun {r} hr => ?_, fun {r} _ => ?_⟩
  · rw [hset]
    split_ifs
    · rfl
    · exact hr
  · by_cases hr : r = q ++ [name]
    · rw [fileAt?, hset, if_pos hr, fileAt?, hr, hnone]
    · exact fileAt?_congr ((hset r).trans (if_neg hr))

private theorem keeps_makeAlong (segments : List String) (place : Place) (links : Nat)
    (t : FileTree)
    (ht : t.Plain) (hplace : t.at? place = some .directory) :
    t.Keeps (makeAlong segments place links t).1 (fun _ => False) := by
  fun_induction makeAlong segments place links t with
  | case1 => exact .refl ht _
  | case2 segment rest place links t hvoid ih => exact ih ht hplace
  | case3 rest place links t hvoid ih => exact ih ht (ht.dropLast_directory hplace)
  | case6 segment rest place links t hvoid hparent hlong hnone hdot ih =>
    have hname : IsName segment := ⟨Bool.eq_false_iff.mpr hvoid, hparent⟩
    have hkeeps := keeps_set_directory ht hplace hname hnone
    have hmade : (t.set (place ++ [segment]) .directory).at? (place ++ [segment]) =
        some .directory := by
      rw [at?_set (append_singleton_ne_nil place segment), if_pos rfl]
    exact hkeeps.trans (ih hkeeps.plain hmade)
  | case7 segment rest place links t hvoid hparent hlong hbelow ih => exact ih ht hbelow
  | case10 segment rest place t hvoid hparent hlong target links hlink =>
    exact absurd hlink ht.noLink
  -- something is wrong with the segment: nothing is made
  | case4 | case5 | case8 | case9 | case11 => exact .refl ht _

theorem keeps_makeDirectories (p : Path) (ht : t.Plain) :
    t.Keeps (t.makeDirectories p).1 (fun _ => False) := by
  rw [makeDirectories, makeDirectoriesIn, Path.start_root]
  split_ifs
  · exact .refl ht _
  · split
    · exact .refl ht _
    · exact .refl ht _
    · exact keeps_makeAlong _ _ _ _ ht rfl
    · exact keeps_makeAlong _ _ _ _ ht rfl
    · exact .refl ht _

theorem at?_erase (hplace : place ≠ []) (t : FileTree) (q : Place) :
    (⟨t.nodes.erase place⟩ : FileTree).at? q = if q = place then none else t.at? q := by
  cases q with
  | nil => rw [if_neg (Ne.symm hplace)]; rfl
  | cons name names =>
    rw [at?_cons, at?_cons, Std.ExtTreeMap.getElem?_erase]
    by_cases heq : name :: names = place
    · rw [if_pos heq, if_pos (Std.LawfulEqCmp.compare_eq_iff_eq.mpr heq.symm)]
    · rw [if_neg heq, if_neg fun h => heq (Std.LawfulEqCmp.compare_eq_iff_eq.mp h).symm]

private theorem keeps_erase (ht : t.Plain) (hplace : place ≠ [])
    (hold : t.at? place ≠ some .directory) :
    t.Keeps ⟨t.nodes.erase place⟩ (· = place) where
  plain.noLink {q target} h := by
    rw [at?_erase hplace] at h
    split_ifs at h
    exact ht.noLink h
  plain.parent {q name node} h := by
    rw [at?_erase hplace] at h ⊢
    split_ifs at h
    have hparent := ht.parent h
    have hne : q ≠ place := by
      rintro rfl
      exact hold hparent
    rw [if_neg hne, hparent]
  plain.named {q name node} h := by
    rw [at?_erase hplace] at h
    split_ifs at h
    exact ht.named h
  directories {q} h := by
    have hne : q ≠ place := by
      rintro rfl
      exact hold h
    rw [at?_erase hplace, if_neg hne, h]
  files {q} h := fileAt?_congr ((at?_erase hplace t q).trans (if_neg h))

theorem lookup_of_removeFile (h : t.removeFile p = .ok t') : ∃ found, t.lookup false p = .ok found := by
  rw [removeFile] at h
  cases hlookup : t.lookup false p with
  | ok found => exact ⟨found, rfl⟩
  | error trouble =>
    rw [hlookup] at h
    cases trouble with
    | notFound =>
      simp only at h
      cases hslash : t.lookup false p.withoutSlash <;> rw [hslash] at h <;> cases h
    | _ => cases h

theorem lookup_of_removeFile_notFound (h : t.removeFile p = .error .notFound) :
    t.lookup false p = .error .notFound := by
  rw [removeFile] at h
  cases hlookup : t.lookup false p with
  | ok found =>
    obtain ⟨place, node⟩ := found
    rw [hlookup] at h
    cases node <;> cases h
  | error trouble =>
    rw [hlookup] at h
    cases trouble with
    | notFound => rfl
    | _ => cases h

theorem removeFile_ok (ht : t.Plain) (h : t.removeFile p = .ok t') :
    t.Keeps t' (· = p.place) ∧ t'.fileAt? p.place = none := by
  obtain ⟨⟨place, node⟩, hfound⟩ := lookup_of_removeFile h
  obtain ⟨rfl, hnode⟩ := at?_of_lookup ht hfound
  rw [removeFile, hfound] at h
  cases node with
  | directory => cases h
  | link target => exact absurd hnode ht.noLink
  | file old =>
    cases h
    have hne : p.place ≠ [] := by
      intro hnil
      rw [hnil] at hnode
      cases hnode
    have hold : t.at? p.place ≠ some .directory := by
      rw [hnode]
      exact fun heq => Node.noConfusion (Option.some.inj heq)
    refine ⟨keeps_erase ht hne hold, ?_⟩
    rw [fileAt?, at?_erase hne, if_pos rfl]

theorem at?_clear (place : Place) (t : FileTree) (q : Place) :
    (t.clear place).at? q = if place <+: q ∧ q ≠ place then none else t.at? q := by
  cases q with
  | nil =>
    rw [if_neg]
    · rfl
    · rintro ⟨hbelow, hne⟩
      exact hne (List.prefix_nil.mp hbelow).symm
  | cons name names =>
    rw [at?_cons, at?_cons, FileTree.clear, Std.ExtTreeMap.getElem?_filter']
    cases hnode : t.nodes[name :: names]? with
    | none => simp
    | some node =>
      by_cases hbelow : place <+: name :: names
      · have hin : place.isPrefixOf (name :: names) = true := List.isPrefixOf_iff_prefix.mpr hbelow
        by_cases heq : name :: names = place <;> simp [hin, hbelow, heq]
      · have hout : place.isPrefixOf (name :: names) = false := by
          rw [← Bool.not_eq_true, List.isPrefixOf_iff_prefix]
          exact hbelow
        simp [hout, hbelow]

theorem Plain.clear (ht : t.Plain) (place : Place) : (t.clear place).Plain where
  noLink {q target} h := by
    rw [at?_clear] at h
    split_ifs at h
    exact ht.noLink h
  parent {q name node} h := by
    rw [at?_clear] at h ⊢
    split_ifs at h with hbelow
    rw [if_neg, ht.parent h]
    -- what is not below the place is in a directory that is not below it either
    rintro ⟨hin, hne⟩
    refine hbelow ⟨hin.trans (List.prefix_append q [name]), ?_⟩
    intro heq
    have hlength := hin.length_le
    rw [← heq, List.length_append, List.length_singleton] at hlength
    omega
  named {q name node} h := by
    rw [at?_clear] at h
    split_ifs at h
    exact ht.named h

theorem clean_ok (ht : t.Plain) (h : t.clean p = .ok t') :
    t.lookup true p = .ok (p.place, .directory) ∧ t' = t.clear p.place ∨
      t.lookup true p = .error .notFound ∧ t' = t := by
  rw [clean] at h
  cases hlookup : t.lookup true p with
  | error trouble =>
    rw [hlookup] at h
    cases trouble with
    | notFound =>
      cases h
      exact .inr ⟨rfl, rfl⟩
    | _ => cases h
  | ok found =>
    obtain ⟨place, node⟩ := found
    obtain ⟨rfl, -⟩ := at?_of_lookup ht hlookup
    rw [hlookup] at h
    cases node with
    | directory =>
      cases h
      exact .inl ⟨rfl, rfl⟩
    | _ => cases h

end Retarget.FileTree
