import Mathlib.Data.List.DropRight
import Mathlib.Data.List.Infix
import Retarget.ClassPath
import Retarget.Proofs.Files.Making
import Retarget.Proofs.Pass.Names

/-!
Storing files below a directory, and finding them again, where the directory may
lie behind links but holds none. The directories a file needs are made first,
those of its base among them. A file is stored exactly if no file is on its way
and no directory at its place; what it changes is told place by place, for any
number of files at once.
-/

set_option autoImplicit false

namespace Retarget

open Retarget.Path (IsName)

namespace Path

open FileTree (Firm)

variable {last : String} {segments front : List String}

theorem isVoid_of_slash {slash : List String} (h : slash = [] ∨ slash = [""]) :
    ∀ s ∈ slash, isVoid s = true := by
  intro s hs
  rcases h with rfl | rfl
  · cases hs
  · rw [List.mem_singleton.mp hs]
    rfl

private theorem trimEnd_eq (segments : List String) :
    trimEnd segments = segments.rdropWhile isVoid := rfl

theorem filter_trimEnd (segments : List String) :
    (trimEnd segments).filter (fun s => !isVoid s) = segments.filter fun s => !isVoid s := by
  rw [trimEnd_eq]
  induction segments using List.reverseRecOn with
  | nil => rfl
  | append_singleton segments last ih =>
    cases hvoid : isVoid last with
    | true => simp [hvoid, ih]
    | false => simp [hvoid]

theorem trimEnd_concat (h : isVoid last = false) (segments : List String) :
    trimEnd (segments ++ [last]) = segments ++ [last] := by
  rw [trimEnd_eq, List.rdropWhile_concat_neg]
  rw [h]
  exact Bool.false_ne_true

private theorem firm_trimEnd {start : List String} (hstart : ∀ s ∈ start, isVoid s = true)
    (segments : List String) : Firm (start ++ trimEnd segments) := by
  intro s hs hvoid
  by_cases hnil : trimEnd segments = []
  · rw [hnil, List.append_nil]
    exact hstart
  · have hlast : s = (trimEnd segments).getLast hnil := by
      rw [List.getLast?_append_of_ne_nil _ hnil, List.getLast?_eq_some_getLast hnil] at hs
      exact (Option.some.inj hs).symm
    have hnot := List.rdropWhile_last_not isVoid segments hnil
    exact absurd (hlast ▸ hvoid) hnot

theorem parent?_of_anchorSplit {p : Path} {anchor : Option Component} {body : List String}
    (hlast : IsName last) (h : p.anchorSplit = (anchor, body ++ [last])) :
    p.parent? = some (ofAnchor anchor (trimEnd body)) := by
  rw [parent?, h]
  simp only [trimEnd_concat hlast.1]
  split
  · next hnil => exact absurd hnil (FileTree.append_singleton_ne_nil body last)
  · rw [List.dropLast_concat]

theorem ofAnchor_trimEnd {first : String} (h : isVoid first = false) (rest : List String) :
    ofAnchor none (trimEnd (first :: rest)) = ⟨trimEnd (first :: rest)⟩ := by
  cases htrimmed : trimEnd (first :: rest) with
  | nil =>
    have hkept := filter_trimEnd (first :: rest)
    rw [htrimmed, List.filter_cons_of_pos (by rw [h]; rfl)] at hkept
    cases hkept
  | cons s more => rfl

theorem parent?_concat (hlast : IsName last) (hfront : front ≠ []) :
    ∃ parent : Path, (⟨front ++ [last]⟩ : Path).parent? = some parent ∧
      (parent.segments <+: front ∨ parent.segments = ["", ""]) ∧ Firm parent.segments ∧
      parent.segments.filter (fun s => !isVoid s) = front.filter fun s => !isVoid s := by
  obtain ⟨first, rest, rfl⟩ := List.exists_cons_of_ne_nil hfront
  have htrim : trimEnd rest <+: rest := List.rdropWhile_prefix isVoid rest
  by_cases hroot : first = ""
  · subst hroot
    have hsplit : (⟨"" :: rest ++ [last]⟩ : Path).anchorSplit = (some .root, rest ++ [last]) := by
      cases rest <;> rfl
    have hvoid : ∀ s ∈ [""], isVoid s = true := by
      intro s hs
      rw [List.mem_singleton.mp hs]
      rfl
    refine ⟨_, parent?_of_anchorSplit hlast hsplit, ?_⟩
    have hkept := filter_trimEnd rest
    have hfirm := firm_trimEnd hvoid rest
    cases hrest : trimEnd rest with
    | nil =>
      rw [hrest] at hkept
      refine ⟨.inr rfl, fun _ _ _ s hs => ?_, ?_⟩
      · rcases List.mem_cons.mp hs with rfl | hs
        · rfl
        · rw [List.mem_singleton.mp hs]
          rfl
      · rw [List.filter_cons_of_neg (by decide), ← hkept]
        rfl
    | cons s more =>
      rw [hrest] at hkept hfirm htrim
      refine ⟨.inl ?_, hfirm, ?_⟩
      · exact List.cons_prefix_cons.mpr ⟨rfl, htrim⟩
      · rw [List.filter_cons_of_neg (by decide), ← hkept]
        exact List.filter_cons_of_neg (by decide)
  · by_cases hcurrent : first = "."
    · subst hcurrent
      have hsplit : (⟨"." :: rest ++ [last]⟩ : Path).anchorSplit =
          (some .current, rest ++ [last]) := rfl
      have hvoid : ∀ s ∈ ["."], isVoid s = true := by
        intro s hs
        rw [List.mem_singleton.mp hs]
        rfl
      refine ⟨_, parent?_of_anchorSplit hlast hsplit, .inl ?_, firm_trimEnd hvoid rest, ?_⟩
      · exact List.cons_prefix_cons.mpr ⟨rfl, htrim⟩
      · rw [List.filter_cons_of_neg (by decide), ← filter_trimEnd rest]
        exact List.filter_cons_of_neg (by decide)
    · have hsplit : (⟨first :: rest ++ [last]⟩ : Path).anchorSplit =
          (none, (first :: rest) ++ [last]) := by
        rw [anchorSplit]
        split
        · next heq => exact absurd (List.cons.inj heq).1 hroot
        · next heq => exact absurd (List.cons.inj heq).1 hcurrent
        · rfl
      have hname : isVoid first = false := by simp [isVoid, hroot, hcurrent]
      refine ⟨_, parent?_of_anchorSplit hlast hsplit, ?_⟩
      rw [ofAnchor_trimEnd hname]
      refine ⟨.inl (List.rdropWhile_prefix isVoid _), ?_, filter_trimEnd _⟩
      exact firm_trimEnd (fun s hs => (List.not_mem_nil hs).elim) (first :: rest)

end Path

namespace FileTree

variable {t t' t₁ t₂ : FileTree} {links left : Nat} {place q b names dirs front : Place}
  {name : String} {rest : List String} {base p : Path} {node : Node} {content : Bytes}
  {files : List (Place × Bytes)} {file : Place × Bytes}

def Sayable (p : Path) : Prop := isSound p = true ∧ isOverlong p = false

def Linkless (t : FileTree) (b : Place) : Prop :=
  ∀ (names : Place) (target : Path), t.at? (b ++ names) ≠ some (.link target)

/-- Where a base leads, directories that are missing included, there are no links below. -/
def LinklessBelow (t : FileTree) (base : Path) : Prop :=
  ∀ b : Place, t.Reaches [] base.segments b → t.Linkless b

private theorem Linkless.adds (h : t.Linkless b) (hadds : t.Adds t') : t'.Linkless b :=
  fun names target hat => h names target (hadds.link_iff.mp hat)

theorem Makes.reaches {segments : List String} (h : Makes t links place segments t' q left) :
    t.Reaches place segments q :=
  h.opens.reaches.congr h.adds.link_iff.symm

section Names

private theorem Makes.first (hname : IsName name)
    (hlink : ∀ target, t.at? (b ++ [name]) ≠ some (.link target))
    (h : Makes t links b (name :: rest) t' q left) : ¬ nameLimit < name.utf8ByteSize ∧
      (t.at? (b ++ [name]) = none ∨ t.at? (b ++ [name]) = some .directory) ∧
      ∃ t₁ : FileTree, t₁.at? (b ++ [name]) = some .directory ∧
        (∀ r ≠ b ++ [name], t₁.at? r = t.at? r) ∧ Makes t₁ links (b ++ [name]) rest t' q left := by
  cases h with
  | void hvoid => cases hvoid.symm.trans hname.1
  | parent => exact absurd rfl hname.2
  | directory _ hshort hat hrest => exact ⟨hshort, .inr hat, t, hat, fun _ _ => rfl, hrest⟩
  | missing _ hshort hat hrest =>
    have hset := at?_set (append_singleton_ne_nil b name) .directory t
    refine ⟨hshort, .inl hat, _, ?_, fun r hr => ?_, hrest⟩
    · rw [hset, if_pos rfl]
    · rw [hset, if_neg hr]
  | link _ _ hat => exact absurd hat (hlink _)

private theorem Makes.follow_names (hlinkless : t.Linkless b) (hb : t.at? b = some .directory)
    (hnames : ∀ name ∈ names, IsName name) (h : Makes t links b names t' q left) :
    (q = b ++ names ∧ left = links) ∧ (∀ name ∈ names, ¬ nameLimit < name.utf8ByteSize) ∧
      (∀ front, front <+: names → t.at? (b ++ front) = none ∨ t.at? (b ++ front) = some .directory) ∧
      (∀ front, front <+: names → t'.at? (b ++ front) = some .directory) ∧
      ∀ r, (∀ front, front <+: names → r ≠ b ++ front) → t'.at? r = t.at? r := by
  induction names generalizing t b with
  | nil =>
    cases h
    have hnil : ∀ front : Place, front <+: [] → t'.at? (q ++ front) = some .directory := by
      intro front hfront
      rwa [List.prefix_nil.mp hfront, List.append_nil]
    exact ⟨⟨(List.append_nil q).symm, rfl⟩, fun name hname => (List.not_mem_nil hname).elim,
      fun front hfront => .inr (hnil front hfront), hnil, fun _ _ => rfl⟩
  | cons name names ih =>
    obtain ⟨hname, hnames⟩ := List.forall_mem_cons.mp hnames
    obtain ⟨hshort, hfree, t₁, hmade, hsame, hrest⟩ := h.first hname (hlinkless [name])
    have hlinkless₁ : t₁.Linkless (b ++ [name]) := by
      intro below target hat
      by_cases hbelow : below = []
      · rw [hbelow, List.append_nil, hmade] at hat
        cases hat
      · rw [hsame _ fun heq => hbelow (List.append_right_eq_self.mp heq), List.append_assoc] at hat
        exact hlinkless _ _ hat
    obtain ⟨⟨rfl, rfl⟩, hshorts, hfrees, hmades, hothers⟩ := ih hlinkless₁ hmade hnames hrest
    have hcons : ∀ front : Place, b ++ name :: front = b ++ [name] ++ front := fun front => by
      rw [List.append_assoc, List.singleton_append]
    refine ⟨⟨(hcons names).symm, rfl⟩, List.forall_mem_cons.mpr ⟨hshort, hshorts⟩,
      fun front hfront => ?_, fun front hfront => ?_, fun r hr => ?_⟩
    · rcases List.prefix_cons_iff.mp hfront with rfl | ⟨front, rfl, hrest⟩
      · rw [List.append_nil]
        exact .inr hb
      · by_cases hnil : front = []
        · rwa [hnil]
        · have hne : b ++ [name] ++ front ≠ b ++ [name] :=
            fun heq => hnil (List.append_right_eq_self.mp heq)
          rw [hcons, ← hsame _ hne]
          exact hfrees front hrest
    · rcases List.prefix_cons_iff.mp hfront with rfl | ⟨front, rfl, hrest⟩
      · have hne : b ≠ b ++ [name] := fun heq => by simp at heq
        rw [List.append_nil]
        exact hrest.adds.at?_of_some ((hsame b hne).trans hb)
      · rw [hcons]
        exact hmades front hrest
    · have hr₁ : ∀ front, front <+: names → r ≠ b ++ [name] ++ front := by
        intro front hfront
        rw [← hcons]
        exact hr _ (List.cons_prefix_cons.mpr ⟨rfl, hfront⟩)
      rw [hothers r hr₁]
      refine hsame r ?_
      have hne := hr₁ [] List.nil_prefix
      rwa [List.append_nil] at hne

private theorem makes_of_names (hnames : ∀ name ∈ names, IsName name)
    (hshort : ∀ name ∈ names, ¬ nameLimit < name.utf8ByteSize)
    (hfree : ∀ front, front <+: names →
      t.at? (b ++ front) = none ∨ t.at? (b ++ front) = some .directory) :
    ∃ t', Makes t links b names t' (b ++ names) links := by
  induction names generalizing t b with
  | nil =>
    rw [List.append_nil]
    exact ⟨t, .here⟩
  | cons name names ih =>
    obtain ⟨hname, hnames⟩ := List.forall_mem_cons.mp hnames
    obtain ⟨hfirst, hshort⟩ := List.forall_mem_cons.mp hshort
    have hcons : ∀ front : Place, b ++ name :: front = b ++ [name] ++ front := fun front => by
      rw [List.append_assoc, List.singleton_append]
    have hrest : ∀ front, front <+: names →
        t.at? (b ++ [name] ++ front) = none ∨ t.at? (b ++ [name] ++ front) = some .directory := by
      intro front hfront
      rw [← hcons]
      exact hfree _ (List.cons_prefix_cons.mpr ⟨rfl, hfront⟩)
    rw [hcons]
    rcases hfree [name] (List.cons_prefix_cons.mpr ⟨rfl, List.nil_prefix⟩) with hnone | hat
    · have hset := at?_set (append_singleton_ne_nil b name) .directory t
      obtain ⟨t', hmakes⟩ := ih hnames hshort (t := t.set (b ++ [name]) .directory)
        (b := b ++ [name]) fun front hfront => by
          rw [hset]
          split_ifs
          · exact .inr rfl
          · exact hrest front hfront
      exact ⟨t', .missing hname hfirst hnone hmakes⟩
    · obtain ⟨t', hmakes⟩ := ih hnames hshort hrest
      exact ⟨t', .directory hname hfirst hat hmakes⟩

end Names

section Stores

/-- The second tree is the first one with files stored below a place. No file was on the way to one
of them and no directory at its end. -/
structure Stores (t : FileTree) (b : Place) (files : List (Place × Bytes)) (t' : FileTree) :
    Prop where
  rooted : t'.Rooted
  free : ∀ file ∈ files, ∀ front, front <+: file.1 → front ≠ file.1 →
    t.at? (b ++ front) = none ∨ t.at? (b ++ front) = some .directory
  noDirectory : ∀ file ∈ files, t.at? (b ++ file.1) ≠ some .directory
  file : ∀ file ∈ files, t'.at? (b ++ file.1) = some (.file file.2)
  directory : ∀ file ∈ files, ∀ front, front <+: file.1 → front ≠ file.1 →
    t'.at? (b ++ front) = some .directory
  other : ∀ r, (∀ file ∈ files, ∀ front, front <+: file.1 → r ≠ b ++ front) → t'.at? r = t.at? r

namespace Stores

theorem nil_iff (ht : t.Rooted) : Stores t b [] t' ↔ t' = t := by
  constructor
  · intro h
    exact h.rooted.ext ht fun q => h.other q fun file hfile => (List.not_mem_nil hfile).elim
  · rintro rfl
    exact ⟨ht, by simp, by simp, by simp, by simp, fun _ _ => rfl⟩

private theorem unique (h : Stores t b files t₁) (h' : Stores t b files t₂) : t₁ = t₂ := by
  refine h.rooted.ext h'.rooted fun q => ?_
  by_cases hq : ∃ file ∈ files, ∃ front, front <+: file.1 ∧ q = b ++ front
  · obtain ⟨file, hfile, front, hfront, rfl⟩ := hq
    by_cases heq : front = file.1
    · rw [heq, h.file file hfile, h'.file file hfile]
    · rw [h.directory file hfile front hfront heq, h'.directory file hfile front hfront heq]
  · push Not at hq
    rw [h.other q hq, h'.other q hq]

theorem congr {files' : List (Place × Bytes)} (hfiles : ∀ file, file ∈ files' ↔ file ∈ files)
    (h : Stores t b files t') : Stores t b files' t' where
  rooted := h.rooted
  free file hfile := h.free file ((hfiles file).mp hfile)
  noDirectory file hfile := h.noDirectory file ((hfiles file).mp hfile)
  file file hfile := h.file file ((hfiles file).mp hfile)
  directory file hfile := h.directory file ((hfiles file).mp hfile)
  other r hr := h.other r fun file hfile => hr file ((hfiles file).mpr hfile)

end Stores

private theorem prefix_concat_iff_of_ne : front <+: dirs ++ [name] ∧ front ≠ dirs ++ [name] ↔
    front <+: dirs := by
  constructor
  · rintro ⟨hstart, hne⟩
    exact (List.prefix_concat_iff.mp hstart).resolve_left hne
  · intro hstart
    refine ⟨hstart.trans (List.prefix_append dirs [name]), ?_⟩
    rintro rfl
    have hlength := List.IsPrefix.length_le hstart
    rw [List.length_append, List.length_singleton] at hlength
    omega

private theorem ne_of_prefix_dirs (b : Place) (hstart : front <+: dirs) :
    b ++ dirs ++ [name] ≠ b ++ front := by
  intro heq
  rw [List.append_assoc] at heq
  exact (prefix_concat_iff_of_ne.mpr hstart).2 (List.append_cancel_left heq).symm

theorem stores_set (ht : t.Rooted) (hlinkless : t.Linkless b) (hb : t.at? b = some .directory)
    (hdirs : ∀ name ∈ dirs, IsName name) (hname : IsName name)
    (hmakes : Makes t links b dirs t₁ (b ++ dirs) left)
    (hnone : t₁.at? (b ++ dirs ++ [name]) ≠ some .directory) :
    Stores t b [(dirs ++ [name], content)] (t₁.set (b ++ dirs ++ [name]) (.file content)) := by
  obtain ⟨-, -, hfree, hmade, hother⟩ := hmakes.follow_names hlinkless hb hdirs
  have hset := at?_set (append_singleton_ne_nil (b ++ dirs) name) (.file content) t₁
  have hparent : t₁.at? (b ++ dirs) = some .directory := hmade dirs (List.prefix_refl dirs)
  have hend : ∀ front, front <+: dirs → b ++ dirs ++ [name] ≠ b ++ front :=
    fun front => ne_of_prefix_dirs b
  refine ⟨(hmakes.rooted ht hb).set hparent hname (.inl hnone), ?_, ?_, ?_, ?_, ?_⟩
  · intro file hfile front hstart hne
    rw [List.mem_singleton.mp hfile] at hstart hne
    exact hfree front (prefix_concat_iff_of_ne.mp ⟨hstart, hne⟩)
  · intro file hfile
    rw [List.mem_singleton.mp hfile, ← List.append_assoc, ← hother _ hend]
    exact hnone
  · intro file hfile
    rw [List.mem_singleton.mp hfile, ← List.append_assoc, hset, if_pos rfl]
  · intro file hfile front hstart hne
    rw [List.mem_singleton.mp hfile] at hstart hne
    have hdirs' := prefix_concat_iff_of_ne.mp ⟨hstart, hne⟩
    rw [hset, if_neg (hend front hdirs').symm]
    exact hmade front hdirs'
  · intro r hr
    have hr' := hr _ (List.mem_singleton.mpr rfl)
    have hne : r ≠ b ++ dirs ++ [name] := by
      rw [List.append_assoc]
      exact hr' _ (List.prefix_refl _)
    rw [hset, if_neg hne]
    exact hother r fun front hstart => hr' front (prefix_concat_iff_of_ne.mpr hstart).1

theorem exists_set (hlinkless : t.Linkless b) (hb : t.at? b = some .directory)
    (hdirs : ∀ name ∈ dirs, IsName name) (hshort : ∀ name ∈ dirs, ¬ nameLimit < name.utf8ByteSize)
    (hfree : ∀ front, front <+: dirs ++ [name] → front ≠ dirs ++ [name] →
      t.at? (b ++ front) = none ∨ t.at? (b ++ front) = some .directory)
    (hnone : t.at? (b ++ (dirs ++ [name])) ≠ some .directory) (links : Nat) :
    ∃ t₁, Makes t links b dirs t₁ (b ++ dirs) links ∧
      t₁.at? (b ++ dirs ++ [name]) ≠ some .directory := by
  obtain ⟨t₁, hmakes⟩ : ∃ t₁, Makes t links b dirs t₁ (b ++ dirs) links := by
    apply makes_of_names hdirs hshort
    intro front hstart
    obtain ⟨hwhole, hne⟩ := prefix_concat_iff_of_ne.mpr hstart
    exact hfree front hwhole hne
  obtain ⟨-, -, -, -, hother⟩ := hmakes.follow_names hlinkless hb hdirs
  refine ⟨t₁, hmakes, ?_⟩
  rw [hother _ fun front => ne_of_prefix_dirs b, List.append_assoc]
  exact hnone

private theorem stores_singleton_iff (ht : t.Rooted) (hlinkless : t.Linkless b)
    (hb : t.at? b = some .directory) (hdirs : ∀ name ∈ dirs, IsName name) (hname : IsName name)
    (hshort : ∀ name ∈ dirs, ¬ nameLimit < name.utf8ByteSize) (links : Nat) :
    Stores t b [(dirs ++ [name], content)] t' ↔ ∃ t₁, Makes t links b dirs t₁ (b ++ dirs) links ∧
      t₁.at? (b ++ dirs ++ [name]) ≠ some .directory ∧
      t' = t₁.set (b ++ dirs ++ [name]) (.file content) := by
  constructor
  · intro h
    have hmem := List.mem_singleton.mpr (rfl : (dirs ++ [name], content) = _)
    obtain ⟨t₁, hmakes, hnone⟩ :=
      exists_set hlinkless hb hdirs hshort (h.free _ hmem) (h.noDirectory _ hmem) links
    exact ⟨t₁, hmakes, hnone, h.unique (stores_set ht hlinkless hb hdirs hname hmakes hnone)⟩
  · rintro ⟨t₁, hmakes, hnone, rfl⟩
    exact stores_set ht hlinkless hb hdirs hname hmakes hnone

theorem Stores.exists_first (h : Stores t b ((dirs ++ [name], content) :: files) t')
    (ht : t.Rooted) (hlinkless : t.Linkless b) (hb : t.at? b = some .directory)
    (hdirs : ∀ name ∈ dirs, IsName name) (hname : IsName name)
    (hshort : ∀ name ∈ dirs, ¬ nameLimit < name.utf8ByteSize) :
    ∃ t₁, Stores t b [(dirs ++ [name], content)] t₁ := by
  obtain ⟨t₁, hmakes, hnone⟩ := exists_set hlinkless hb hdirs hshort
    (h.free _ List.mem_cons_self) (h.noDirectory _ List.mem_cons_self) 0
  exact ⟨_, stores_set ht hlinkless hb hdirs hname hmakes hnone⟩

section Cons

private theorem Stores.off_way (h : Stores t b [file] t₁) (hoff : ¬ front <+: file.1) :
    t₁.at? (b ++ front) = t.at? (b ++ front) := by
  apply h.other
  intro other hother front' hfront' heq
  rw [← List.append_cancel_left heq, List.mem_singleton.mp hother] at hfront'
  exact hoff hfront'

private theorem ne_of_apart
    (hapart : ∀ other ∈ files, file.1 <+: other.1 ∨ other.1 <+: file.1 → other = file)
    {other : Place × Bytes} (hother : other ∈ files) (hfront : front <+: other.1)
    (hne : front ≠ other.1) : front ≠ file.1 := by
  rintro rfl
  exact hne (congrArg Prod.fst (hapart other hother (.inl hfront))).symm

theorem Stores.free_after (h : Stores t b [file] t₁)
    (hapart : ∀ other ∈ files, file.1 <+: other.1 ∨ other.1 <+: file.1 → other = file)
    {other : Place × Bytes} (hother : other ∈ files)
    (hfree : ∀ front, front <+: other.1 → front ≠ other.1 →
      t.at? (b ++ front) = none ∨ t.at? (b ++ front) = some .directory) :
    ∀ front, front <+: other.1 → front ≠ other.1 →
      t₁.at? (b ++ front) = none ∨ t₁.at? (b ++ front) = some .directory := by
  intro front hfront hne
  by_cases hway : front <+: file.1
  · right
    exact h.directory file List.mem_cons_self front hway (ne_of_apart hapart hother hfront hne)
  · rw [h.off_way hway]
    exact hfree front hfront hne

theorem Stores.noDirectory_after (h : Stores t b [file] t₁)
    (hapart : ∀ other ∈ files, file.1 <+: other.1 ∨ other.1 <+: file.1 → other = file)
    {other : Place × Bytes} (hother : other ∈ files)
    (hnone : t.at? (b ++ other.1) ≠ some .directory) :
    t₁.at? (b ++ other.1) ≠ some .directory := by
  by_cases hway : other.1 <+: file.1
  · rw [hapart other hother (.inr hway), h.file file List.mem_cons_self]
    exact fun heq => Node.noConfusion (Option.some.inj heq)
  · rw [h.off_way hway]
    exact hnone

theorem Stores.tail (h : Stores t b [file] t₁)
    (hapart : ∀ other ∈ files, file.1 <+: other.1 ∨ other.1 <+: file.1 → other = file)
    (h' : Stores t b (file :: files) t') : Stores t₁ b files t' where
  rooted := h'.rooted
  free other hother :=
    h.free_after hapart hother (h'.free other (List.mem_cons_of_mem file hother))
  noDirectory other hother :=
    h.noDirectory_after hapart hother (h'.noDirectory other (List.mem_cons_of_mem file hother))
  file other hother := h'.file other (List.mem_cons_of_mem file hother)
  directory other hother := h'.directory other (List.mem_cons_of_mem file hother)
  other r hr := by
    by_cases hway : ∃ front, front <+: file.1 ∧ r = b ++ front
    · obtain ⟨front, hfront, rfl⟩ := hway
      by_cases heq : front = file.1
      · rw [heq, h.file file List.mem_cons_self, h'.file file List.mem_cons_self]
      · rw [h.directory file List.mem_cons_self front hfront heq,
          h'.directory file List.mem_cons_self front hfront heq]
    · push Not at hway
      have hfirst : ∀ other ∈ [file], ∀ front, front <+: other.1 → r ≠ b ++ front := by
        intro other hother
        rw [List.mem_singleton.mp hother]
        exact hway
      have hall : ∀ other ∈ file :: files, ∀ front, front <+: other.1 → r ≠ b ++ front :=
        List.forall_mem_cons.mpr ⟨hway, hr⟩
      rw [h.other r hfirst, h'.other r hall]

theorem Stores.cons (h : Stores t b [file] t₁)
    (hapart : ∀ other ∈ files, file.1 <+: other.1 ∨ other.1 <+: file.1 → other = file)
    (h' : Stores t₁ b files t') : Stores t b (file :: files) t' where
  rooted := h'.rooted
  free := by
    refine List.forall_mem_cons.mpr ⟨h.free file List.mem_cons_self, fun other hother front hfront hne => ?_⟩
    by_cases hway : front <+: file.1
    · exact h.free file List.mem_cons_self front hway (ne_of_apart hapart hother hfront hne)
    · rw [← h.off_way hway]
      exact h'.free other hother front hfront hne
  noDirectory := by
    refine List.forall_mem_cons.mpr ⟨h.noDirectory file List.mem_cons_self, fun other hother => ?_⟩
    by_cases hway : other.1 <+: file.1
    · rw [hapart other hother (.inr hway)]
      exact h.noDirectory file List.mem_cons_self
    · rw [← h.off_way hway]
      exact h'.noDirectory other hother
  file := by
    refine List.forall_mem_cons.mpr ⟨?_, h'.file⟩
    by_cases hagain : file ∈ files
    · exact h'.file file hagain
    · rw [h'.other _ fun other hother front hfront heq => ?_, h.file file List.mem_cons_self]
      rw [← List.append_cancel_left heq] at hfront
      exact hagain (hapart other hother (.inl hfront) ▸ hother)
  directory := by
    refine List.forall_mem_cons.mpr ⟨fun front hfront hne => ?_, h'.directory⟩
    by_cases hway : ∃ other ∈ files, front <+: other.1
    · obtain ⟨other, hother, hfront'⟩ := hway
      refine h'.directory other hother front hfront' fun heq => hne ?_
      rw [heq] at hfront
      rw [heq, hapart other hother (.inr hfront)]
    · push Not at hway
      rw [h'.other _ fun other hother front' hfront' heq => ?_,
        h.directory file List.mem_cons_self front hfront hne]
      rw [← List.append_cancel_left heq] at hfront'
      exact hway other hother hfront'
  other r hr := by
    obtain ⟨hfirst, hrest⟩ := List.forall_mem_cons.mp hr
    rw [h'.other r hrest]
    apply h.other r
    intro other hother
    rw [List.mem_singleton.mp hother]
    exact hfirst

end Cons

theorem Stores.carries (h : Stores t b files t') (hlinkless : t.Linkless b) : t.Carries t' where
  directory {q} hq := by
    by_cases hway : ∃ file ∈ files, ∃ front, front <+: file.1 ∧ q = b ++ front
    · obtain ⟨file, hfile, front, hfront, rfl⟩ := hway
      have hne : front ≠ file.1 := by
        rintro rfl
        exact h.noDirectory file hfile hq
      exact h.directory file hfile front hfront hne
    · push Not at hway
      rw [h.other q hway, hq]
  link {q target} hq := by
    by_cases hway : ∃ file ∈ files, ∃ front, front <+: file.1 ∧ q = b ++ front
    · obtain ⟨file, hfile, front, hfront, rfl⟩ := hway
      exact absurd hq (hlinkless front target)
    · push Not at hway
      rw [h.other q hway, hq]

theorem Stores.not_link (h : Stores t b files t') {target : Path}
    (hq : t'.at? q = some (.link target)) : t.at? q = some (.link target) := by
  by_cases hway : ∃ file ∈ files, ∃ front, front <+: file.1 ∧ q = b ++ front
  · obtain ⟨file, hfile, front, hfront, rfl⟩ := hway
    by_cases hend : front = file.1
    · rw [hend, h.file file hfile] at hq
      cases hq
    · rw [h.directory file hfile front hfront hend] at hq
      cases hq
  · push Not at hway
    rw [← h.other q hway, hq]

theorem Stores.fileAt?_eq (h : Stores t b files t') (hq : ∀ file ∈ files, q ≠ b ++ file.1) :
    t'.fileAt? q = t.fileAt? q := by
  by_cases hway : ∃ file ∈ files, ∃ front, front <+: file.1 ∧ q = b ++ front
  · obtain ⟨file, hfile, front, hfront, rfl⟩ := hway
    have hend : front ≠ file.1 := by
      rintro rfl
      exact hq file hfile rfl
    rw [fileAt?, fileAt?, h.directory file hfile front hfront hend]
    rcases h.free file hfile front hfront hend with hnone | hdirectory
    · rw [hnone]
    · rw [hdirectory]
  · push Not at hway
    exact fileAt?_congr (h.other q hway)

end Stores

section Store

private theorem write_ok_iff {segments : List String} (hopen : t.Opens linkLimit [] segments q left)
    (hp : p.segments = segments ++ [name]) (hname : IsName name)
    (hlink : ∀ target, t.at? (q ++ [name]) ≠ some (.link target)) :
    t.write p content = .ok t' ↔ Sayable p ∧ ¬ nameLimit < name.utf8ByteSize ∧
      t.at? (q ++ [name]) ≠ some .directory ∧ t' = t.set (q ++ [name]) (.file content) := by
  have hempty : p.isEmpty = false := by
    rw [Path.isEmpty, hp, Bool.or_eq_false_iff, decide_eq_false_iff_not, decide_eq_false_iff_not]
    refine ⟨append_singleton_ne_nil segments name, fun heq => ?_⟩
    have hlast := congrArg List.getLast? heq
    rw [List.getLast?_concat] at hlast
    exact Path.ne_empty_of_isName hname (Option.some.inj hlast)
  rw [write, resolve, resolveIn, Path.start_root, hempty, Sayable]
  cases hsound : isSound p with
  | false => simp
  | true =>
    cases hlong : isOverlong p with
    | true => simp
    | false =>
      simp only [Bool.not_true, Bool.false_eq_true, if_false, hp, and_self, true_and]
      rw [hopen.resolveFrom_append]
      by_cases hlong' : nameLimit < name.utf8ByteSize
      · rw [resolveFrom_long hname hlong']
        simp [hlong']
      · cases hat : t.at? (q ++ [name]) with
        | none =>
          rw [resolveFrom_missing hname hlong' hat]
          simp [hlong', eq_comm]
        | some node =>
          cases node with
          | directory =>
            rw [resolveFrom_directory hname hlong' hat, resolveFrom_nil]
            simp
          | file old =>
            rw [resolveFrom_file hname hlong' hat, if_pos rfl]
            simp [hlong', eq_comm]
          | link target => exact absurd hat (hlink target)

private theorem parent?_join (hbase : base.isEmpty = false) (hdirs : ∀ name ∈ dirs, IsName name)
    (hname : IsName name) : ∃ parent front, (base.join ⟨dirs ++ [name]⟩).parent? = some parent ∧
      Firm parent.segments ∧ (Sayable (base.join ⟨dirs ++ [name]⟩) → Sayable parent) ∧
      (base.join ⟨dirs ++ [name]⟩).segments = front ++ dirs ++ [name] ∧
      ((front ++ dirs).filter fun s => !Path.isVoid s) =
        (base.segments ++ dirs).filter (fun s => !Path.isVoid s) ∧
      (parent.segments.filter fun s => !Path.isVoid s) =
        (base.segments ++ dirs).filter fun s => !Path.isVoid s := by
  have hnames : ∀ s ∈ dirs ++ [name], IsName s := by
    intro s hs
    rcases List.mem_append.mp hs with hs | hs
    · exact hdirs s hs
    · exact List.mem_singleton.mp hs ▸ hname
  obtain ⟨front, slash, hsegments, hslash, hne, hjoin⟩ :=
    Path.segments_join hbase (Path.isAbsolute_of_names hnames)
  have hne' : front ++ dirs ≠ [] := fun hnil => hne (List.append_eq_nil_iff.mp hnil).1
  obtain ⟨parent, hparent, hspelled, hfirm, hfilter⟩ := Path.parent?_concat hname hne'
  have hwhole : base.join ⟨dirs ++ [name]⟩ = ⟨front ++ dirs ++ [name]⟩ := by
    have heq : (base.join ⟨dirs ++ [name]⟩).segments = front ++ dirs ++ [name] := by
      rw [hjoin, ← List.append_assoc]
    rw [← heq]
  have hvoid : ((front ++ dirs).filter fun s => !Path.isVoid s) =
      (base.segments ++ dirs).filter fun s => !Path.isVoid s := by
    rw [hsegments]
    rcases hslash with rfl | rfl
    · rw [List.append_nil]
    · simp [List.filter_append, Path.isVoid]
  rw [hwhole]
  refine ⟨parent, front, hparent, hfirm, ?_, rfl, hvoid, hfilter.trans hvoid⟩
  rintro ⟨hsound, hlong⟩
  rcases hspelled with ⟨more, hmore⟩ | hroot
  · constructor
    · rw [isSound, ← hmore, List.append_assoc, List.all_append, Bool.and_eq_true] at hsound
      exact hsound.1
    · have hsize := size_join_le parent.segments
        (List.append_ne_nil_of_right_ne_nil more (List.cons_ne_nil name []))
      rw [← List.append_assoc, hmore] at hsize
      rw [isOverlong, decide_eq_false_iff_not] at hlong ⊢
      rw [Path.toString] at hlong ⊢
      dsimp only at hlong
      omega
  · have hpath : parent = ⟨["", ""]⟩ := by rw [← hroot]
    rw [hpath]
    constructor <;> decide

private theorem Makes.made (h : Makes t linkLimit [] base.segments t₁ b left) (ht : t.Rooted)
    (hlinkless : t.LinklessBelow base) :
    t₁.Rooted ∧ t₁.Linkless b ∧ t₁.at? b = some .directory := by
  have hrooted := h.rooted ht rfl
  exact ⟨hrooted, (hlinkless b h.reaches).adds h.adds, hrooted.directory_of_opens h.opens rfl⟩

theorem makes_of_store (hbase : base.isEmpty = false) (hdirs : ∀ name ∈ dirs, IsName name)
    (hname : IsName name)
    (h : ClassFile.store content (base.join ⟨dirs ++ [name]⟩) t = .ok () t') :
    ∃ t₁ b left, Makes t linkLimit [] base.segments t₁ b left := by
  obtain ⟨parent, front, hparent, hfirm, -, -, -, hfilter⟩ := parent?_join hbase hdirs hname
  rw [ClassFile.store, hparent] at h
  dsimp only at h
  split at h
  · next t₀ hmade =>
    obtain ⟨-, -, q, left, hmakes⟩ := (makeDirectories_ok_iff hfirm).mp hmade
    obtain ⟨t₁, b, less, hbasemakes, -⟩ := ((Makes.congr_filter hfilter).mp hmakes).split
    exact ⟨t₁, b, less, hbasemakes⟩
  · cases h

/-- A file is stored below a base, which may lead over links, exactly if its path can be looked
for, its names are short, the directories of the base can be made and the file can be stored below
the place it leads to. -/
theorem store_ok_iff (ht : t.Rooted) (hbase : base.isEmpty = false)
    (hlinkless : t.LinklessBelow base) (hdirs : ∀ name ∈ dirs, IsName name) (hname : IsName name) :
    ClassFile.store content (base.join ⟨dirs ++ [name]⟩) t = .ok () t' ↔
      Sayable (base.join ⟨dirs ++ [name]⟩) ∧
      (∀ s ∈ dirs ++ [name], ¬ nameLimit < s.utf8ByteSize) ∧
      ∃ t₁ b left, Makes t linkLimit [] base.segments t₁ b left ∧
        Stores t₁ b [(dirs ++ [name], content)] t' := by
  obtain ⟨parent, front, hparent, hfirm, hsayable, hsegments, hfilter, hfilter'⟩ :=
    parent?_join hbase hdirs hname
  have hmakes_parent : ∀ {t₀ q left}, Makes t linkLimit [] parent.segments t₀ q left ↔
      Makes t linkLimit [] (base.segments ++ dirs) t₀ q left := Makes.congr_filter hfilter'
  -- below the base the names are walked as they are, so the file is written behind them
  have hwrite : ∀ {t₀ b left}, Makes t linkLimit [] (base.segments ++ dirs) t₀ (b ++ dirs) left →
      t₀.Linkless b → (t₀.write (base.join ⟨dirs ++ [name]⟩) content = .ok t' ↔
        Sayable (base.join ⟨dirs ++ [name]⟩) ∧ ¬ nameLimit < name.utf8ByteSize ∧
        t₀.at? (b ++ dirs ++ [name]) ≠ some .directory ∧
        t' = t₀.set (b ++ dirs ++ [name]) (.file content)) := by
    intro t₀ b left hmakes hlink
    have hopen := ((Makes.congr_filter hfilter).mpr hmakes).opens
    refine write_ok_iff hopen hsegments hname fun target hat => ?_
    rw [List.append_assoc] at hat
    exact hlink _ _ hat
  rw [ClassFile.store, hparent]
  dsimp only
  constructor
  · intro h
    split at h
    · next t₀ hmade =>
      obtain ⟨-, -, q, left, hmakes⟩ := (makeDirectories_ok_iff hfirm).mp hmade
      have hwhole := hmakes_parent.mp hmakes
      obtain ⟨t₁, b, less, hbasemakes, hdirmakes⟩ := hwhole.split
      obtain ⟨hrooted, hlink, hb⟩ := hbasemakes.made ht hlinkless
      obtain ⟨⟨rfl, rfl⟩, hshort, -, -, -⟩ := hdirmakes.follow_names hlink hb hdirs
      rw [ClassFile.store.finish] at h
      split at h
      · next t₂ hwritten =>
        cases h
        obtain ⟨hsay, hshort', hnone, rfl⟩ :=
          (hwrite hwhole (hlink.adds hdirmakes.adds)).mp hwritten
        refine ⟨hsay, ?_, t₁, b, left, hbasemakes, ?_⟩
        · intro s hs
          rcases List.mem_append.mp hs with hs | hs
          · exact hshort s hs
          · rwa [List.mem_singleton.mp hs]
        · exact (stores_singleton_iff hrooted hlink hb hdirs hname hshort left).mpr
            ⟨t₀, hdirmakes, hnone, rfl⟩
      · cases h
    · cases h
  · rintro ⟨hsay, hshort, t₁, b, left, hbasemakes, hstores⟩
    obtain ⟨hrooted, hlink, hb⟩ := hbasemakes.made ht hlinkless
    have hshort' : ∀ s ∈ dirs, ¬ nameLimit < s.utf8ByteSize :=
      fun s hs => hshort s (List.mem_append_left _ hs)
    obtain ⟨t₀, hdirmakes, hnone, rfl⟩ :=
      (stores_singleton_iff hrooted hlink hb hdirs hname hshort' left).mp hstores
    have hwhole := hbasemakes.append hdirmakes
    obtain ⟨hsound, hlong⟩ := hsayable hsay
    have hmade := (makeDirectories_ok_iff hfirm).mpr ⟨hsound, hlong, _, _, hmakes_parent.mpr hwhole⟩
    have hwritten := (hwrite hwhole (hlink.adds hdirmakes.adds)).mpr
      ⟨hsay, hshort name (List.mem_append_right _ List.mem_cons_self), hnone, rfl⟩
    rw [hmade]
    dsimp only
    rw [ClassFile.store.finish, hwritten]

end Store

section Lookup

private theorem resolveFrom_file_iff (ht : t.Rooted) (hlinkless : t.Linkless b)
    (hb : t.at? b = some .directory) (hnames : ∀ name ∈ names, IsName name) :
    t.resolveFrom true links b names = .ok (.found q (.file content) left) ↔
      (∀ name ∈ names, ¬ nameLimit < name.utf8ByteSize) ∧ q = b ++ names ∧
      t.at? (b ++ names) = some (.file content) ∧ left = links := by
  induction names generalizing b with
  | nil =>
    rw [resolveFrom_nil, List.append_nil, hb]
    simp
  | cons name names ih =>
    obtain ⟨hname, hnames⟩ := List.forall_mem_cons.mp hnames
    have hcons : b ++ name :: names = b ++ [name] ++ names := by
      rw [List.append_assoc, List.singleton_append]
    rw [hcons, List.forall_mem_cons]
    by_cases hlong : nameLimit < name.utf8ByteSize
    · rw [resolveFrom_long hname hlong]
      constructor
      · intro h
        cases h
      · rintro ⟨⟨hshort, -⟩, -⟩
        exact absurd hlong hshort
    · rw [and_iff_right hlong]
      cases hat : t.at? (b ++ [name]) with
      | none =>
        rw [resolveFrom_missing hname hlong hat, ht.none_below hat]
        split_ifs <;> simp
      | some node =>
        cases node with
        | directory =>
          have hbelow : t.Linkless (b ++ [name]) := by
            intro below target hlink
            rw [List.append_assoc] at hlink
            exact hlinkless _ _ hlink
          rw [resolveFrom_directory hname hlong hat]
          exact ih hbelow hat hnames
        | file old =>
          rw [resolveFrom_file hname hlong hat]
          by_cases hnil : names = []
          · subst hnil
            rw [if_pos rfl, List.append_nil, hat]
            simp [eq_comm, and_left_comm]
          · rw [if_neg hnil]
            constructor
            · intro h
              cases h
            · rintro ⟨-, -, hfile, -⟩
              cases hat.symm.trans (ht.directory_above hfile hnil)
        | link target => exact absurd hat (hlinkless [name] target)

/-- A file is found below a base, which may lead over links, exactly if its path can be looked for,
its names are short, the base opens a directory and the file is at its place below that. -/
theorem lookup_join_file_iff (ht : t.Rooted) (hbase : base.isEmpty = false)
    (hlinkless : t.LinklessBelow base) (hnames : ∀ name ∈ names, IsName name) (hne : names ≠ []) :
    t.lookup true (base.join ⟨names⟩) = .ok (q, .file content) ↔
      Sayable (base.join ⟨names⟩) ∧ (∀ name ∈ names, ¬ nameLimit < name.utf8ByteSize) ∧
      ∃ b left, t.Opens linkLimit [] base.segments b left ∧ q = b ++ names ∧
        t.at? (b ++ names) = some (.file content) := by
  have hrelative := Path.isAbsolute_of_names hnames
  obtain ⟨front, slash, hsegments, hslash, -, hjoin⟩ := Path.segments_join hbase hrelative
  have hvoid := Path.isVoid_of_slash hslash
  have hbelow : ∀ {b left}, t.Opens linkLimit [] base.segments b left →
      t.Linkless b ∧ t.at? b = some .directory := fun hopen =>
    ⟨hlinkless _ hopen.reaches, ht.directory_of_opens hopen rfl⟩
  have hbase_opens : ∀ {b left}, t.Opens linkLimit [] front b left →
      t.Opens linkLimit [] base.segments b left := by
    intro b left hopen
    rw [hsegments]
    exact hopen.append (.of_void hvoid left b)
  have hresolve : t.lookup true (base.join ⟨names⟩) = .ok (q, .file content) ↔
      Sayable (base.join ⟨names⟩) ∧ ∃ left,
        t.resolveFrom true linkLimit [] (front ++ names) = .ok (.found q (.file content) left) := by
    rw [lookup, lookupIn, resolveIn, Path.start_root, Path.isEmpty_join hbase hrelative hne, hjoin,
      Sayable]
    cases hsound : isSound (base.join ⟨names⟩) with
    | false => simp
    | true =>
      cases hlong : isOverlong (base.join ⟨names⟩) with
      | true => simp
      | false =>
        simp only [Bool.not_true, Bool.false_eq_true, if_false, and_self, true_and]
        cases hspot : t.resolveFrom true linkLimit [] (front ++ names) with
        | error trouble => simp
        | ok spot => cases spot <;> simp
  rw [hresolve]
  constructor
  · rintro ⟨hsay, left, hfound⟩
    have hname : names.all (· = "") = false := (Path.inner_of_names hnames hne).all_eq_false
    obtain ⟨b, less, hopen⟩ := opens_of_resolveFrom_append (.inl hname) hfound
    rw [hopen.resolveFrom_append] at hfound
    have hbase' := hbase_opens hopen
    obtain ⟨hlink, hb⟩ := hbelow hbase'
    obtain ⟨hshort, hq, hfile, -⟩ := (resolveFrom_file_iff ht hlink hb hnames).mp hfound
    exact ⟨hsay, hshort, b, less, hbase', hq, hfile⟩
  · rintro ⟨hsay, hshort, b, left, hopen, hq, hfile⟩
    obtain ⟨hlink, hb⟩ := hbelow hopen
    rw [hsegments] at hopen
    obtain ⟨mid, less, hfront, hback⟩ := hopen.split
    obtain ⟨rfl, rfl⟩ := hback.unique (.of_void hvoid less mid)
    refine ⟨hsay, left, ?_⟩
    rw [hfront.resolveFrom_append]
    exact (resolveFrom_file_iff ht hlink hb hnames).mpr ⟨hshort, hq, hfile, rfl⟩

theorem isFile_iff : t.isFile p = true ↔ ∃ q content, t.lookup true p = .ok (q, .file content) := by
  rw [isFile]
  cases hlookup : t.lookup true p with
  | error trouble => simp
  | ok found =>
    obtain ⟨q, node⟩ := found
    cases node <;> simp

theorem contents_ok_iff : t.contents p = .ok content ↔
    content.isEmpty = false ∧ ∃ q, t.lookup true p = .ok (q, .file content) := by
  rw [contents]
  cases hlookup : t.lookup true p with
  | error trouble => simp
  | ok found =>
    obtain ⟨q, node⟩ := found
    cases node with
    | directory | link target => simp
    | file data =>
      simp only
      split_ifs with hempty
      · simp only [false_iff, Except.ok.injEq, Prod.mk.injEq, Node.file.injEq]
        rintro ⟨hcontent, q', -, rfl⟩
        cases hempty.symm.trans hcontent
      · simp only [Except.ok.injEq, Prod.mk.injEq, Node.file.injEq]
        constructor
        · rintro rfl
          exact ⟨Bool.eq_false_iff.mpr hempty, q, rfl, rfl⟩
        · rintro ⟨-, q', -, rfl⟩
          rfl

end Lookup

end FileTree

end Retarget
