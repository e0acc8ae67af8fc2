import Retarget.Proofs.ClassFile.RenameBytes
import Retarget.Proofs.ClassFile.TreeWalk

/-!
What a renaming with stable new names leaves behind. Every name at a site is
exchanged if it has a new one, except where the site is in an attribute and
leads to a text that is no proper symbol, and in annotations that are laid out
as none. Each of these leaves one warning, so without a warning none of the old
names is left at a site.
-/

set_option autoImplicit false

namespace Retarget

namespace ClassFile

variable {c c₁ c' : ClassFile} {map : Bytes → Option Bytes} {site : Site} {sites rest : List Site}
  {tally tally' : Tally} {warnings : Nat}

def rejected (c : ClassFile) (site : Site) : Bool :=
  site.location.isSlot && match c.scanSite site with
    | .ok scan => scan.defect.isSome
    | .error _ => false

theorem rejected_eq {scan : Scan} (h : c.scanSite site = .ok scan) :
    c.rejected site = (site.location.isSlot && scan.defect.isSome) := by
  rw [rejected, h]

private theorem rejected_congr (hextends : c.pool.Extends c'.pool)
    (hread : ∀ i, c'.indexAt site.location = .ok i ↔ c.indexAt site.location = .ok i)
    (h : ∃ scan, c.scanSite site = .ok scan) :
    (∃ scan, c'.scanSite site = .ok scan) ∧ c'.rejected site = c.rejected site := by
  obtain ⟨scan, hscan⟩ := h
  obtain ⟨index, text, hindex, htext, hsymbol⟩ := scanSite_eq_ok_iff.mp hscan
  have hscan' : c'.scanSite site = .ok scan :=
    scanSite_eq_ok_iff.mpr ⟨index, text, (hread index).mpr hindex, hextends.text htext, hsymbol⟩
  exact ⟨⟨scan, hscan'⟩, by rw [rejected_eq hscan, rejected_eq hscan']⟩

private theorem Outcome.rejected (hmap : Stable map) (h : Outcome map site c tally c') :
    (∃ scan, c'.scanSite site = .ok scan) ∧ c'.rejected site = c.rejected site ∧
      tally.warnings = if c'.rejected site then 1 else 0 := by
  cases h with
  | @stays index text hindex htext hsub =>
    have hscan := scanSite_eq_ok_iff.mpr ⟨index, text, hindex, htext, rfl⟩
    refine ⟨⟨_, hscan⟩, rfl, ?_⟩
    rw [rejected_eq hscan, Symbol.defect_of_substitute hsub]
    simp
  | @left index text defect hindex htext hsub hslot =>
    have hscan := scanSite_eq_ok_iff.mpr ⟨index, text, hindex, htext, rfl⟩
    refine ⟨⟨_, hscan⟩, rfl, ?_⟩
    rw [rejected_eq hscan, Symbol.defect_of_substitute_error hsub, hslot]
    rfl
  | @leads index i text new p hindex htext hsub hp =>
    have hold := scanSite_eq_ok_iff.mpr ⟨index, text, hindex, htext, rfl⟩
    have hread := (indexAt_interned hp site.location index).mpr hindex
    have hnew := (extends_place site.location i { c with pool := p }).text hp.text
    have hscan := scanSite_eq_ok_iff.mpr ⟨i, new, indexAt_place_self hread, hnew, rfl⟩
    have hagain := Symbol.substitute_again hmap hsub
    refine ⟨⟨_, hscan⟩, ?_⟩
    rw [rejected_eq hscan, rejected_eq hold, Symbol.defect_of_substitute hsub,
      Symbol.defect_of_substitute hagain]
    simp

private theorem rejected_of_eachAlone (hmap : Stable map) (hc : c.pool.Registered)
    (hapart : rest.Pairwise Site.Apart) (h : eachAlone map rest tally c = .ok tally' c') :
    tally'.warnings = tally.warnings + rest.countP c'.rejected ∧
      ∀ site ∈ rest, (∃ scan, c.scanSite site = .ok scan) → c'.rejected site = c.rejected site := by
  induction rest generalizing c tally with
  | nil =>
    cases h
    exact ⟨rfl, by simp⟩
  | cons site rest ih =>
    rw [eachAlone] at h
    obtain ⟨hfirst, hapart⟩ := List.pairwise_cons.mp hapart
    rcases alone_cases map site hc with ⟨t, c₁, halone, houtcome⟩ | ⟨fault, halone⟩
    · simp only [halone] at h
      have hc₁ := houtcome.registered hc
      obtain ⟨hwarnings, hrest⟩ := ih hc₁ hapart h
      obtain ⟨hextends, hkept⟩ := kept_of_eachAlone hc₁ h
      obtain ⟨hscans, hsame, ht⟩ := houtcome.rejected hmap
      -- the sites behind this one leave it where it leads after its turn
      have hlast := hkept site fun s hs => Location.Apart.symm (hfirst s hs)
      obtain ⟨-, hsite⟩ := rejected_congr hextends hlast hscans
      refine ⟨?_, List.forall_mem_cons.mpr ⟨fun _ => hsite.trans hsame, fun s hs hscan => ?_⟩⟩
      · rw [hwarnings, List.countP_cons, hsite, Tally.add, ht]
        simp only
        omega
      · obtain ⟨hscan₁, hsame₁⟩ := rejected_congr houtcome.toExtends
          (houtcome.indexAt_of_apart (hfirst s hs)) hscan
        exact (hrest s hs hscan₁).trans hsame₁
    · simp only [halone] at h
      cases h

private theorem Quiet.names (h : Quiet map c site) : ∃ scan, c.scanSite site = .ok scan ∧
    (scan.defect = none → ∀ name ∈ scan.names, map name = none) ∧
    (c.rejected site = false → scan.defect = none) := by
  cases h with
  | @same index text hindex htext hsub =>
    exact ⟨_, scanSite_eq_ok_iff.mpr ⟨index, text, hindex, htext, rfl⟩,
      fun _ => Symbol.names_of_substitute hsub, fun _ => Symbol.defect_of_substitute hsub⟩
  | @improper index text defect hindex htext hsub hslot =>
    have hscan := scanSite_eq_ok_iff.mpr ⟨index, text, hindex, htext, rfl⟩
    have hdefect := Symbol.defect_of_substitute_error hsub
    refine ⟨_, hscan, fun hnone => ?_, fun hrejected => ?_⟩
    · rw [hdefect] at hnone
      cases hnone
    · rw [rejected_eq hscan, hslot, hdefect] at hrejected
      cases hrejected

def allAttributes (c : ClassFile) : List Attribute :=
  c.attributeTables.flatMap fun table => table.2.toList

/-- The trees are laid out as the attributes of the class, of its fields and of its methods. -/
structure Outlined (c : ClassFile) (trees : List AttributeTree) : Prop where
  laid : trees.map AttributeTree.attribute = c.allAttributes
  sound : ∀ tree ∈ trees, tree.Sound c.pool Walk.depthLimit

private theorem walked_of_attributeTables {p : Pool} {tables : List (Owner × Array Attribute)}
    {walked : List (List Site × Nat)}
    (h : tables.mapM (fun table => attributeSites p table.1 table.2) = .ok walked) :
    ∃ slots, (tables.flatMap fun table => table.2.toList).mapM (Attribute.slots p) = .ok slots ∧
      total Prod.snd slots = total Prod.snd walked := by
  induction tables generalizing walked with
  | nil =>
    cases mapM_nil_ok_iff.mp h
    exact ⟨[], rfl, rfl⟩
  | cons table tables ih =>
    obtain ⟨first, rest, hfirst, hrest, rfl⟩ := mapM_cons_ok_iff.mp h
    obtain ⟨front, hfront, hsites⟩ := bind_eq_ok_iff.mp hfirst
    cases hsites
    obtain ⟨back, hback, htotal⟩ := ih hrest
    refine ⟨front ++ back, ?_, by rw [total_append, total_cons, htotal]⟩
    rw [List.flatMap_cons, List.mapM_append, hfront, hback]
    rfl

private theorem walked_of_sites (h : c.sites = .ok (sites, warnings)) : ∃ slots,
    c.allAttributes.mapM (Attribute.slots c.pool) = .ok slots ∧
      total Prod.snd slots = warnings := by
  obtain ⟨walked, hwalked, hsites⟩ := bind_eq_ok_iff.mp h
  cases hsites
  exact walked_of_attributeTables hwalked

private theorem exists_trees {p : Pool} {attributes : List Attribute}
    {slots : List (List Slot × Nat)}
    (hsizes : ∀ a ∈ attributes, a.content.size < 0x100000000)
    (h : attributes.mapM (Attribute.slots p) = .ok slots) :
    ∃ trees : List AttributeTree, trees.map AttributeTree.attribute = attributes ∧
      ∀ tree ∈ trees, tree.Sound p Walk.depthLimit := by
  induction attributes generalizing slots with
  | nil => exact ⟨[], rfl, by simp⟩
  | cons a attributes ih =>
    obtain ⟨hfirstSize, hrestSizes⟩ := List.forall_mem_cons.mp hsizes
    obtain ⟨first, rest, hfirst, hrest, rfl⟩ := mapM_cons_ok_iff.mp h
    obtain ⟨tree, rfl, hsound, -, -⟩ := (AttributeTree.slots_eq_ok_iff hfirstSize).mp hfirst
    obtain ⟨trees, rfl, hsounds⟩ := ih hrestSizes hrest
    exact ⟨tree :: trees, rfl, List.forall_mem_cons.mpr ⟨hsound, hsounds⟩⟩

private theorem mapM_slots_of_sound {p : Pool} {trees : List AttributeTree}
    (h : ∀ tree ∈ trees, tree.Sound p Walk.depthLimit) :
    (trees.map AttributeTree.attribute).mapM (Attribute.slots p) =
      .ok (trees.map fun tree => (tree.slots, tree.dropped)) := by
  induction trees with
  | nil => rfl
  | cons tree trees ih =>
    obtain ⟨hsound, hsounds⟩ := List.forall_mem_cons.mp h
    exact mapM_cons_ok_iff.mpr ⟨_, _, AttributeTree.slots_of_sound hsound, ih hsounds, rfl⟩

private theorem size_of_mem_allAttributes (hfits : c.Fits) {a : Attribute}
    (h : a ∈ c.allAttributes) :
    a.content.size < 0x100000000 := by
  obtain ⟨⟨owner, attributes⟩, htable, ha⟩ := List.mem_flatMap.mp h
  have hattributes := mem_attributeTables.mp htable
  have ha := Array.mem_toList_iff.mp ha
  cases owner with
  | ofClass =>
    cases hattributes
    exact hfits.attributes.contents a ha
  | field position =>
    obtain ⟨m, hm, hattributes⟩ := bind_eq_ok_iff.mp hattributes
    cases hattributes
    have hmem := Array.mem_of_getElem? (memberAt_eq_ok_iff.mp hm)
    exact (hfits.fields.attributes m hmem).contents a ha
  | method position =>
    obtain ⟨m, hm, hattributes⟩ := bind_eq_ok_iff.mp hattributes
    cases hattributes
    have hmem := Array.mem_of_getElem? (memberAt_eq_ok_iff.mp hm)
    exact (hfits.methods.attributes m hmem).contents a ha

private theorem outlined_of_sites (hfits : c.Fits) (h : c.sites = .ok (sites, warnings)) :
    (∃ trees, c.Outlined trees) ∧
      ∀ trees, c.Outlined trees → total AttributeTree.dropped trees = warnings := by
  obtain ⟨slots, hslots, hwarnings⟩ := walked_of_sites h
  constructor
  · obtain ⟨trees, hlaid, hsound⟩ :=
      exists_trees (fun a ha => size_of_mem_allAttributes hfits ha) hslots
    exact ⟨trees, hlaid, hsound⟩
  · rintro trees ⟨hlaid, hsound⟩
    rw [← hlaid, mapM_slots_of_sound hsound] at hslots
    cases hslots
    rw [← hwarnings]
    simp [total, List.foldr_map]

end ClassFile

namespace Embedding

open ClassFile

variable {libraries : List String} {target : String} {e : Embedding} {bytes : Bytes}
  {c c' : ClassFile} {tally : Tally}

/-- A renaming of an embedding that succeeds leaves exactly one warning for each attribute with the
name of annotations that is laid out as none, and one for each site in an attribute that leads to a
text that is no proper symbol; such a site led to that text before, if it led to one. At all other
sites the renamed class has no name left that has a new one. -/
theorem rename_warnings (h : new libraries target = .ok e) (hc : ofBytes bytes = .ok c)
    (hnames : e.newNames.isEmpty = false) (hrename : c.rename e.newNames = .ok tally c') :
    (∃ trees, c.Outlined trees) ∧
    ∃ sites warnings, c'.sites = .ok (sites, warnings) ∧
      (∀ trees, c.Outlined trees →
        tally.warnings = total AttributeTree.dropped trees + sites.countP c'.rejected) ∧
      ∀ site ∈ sites,
        ((∃ scan, c.scanSite site = .ok scan) → c'.rejected site = c.rejected site) ∧
        ∃ scan, c'.scanSite site = .ok scan ∧
          (scan.defect = none → ∀ name ∈ scan.names, e.newNames.getText? name = none) ∧
          (tally.warnings = 0 → scan.defect = none) := by
  have hmap := stable_newNames h
  have hregistered := registered_of_ofBytes hc
  have hcount : c.pool.count ≤ UInt16.size := Nat.le_trans hregistered.count_le (by decide)
  have hframe : c.Framed c' := renamed_eq hrename ▸ framed_renamed e.newNames hregistered
  obtain ⟨sites, warnings, hsites, hrun⟩ := eachAlone_of_rename hregistered hnames hrename
  have hapart := apart_sites hcount hsites
  have hquiet := quiet_of_eachAlone hmap hregistered hapart hrun
  obtain ⟨hwarnings, hrejected⟩ := rejected_of_eachAlone hmap hregistered hapart hrun
  obtain ⟨houtline, hdropped⟩ := outlined_of_sites (fits_of_ofBytes hc) hsites
  refine ⟨houtline, sites, warnings, hframe.sites_eq hsites, fun trees htrees => ?_,
    fun site hsite => ⟨hrejected site hsite, ?_⟩⟩
  · rw [hwarnings, hdropped trees htrees]
  · obtain ⟨scan, hscan, hnone, hproper⟩ := (hquiet site hsite).names
    refine ⟨scan, hscan, hnone, fun hzero => hproper ?_⟩
    have hcountP : sites.countP c'.rejected = 0 := by omega
    exact Bool.eq_false_iff.mpr (List.countP_eq_zero.mp hcountP site hsite)

def warnedSample : Bytes :=
  magic ++ [0, 0, 0, 52] ++ [0, 6, 1, 0, 6] ++ Bytes.ascii "l/R$id" ++ [7, 0, 1] ++
    [1, 0, 9] ++ Bytes.ascii "Signature" ++
    [1, 0, 25] ++ Bytes.ascii "RuntimeVisibleAnnotations" ++ [1, 0, 1, 63] ++
    [0, 0x21, 0, 2, 0, 0] ++ [0, 0] ++ [0, 0] ++ [0, 0] ++
    [0, 2] ++ [0, 3, 0, 0, 0, 2, 0, 5] ++ [0, 4, 0, 0, 0, 1, 0]

/-- The class gets its new name, with a warning for the signature and one for the annotations. -/
theorem rename_warnedSample : ∃ e c tally c' trees, new ["l"] "a" = .ok e ∧
    ofBytes warnedSample = .ok c ∧ e.newNames.isEmpty = false ∧
    c.rename e.newNames = .ok tally c' ∧ tally.renamed = 1 ∧ tally.warnings = 2 ∧
    c.Outlined trees ∧ total AttributeTree.dropped trees = 1 ∧
    ∃ sites warnings, c'.sites = .ok (sites, warnings) ∧ sites.countP c'.rejected = 1 := by
  have hrun : ((new ["l"] "a").toOption.bind fun e =>
      (ofBytes warnedSample).toOption.bind fun c =>
        ((rename e.newNames).run' c).bind fun tally =>
          (c.renamed e.newNames).sites.toOption.map fun found =>
            (e.newNames.isEmpty, tally.renamed, tally.warnings,
              found.1.countP (c.renamed e.newNames).rejected)) = some (false, 1, 2, 1) := by
    decide +kernel
  cases he : new ["l"] "a" with
  | error fault =>
    rw [he] at hrun
    cases hrun
  | ok e =>
    simp only [he, Except.toOption, Option.bind_some] at hrun
    delta EStateM.run' EStateM.run at hrun
    cases hc : ofBytes warnedSample with
    | error fault =>
      rw [hc] at hrun
      cases hrun
    | ok c =>
      simp only [hc, Option.bind_some] at hrun
      cases hrename : c.rename e.newNames with
      | error fault c' =>
        simp only [hrename] at hrun
        cases hrun
      | ok tally c' =>
        simp only [hrename, renamed_eq hrename, Option.bind_some] at hrun
        cases hsites : c'.sites with
        | error fault =>
          simp only [hsites] at hrun
          cases hrun
        | ok found =>
          simp only [hsites, Option.map_some, Option.some.injEq, Prod.mk.injEq] at hrun
          obtain ⟨hnames, hrenamed, htwo, hone⟩ := hrun
          obtain ⟨⟨trees, htrees⟩, sites, warnings, hsites', hwarned, -⟩ :=
            rename_warnings he hc hnames hrename
          cases hsites.symm.trans hsites'
          have hsum := hwarned trees htrees
          rw [htwo, hone] at hsum
          have hdropped : total AttributeTree.dropped trees = 1 := by omega
          exact ⟨e, c, tally, c', trees, rfl, rfl, hnames, hrename, hrenamed, htwo, htrees,
            hdropped, sites, warnings, hsites', hone⟩

end Embedding

end Retarget
