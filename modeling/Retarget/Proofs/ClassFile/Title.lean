import Retarget.Proofs.ClassFile.OwnName
import Retarget.Proofs.ClassFile.Stopped

/-!
What the fault of a renaming calls the class. The name is looked up when the
renaming has stopped, and the entry for it is a site like any other. So a class
whose own entry had its turn is called by its new name, and one whose entry led
behind the end of the pool by a text that was added there. Otherwise it is
called as it was before.
-/

set_option autoImplicit false

namespace Retarget

private theorem Pool.Grown.exists_classRef_iff {p p' : Pool} (h : p.Grown p') (i : Nat) :
    (∃ index, p'.entries[i]? = some (.classRef index)) ↔
      ∃ index, p.entries[i]? = some (.classRef index) := by
  constructor
  · rintro ⟨index, hentry⟩
    cases hold : p.entries[i]? with
    | none =>
      -- behind the first pool there are texts only
      have hle : p.count ≤ i := Array.getElem?_eq_none_iff.mp hold
      obtain ⟨texts, hadded, -, -⟩ := h.added
      have hmem : Constant.classRef index ∈ p'.entries.toList.drop p.count := by
        apply List.mem_of_getElem? (i := i - p.count)
        rw [List.getElem?_drop, Array.getElem?_toList, Nat.add_sub_cancel' hle]
        exact hentry
      rw [hadded] at hmem
      obtain ⟨text, -, hutf⟩ := List.mem_map.mp hmem
      cases hutf
    | some e =>
      obtain ⟨j, hkept⟩ := h.kept hold
      have hsame : e.withSymbol j = .classRef index := Option.some.inj (hkept.symm.trans hentry)
      cases e with
      | classRef old => exact ⟨old, rfl⟩
      | _ => cases hsame
  · rintro ⟨index, hentry⟩
    obtain ⟨j, hkept⟩ := h.kept hentry
    exact ⟨j, hkept⟩

namespace ClassFile

variable {bytes text : Bytes} {c c' : ClassFile} {p : Pool} {newNames : Renaming}
  {sites renamed : List Site} {warnings k : Nat} {cause fault : Fault}

/-- What messages call a class whose name is in the text; if there is none that reads as a string,
the index it should be under. -/
def titleBy (thisClass : UInt16) (text : Option Bytes) : String :=
  match text.bind fun text => (ModifiedUtf8.decode text).toOption with
  | some name => Text.exchange '/' '.' name
  | none => s!"<this_class #{thisClass}>"

def ownTextIn (p : Pool) (c : ClassFile) : Option Bytes :=
  match c.pool.entries[c.thisClass.toNat]? with
  | some (.classRef index) => (p.text index).toOption
  | _ => none

private theorem ownTextIn_eq {index : UInt16}
    (h : c.pool.entries[c.thisClass.toNat]? = some (.classRef index)) (p : Pool) :
    c.ownTextIn p = (p.text index).toOption := by
  rw [ownTextIn, h]

private theorem ownTextIn_eq_none
    (h : ∀ index, c.pool.entries[c.thisClass.toNat]? ≠ some (.classRef index)) (p : Pool) :
    c.ownTextIn p = none := by
  rw [ownTextIn]
  split
  · next index heq => exact absurd heq (h index)
  · rfl

private theorem named_iff : c.Named text ↔ c.ownTextIn c.pool = some text := by
  by_cases h : ∃ index, c.pool.entries[c.thisClass.toNat]? = some (.classRef index)
  · obtain ⟨index, hentry⟩ := h
    rw [ownTextIn_eq hentry, toOption_eq_some_iff]
    simp [Named, hentry]
  · have hnone := not_exists.mp h
    rw [ownTextIn_eq_none hnone]
    simp [Named, hnone]

private theorem title_eq (c : ClassFile) : c.title = titleBy c.thisClass (c.ownTextIn c.pool) := by
  have hname : ((c.ownTextIn c.pool).bind fun text => (ModifiedUtf8.decode text).toOption) =
      c.name.toOption := by
    apply Option.ext
    intro name
    simp only [Option.bind_eq_some_iff, ← named_iff, toOption_eq_some_iff, name_eq_ok_iff]
  rw [title, titleBy, hname, binaryName]
  cases c.name <;> rfl

/-- The text of the own name after a renaming that renamed the sites, where the entry for it leads
in the pool `p`. -/
def ownTextAfter (newNames : Renaming) (renamed : List Site) (p : Pool) (c : ClassFile) :
    Option Bytes :=
  if c.ownSite ∈ renamed then (c.ownTextIn p).map (exchanged newNames) else c.ownTextIn p

private theorem ownTextAfter_eq_none (h : ∀ p, c.ownTextIn p = none) (renamed : List Site)
    (p : Pool) :
    c.ownTextAfter newNames renamed p = none := by
  rw [ownTextAfter, h, Option.map_none, ite_self]

private theorem ownText_of_stopped (hframe : c.Framed c') (hsites : c.sites = .ok (sites, warnings))
    (h : Stopped newNames.getText? c sites warnings k cause c') :
    c'.ownTextIn c'.pool = c.ownTextAfter newNames (sites.take k) c'.pool := by
  have hthis : c'.ownSite = c.ownSite := by rw [ownSite, ownSite, hframe.thisClass]
  have hclasses := hframe.pool.exists_classRef_iff c.thisClass.toNat
  rw [← hframe.thisClass] at hclasses
  by_cases hown : ∃ index, c.pool.entries[c'.thisClass.toNat]? = some (.classRef index)
  · obtain ⟨index', hentry'⟩ := hclasses.mpr hown
    obtain ⟨index, hentry⟩ := hown
    rw [hframe.thisClass] at hentry
    rw [ownTextAfter, ownTextIn_eq hentry', ownTextIn_eq hentry]
    split_ifs with hturn
    · obtain ⟨tally, -, hexchanged, -⟩ := h.before
      have hleads := hexchanged.leads _ hturn
      cases htext : c'.pool.text index with
      | ok text =>
        rw [ownText_of_leads hthis hentry hentry' htext hleads]
        rfl
      | error fault =>
        -- what leads to no text is not exchanged
        have hnone : newText? newNames.getText? c'.pool c c.ownSite = none := by
          rw [newText?, (indexAt_ownSite_iff hentry).mpr rfl]
          simp only [htext]
        rw [hnone] at hleads
        rw [index_of_leads_none hthis hentry hentry' hleads, htext]
        rfl
    · have hmem := ownSite_mem_sites hentry hsites
      rw [← List.take_append_drop k sites] at hmem
      have hbehind := (List.mem_append.mp hmem).resolve_left hturn
      rw [index_of_leads_none hthis hentry hentry' (h.after _ hbehind)]
  · have hnone : ∀ p, c.ownTextIn p = none :=
      ownTextIn_eq_none (hframe.thisClass ▸ not_exists.mp hown)
    rw [ownTextIn_eq_none (not_exists.mp (mt hclasses.mp hown)), ownTextAfter_eq_none hnone]

private theorem ownTextIn_of_grown (hp : c.pool.Grown p) (h : c.ownTextIn c.pool = some text) :
    c.ownTextIn p = some text := by
  obtain ⟨index, hentry, htext⟩ := named_iff.mpr h
  rw [ownTextIn_eq hentry, toOption_eq_some_iff]
  exact hp.text htext

/-- A renaming of the sites gives the class another title: its own name was exchanged for one that
reads differently, or its own entry led to no text and one was added there. -/
inductive Retitled (newNames : Renaming) (renamed : List Site) (p : Pool) (c : ClassFile) : Prop
  | exchanged (text : Bytes) (named : c.Named text) (turn : c.ownSite ∈ renamed)
      (differs : titleBy c.thisClass (some (exchanged newNames text)) ≠ c.title)
  | filled (text : Bytes) (missing : c.ownTextIn c.pool = none)
      (found : c.ownTextAfter newNames renamed p = some text)
      (differs : titleBy c.thisClass (some text) ≠ c.title)

private theorem title_kept_iff (hp : c.pool.Grown p) :
    titleBy c.thisClass (c.ownTextAfter newNames renamed p) = c.title ↔
      ¬ c.Retitled newNames renamed p := by
  constructor
  · rintro hsame (⟨text, hnamed, hturn, hdiffers⟩ | ⟨text, -, hfound, hdiffers⟩)
    · rw [ownTextAfter, if_pos hturn, ownTextIn_of_grown hp (named_iff.mp hnamed)] at hsame
      exact hdiffers hsame
    · rw [hfound] at hsame
      exact hdiffers hsame
  · intro hkept
    by_contra hdiffers
    refine hkept ?_
    cases hown : c.ownTextIn c.pool with
    | none =>
      cases hfound : c.ownTextAfter newNames renamed p with
      | none => exact absurd (by rw [hfound, title_eq, hown]) hdiffers
      | some text => exact .filled text hown hfound (hfound ▸ hdiffers)
    | some text =>
      have hfound := ownTextIn_of_grown hp hown
      rw [ownTextAfter, hfound, Option.map_some] at hdiffers
      split_ifs at hdiffers with hturn
      · exact .exchanged text (named_iff.mpr hown) hturn hdiffers
      · exact absurd (by rw [title_eq, hown]) hdiffers

/-- A renaming that fails says so with the title that the class has by then. This is the one it had
at first exactly if the class did not get another one from the sites that were renamed before. -/
theorem rename_error_title (hc : ofBytes bytes = .ok c)
    (h : c.rename newNames = .error fault c') :
    ∃ cause, fault = .rename c'.title cause ∧
      (c.sites = .error cause ∧ fault = .rename c.title cause ∨
        ∃ sites warnings k, c.sites = .ok (sites, warnings) ∧
          Stopped newNames.getText? c sites warnings k cause c' ∧
          c'.title = titleBy c.thisClass (c.ownTextAfter newNames (sites.take k) c'.pool) ∧
          (fault = .rename c.title cause ↔ ¬ c.Retitled newNames (sites.take k) c'.pool)) := by
  have hregistered := registered_of_ofBytes hc
  have hframe : c.Framed c' := by
    have hrenamed : c.renamed newNames = c' := by rw [renamed, h]
    exact hrenamed ▸ framed_renamed newNames hregistered
  obtain ⟨cause, rfl, hstop⟩ := eachAlone_of_rename_error hregistered h
  refine ⟨cause, rfl, ?_⟩
  rcases hstop with ⟨hsites, rfl⟩ | ⟨sites, warnings, hsites, hrun⟩
  · exact .inl ⟨hsites, rfl⟩
  · obtain ⟨k, hstopped⟩ := stopped_of_eachAlone hregistered hsites hframe.pool hrun
    have htitle : c'.title =
        titleBy c.thisClass (c.ownTextAfter newNames (sites.take k) c'.pool) := by
      rw [title_eq, hframe.thisClass, ownText_of_stopped hframe hsites hstopped]
    refine .inr ⟨sites, warnings, k, hsites, hstopped, htitle, ?_⟩
    rw [← title_kept_iff hframe.pool, ← htitle]
    simp

def retitledSample : Bytes :=
  magic ++ [0, 0, 0, 52] ++ [0, 4, 1, 0, 1, 65, 7, 0, 1, 1, 0, 1, 63] ++
    [0, 0x21, 0, 2, 0, 0] ++ [0, 0] ++ [0, 1, 0, 0, 0, 1, 0, 3, 0, 0] ++ [0, 0] ++ [0, 0]

/-- The fault at the descriptor is told of a class `B`. -/
theorem rename_error_title_retitledSample : ∃ c fault c' sites warnings k cause,
    ofBytes retitledSample = .ok c ∧ c.rename (.ofList [("A", "B")]) = .error fault c' ∧
      c.sites = .ok (sites, warnings) ∧
      Stopped (Renaming.ofList [("A", "B")]).getText? c sites warnings k cause c' ∧
      c.title = "A" ∧ fault = .rename "B" cause ∧
      c.Retitled (.ofList [("A", "B")]) (sites.take k) c'.pool := by
  have hrun : (ofBytes retitledSample).toOption.map (fun c =>
      (((rename (.ofList [("A", "B")])).run' c).isNone, c.sites.toOption.isSome, c.title,
        (c.renamed (.ofList [("A", "B")])).title)) = some (true, true, "A", "B") := by
    decide +kernel
  obtain ⟨c, hc, hrun⟩ := Option.map_eq_some_iff.mp hrun
  simp only [Prod.mk.injEq, toOption_eq_some_iff] at hc hrun
  obtain ⟨hfails, hlisted, hfirst, hlast⟩ := hrun
  delta EStateM.run' EStateM.run at hfails
  cases hrename : c.rename (.ofList [("A", "B")]) with
  | ok tally c' =>
    simp only [hrename] at hfails
    cases hfails
  | error fault c' =>
    have htitle : c'.title = "B" := by
      rw [renamed, hrename] at hlast
      exact hlast
    obtain ⟨cause, hfault, hstop⟩ := rename_error_title hc hrename
    rw [htitle] at hfault
    rcases hstop with ⟨hsites, -⟩ | ⟨sites, warnings, k, hsites, hstopped, -, hkept⟩
    · rw [hsites] at hlisted
      cases hlisted
    · refine ⟨c, fault, c', sites, warnings, k, cause, hc, hrename, hsites, hstopped, hfirst,
        hfault, ?_⟩
      by_contra hnot
      have hsame := hkept.mpr hnot
      rw [hfault, hfirst, Fault.rename.injEq] at hsame
      exact absurd hsame.1 (by decide)

end ClassFile

end Retarget
