import Retarget.Proofs.ClassFile.Alone

/-!
What a renaming of classes does to a class file that was read. Whether it
succeeds or not, the class file stays inside its frame. If it succeeds, every
site whose text is exchanged leads to exactly the new text and all others keep
their index.

The text of a site is the one it leads to when its turn comes. That is the text
it led to at first, except for an index behind the end of the pool, which leads
to a text as soon as an earlier site has added enough of them.
-/

set_option autoImplicit false

namespace Retarget.ClassFile

variable {bytes : Bytes} {c c' c₁ c₂ : ClassFile} {p : Pool} {map : Bytes → Option Bytes}
  {newNames : Renaming} {site other : Site} {sites rest : List Site} {warnings : Nat}
  {tally tally' : Tally}

private theorem Outcome.framed (h : Outcome map site c₁ tally c₂) (hframe : c.Framed c₁)
    (hsites : c.sites = .ok (sites, warnings)) (hsite : site ∈ sites) : c.Framed c₂ := by
  cases h with
  | stays => exact hframe
  | left => exact hframe
  | leads _ _ _ hp =>
    have hpool := hframe.withPool (hp.grown hframe.pool)
    exact hpool.place hsites hsite _

private theorem Outcome.built (h : Outcome map site c tally c') (hc : c.pool.Built) :
    c'.pool.Built := by
  cases h with
  | stays => exact hc
  | left => exact hc
  | @leads index i text new p _ _ _ hp =>
    have hpool := hp.built hc
    cases site.location with
    | constant j => exact hpool.relink j i
    | slot owner => cases owner <;> exact hpool
    | _ => exact hpool

private theorem keeps_of_eachAlone {P : ClassFile → Prop} (hc : c.pool.Registered) (hstart : P c)
    (hstep : ∀ {site tally c₁ c₂}, site ∈ rest → Outcome map site c₁ tally c₂ → P c₁ → P c₂)
    (tally : Tally) : match eachAlone map rest tally c with
      | .ok _ c' => P c'
      | .error _ c' => P c' := by
  induction rest generalizing c tally with
  | nil => exact hstart
  | cons site rest ih =>
    rw [eachAlone]
    rcases alone_cases map site hc with ⟨t, c₁, halone, houtcome⟩ | ⟨fault, halone⟩
    · simp only [halone]
      exact ih (houtcome.registered hc) (hstep List.mem_cons_self houtcome hstart)
        (fun hsite => hstep (List.mem_cons_of_mem _ hsite)) _
    · simp only [halone]
      exact hstart

def renamed (newNames : Renaming) (c : ClassFile) : ClassFile :=
  match c.rename newNames with
  | .ok _ c' => c'
  | .error _ c' => c'

private theorem keeps_renamed {P : ClassFile → Prop} (newNames : Renaming) (hc : c.pool.Registered)
    (hstart : P c)
    (hstep : ∀ {sites warnings site tally c₁ c₂}, c.sites = .ok (sites, warnings) → site ∈ sites →
      Outcome newNames.getText? site c₁ tally c₂ → P c₁ → P c₂) : P (c.renamed newNames) := by
  unfold renamed rename
  split_ifs
  · exact hstart
  · cases hsites : c.sites with
    | error fault => exact hstart
    | ok found =>
      obtain ⟨sites, warnings⟩ := found
      have hrun := keeps_of_eachAlone hc hstart (hstep hsites) ⟨0, warnings⟩
      simp only [renameSites_eq_eachAlone hc (Faithful.empty _)]
      cases hresult : eachAlone newNames.getText? sites ⟨0, warnings⟩ c with
      | ok t c' =>
        rw [hresult] at hrun
        exact hrun
      | error fault c' =>
        rw [hresult] at hrun
        exact hrun

theorem framed_renamed (newNames : Renaming) (hc : c.pool.Registered) :
    c.Framed (c.renamed newNames) :=
  keeps_renamed newNames hc (.refl c) fun hsites hsite houtcome hframe =>
    houtcome.framed hframe hsites hsite

theorem registered_renamed (newNames : Renaming) (hc : c.pool.Registered) :
    (c.renamed newNames).pool.Registered :=
  keeps_renamed newNames hc hc fun _ _ houtcome hc₁ => houtcome.registered hc₁

theorem built_renamed (newNames : Renaming) (hc : c.pool.Registered) (hbuilt : c.pool.Built) :
    (c.renamed newNames).pool.Built :=
  keeps_renamed newNames hc hbuilt fun _ _ houtcome hc₁ => houtcome.built hc₁

/-- A renaming, also one that fails, leaves everything but places for names of classes and the
bytes in slots as it was. It adds texts and edits none, so all texts that name no class are found
where they were. -/
theorem renamed_frame (h : ofBytes bytes = .ok c) (newNames : Renaming) :
    c.Framed (c.renamed newNames) ∧ (c.renamed newNames).plainIndices = c.plainIndices ∧
      ∀ index text, c.pool.text index = .ok text →
        (c.renamed newNames).pool.text index = .ok text := by
  have hframe := framed_renamed newNames (registered_of_ofBytes h)
  exact ⟨hframe, hframe.plainIndices_eq, fun _ _ htext => hframe.pool.text htext⟩

def literalSample : Bytes :=
  magic ++ [0, 0, 0, 52] ++ [0, 4, 1, 0, 1, 65, 7, 0, 1, 8, 0, 1] ++
    [0, 0x21, 0, 2, 0, 0] ++ [0, 0] ++ [0, 0] ++ [0, 0] ++ [0, 0]

/-- The class leads to its new name, the string to the old one. -/
theorem renamed_literalSample : ∃ c, ofBytes literalSample = .ok c ∧
    (c.renamed (.ofList [("A", "B")])).indexAt (.constant 2) = .ok 4 ∧
    c.Framed (c.renamed (.ofList [("A", "B")])) ∧
    (c.renamed (.ofList [("A", "B")])).plainIndices = [1] ∧
    (c.renamed (.ofList [("A", "B")])).pool.text 1 = .ok [65] := by
  have hrun : (ofBytes literalSample).toOption.map (fun c =>
      ((c.renamed (.ofList [("A", "B")])).indexAt (.constant 2), c.plainIndices,
        c.pool.text 1)) = some (.ok 4, [1], .ok [65]) := by
    rfl
  cases hc : ofBytes literalSample with
  | error fault =>
    rw [hc] at hrun
    cases hrun
  | ok c =>
    simp only [hc, Except.toOption, Option.map_some, Option.some.injEq, Prod.mk.injEq] at hrun
    obtain ⟨hindex, hplain, htext⟩ := hrun
    obtain ⟨hframe, hkept, htexts⟩ := renamed_frame hc (.ofList [("A", "B")])
    exact ⟨c, rfl, hindex, hframe, hkept.trans hplain, htexts 1 [65] htext⟩

/-- The text that the one at a site is exchanged for, if it is. Where the site leads is seen in the
class file, its text in the pool. -/
def newText? (map : Bytes → Option Bytes) (p : Pool) (c : ClassFile) (site : Site) :
    Option Bytes :=
  match c.indexAt site.location with
  | .error _ => none
  | .ok index =>
    match p.text index with
    | .error _ => none
    | .ok text =>
      match Symbol.substitute site.kind map text with
      | .error _ => none
      | .ok new => new

theorem newText?_eq {index : UInt16} {text : Bytes} (hindex : c.indexAt site.location = .ok index)
    (htext : p.text index = .ok text) : newText? map p c site =
      match Symbol.substitute site.kind map text with
      | .error _ => none
      | .ok new => new := by
  rw [newText?, hindex]
  simp only [htext]

private theorem newText?_congr
    (h : ∀ i, c₁.indexAt site.location = .ok i ↔ c.indexAt site.location = .ok i) :
    newText? map p c₁ site = newText? map p c site := by
  simp only [newText?]
  cases h₁ : c₁.indexAt site.location with
  | ok i => rw [(h i).mp h₁]
  | error fault =>
    cases h₂ : c.indexAt site.location with
    | ok i => cases h₁.symm.trans ((h i).mpr h₂)
    | error fault' => rfl

def Leads (c c' : ClassFile) (site : Site) : Option Bytes → Prop
  | some new => ∃ index, c'.indexAt site.location = .ok index ∧ c'.pool.text index = .ok new
  | none => ∃ index, c.indexAt site.location = .ok index ∧ c'.indexAt site.location = .ok index

/-- Each site was exchanged on its own, by the texts of the pool `p`. -/
structure Exchanged (map : Bytes → Option Bytes) (p : Pool) (c : ClassFile) (sites : List Site)
    (renamed : Nat) (c' : ClassFile) : Prop where
  leads : ∀ site ∈ sites, Leads c c' site (newText? map p c site)
  counted : renamed = sites.countP fun site => (newText? map p c site).isSome

namespace Outcome

theorem toExtends (h : Outcome map site c tally c') : c.pool.Extends c'.pool := by
  cases h with
  | stays => exact .refl _
  | left => exact .refl _
  | @leads index i text new p _ _ _ hp =>
    exact hp.toExtends.trans (extends_place site.location i { c with pool := p })

theorem indexAt_of_apart (h : Outcome map site c tally c') (hapart : site.Apart other)
    (i : UInt16) : c'.indexAt other.location = .ok i ↔ c.indexAt other.location = .ok i := by
  cases h with
  | stays => exact Iff.rfl
  | left => exact Iff.rfl
  | leads _ _ _ hp =>
    rw [indexAt_place_of_apart hapart]
    exact indexAt_interned hp _ _

private theorem leads_newText? (h : Outcome map site c tally c') (hp : c.pool.Extends p) :
    Leads c c' site (newText? map p c site) ∧
      tally.renamed = if (newText? map p c site).isSome then 1 else 0 := by
  cases h with
  | stays hindex htext hsub =>
    rw [newText?_eq hindex (hp.text htext), hsub]
    exact ⟨⟨_, hindex, hindex⟩, rfl⟩
  | left hindex htext hsub =>
    rw [newText?_eq hindex (hp.text htext), hsub]
    exact ⟨⟨_, hindex, hindex⟩, rfl⟩
  | @leads index i text new p' hindex htext hsub hinterned =>
    rw [newText?_eq hindex (hp.text htext), hsub]
    have hread := (indexAt_interned hinterned site.location _).mpr hindex
    have htext' := (extends_place site.location i { c with pool := p' }).text hinterned.text
    exact ⟨⟨_, indexAt_place_self hread, htext'⟩, rfl⟩

end Outcome

theorem kept_of_eachAlone (hc : c.pool.Registered)
    (h : eachAlone map rest tally c = .ok tally' c') :
    c.pool.Extends c'.pool ∧ ∀ other : Site, (∀ site ∈ rest, site.Apart other) →
      ∀ i, c'.indexAt other.location = .ok i ↔ c.indexAt other.location = .ok i := by
  induction rest generalizing c tally with
  | nil =>
    cases h
    exact ⟨.refl _, fun _ _ _ => Iff.rfl⟩
  | cons site rest ih =>
    rw [eachAlone] at h
    rcases alone_cases map site hc with ⟨t, c₁, halone, houtcome⟩ | ⟨fault, halone⟩
    · simp only [halone] at h
      obtain ⟨hextends, hkept⟩ := ih (houtcome.registered hc) h
      refine ⟨houtcome.toExtends.trans hextends, fun other hapart i => ?_⟩
      have hsite := hapart site List.mem_cons_self
      have hrest := fun s hs => hapart s (List.mem_cons_of_mem _ hs)
      exact (hkept other hrest i).trans (houtcome.indexAt_of_apart hsite i)
    · simp only [halone] at h
      cases h

/-- A run of sites that have no byte in common exchanges each on its own. -/
theorem exchanged_of_eachAlone (hc₁ : c₁.pool.Registered) (hapart : rest.Pairwise Site.Apart)
    (hread : ∀ site ∈ rest, ∀ i,
      c₁.indexAt site.location = .ok i ↔ c.indexAt site.location = .ok i)
    (h : eachAlone map rest tally c₁ = .ok tally' c') :
    (∀ site ∈ rest, Leads c c' site (newText? map c'.pool c site)) ∧
      tally'.renamed = tally.renamed +
        rest.countP fun site => (newText? map c'.pool c site).isSome := by
  induction rest generalizing c₁ tally with
  | nil =>
    cases h
    exact ⟨by simp, rfl⟩
  | cons site rest ih =>
    rw [eachAlone] at h
    obtain ⟨hfirst, hapart⟩ := List.pairwise_cons.mp hapart
    rcases alone_cases map site hc₁ with ⟨t, c₂, halone, houtcome⟩ | ⟨fault, halone⟩
    · simp only [halone] at h
      have hc₂ := houtcome.registered hc₁
      have hsite := hread site List.mem_cons_self
      have hread₂ : ∀ s ∈ rest, ∀ i,
          c₂.indexAt s.location = .ok i ↔ c.indexAt s.location = .ok i := by
        intro s hs i
        exact (houtcome.indexAt_of_apart (hfirst s hs) i).trans
          (hread s (List.mem_cons_of_mem _ hs) i)
      -- the rest reads its sites as at the start, and leaves this one where its turn led it
      obtain ⟨hleads, hcount⟩ := ih hc₂ hapart hread₂ h
      obtain ⟨hextends, hkept⟩ := kept_of_eachAlone hc₂ h
      obtain ⟨hown, ht⟩ := houtcome.leads_newText? (houtcome.toExtends.trans hextends)
      have hlast := hkept site fun s hs => Location.Apart.symm (hfirst s hs)
      rw [newText?_congr hsite] at hown ht
      refine ⟨fun s hs => ?_, ?_⟩
      · rcases List.mem_cons.mp hs with rfl | hs
        · cases hnew : newText? map c'.pool c s with
          | some new =>
            rw [hnew] at hown
            obtain ⟨i, hi, htext⟩ := hown
            exact ⟨i, (hlast i).mpr hi, hextends.text htext⟩
          | none =>
            rw [hnew] at hown
            obtain ⟨i, hi, hi₂⟩ := hown
            exact ⟨i, (hsite i).mp hi, (hlast i).mpr hi₂⟩
        · exact hleads s hs
      · rw [hcount, List.countP_cons]
        simp only [Tally.add, ht]
        omega
    · simp only [halone] at h
      cases h

/-- A site that led to no text at first and is exchanged all the same: its index is behind the end
of the pool, and an earlier site added a text there. -/
def Late (map : Bytes → Option Bytes) (c c' : ClassFile) (site : Site) : Prop :=
  (∃ index, c.indexAt site.location = .ok index ∧ c.pool.count ≤ index.toNat) ∧
    (newText? map c'.pool c site).isSome

private theorem newText?_of_late (h : Late map c c' site) : newText? map c.pool c site = none := by
  obtain ⟨⟨index, hindex, hlate⟩, -⟩ := h
  have hnone : c.pool.entries[index.toNat]? = none := Array.getElem?_eq_none hlate
  have htext : ∀ text, c.pool.text index ≠ .ok text := by
    intro text htext
    cases hnone.symm.trans (Pool.text_eq_ok_iff.mp htext)
  rw [newText?, hindex]
  cases h : c.pool.text index with
  | error fault => simp only [h]
  | ok text => exact absurd h (htext text)

private theorem newText?_mono (hp : c.pool.Grown p) {new : Bytes}
    (h : newText? map c.pool c site = some new) : newText? map p c site = some new := by
  cases hindex : c.indexAt site.location with
  | error fault =>
    rw [newText?, hindex] at h
    cases h
  | ok index =>
    cases htext : c.pool.text index with
    | error fault =>
      rw [newText?, hindex] at h
      simp only [htext] at h
      cases h
    | ok text =>
      rw [newText?_eq hindex (hp.text htext), ← newText?_eq hindex htext]
      exact h

private theorem newText?_of_not_late (hp : c.pool.Grown c'.pool) (h : ¬ Late map c c' site) :
    newText? map c.pool c site = newText? map c'.pool c site := by
  cases hnew : newText? map c'.pool c site with
  | none =>
    cases hold : newText? map c.pool c site with
    | none => rfl
    | some new => cases hnew.symm.trans (newText?_mono hp hold)
  | some new =>
    have hsome : (newText? map c'.pool c site).isSome := by rw [hnew]; rfl
    cases hindex : c.indexAt site.location with
    | error fault =>
      rw [newText?, hindex] at hnew
      cases hnew
    | ok index =>
      have hlt : index.toNat < c.pool.count := by
        by_contra hle
        exact h ⟨⟨index, hindex, Nat.le_of_not_lt hle⟩, hsome⟩
      cases htext' : c'.pool.text index with
      | error fault =>
        rw [newText?, hindex] at hnew
        simp only [htext'] at hnew
        cases hnew
      | ok text =>
        have htext : c.pool.text index = .ok text :=
          Pool.text_eq_ok_iff.mpr (hp.text_back hlt (Pool.text_eq_ok_iff.mp htext'))
        rw [newText?_eq hindex htext, ← newText?_eq hindex htext', hnew]

theorem Exchanged.first_iff {renamed : Nat} (hp : c.pool.Grown c'.pool)
    (h : Exchanged map c'.pool c sites renamed c') :
    Exchanged map c.pool c sites renamed c' ↔ ∀ site ∈ sites, ¬ Late map c c' site := by
  constructor
  · intro hfirst site hsite hlate
    have hmono : ∀ s, (newText? map c.pool c s).isSome = true →
        (newText? map c'.pool c s).isSome = true := by
      intro s hs
      obtain ⟨new, hnew⟩ := Option.isSome_iff_exists.mp hs
      rw [newText?_mono hp hnew]
      rfl
    have hnone : (newText? map c.pool c site).isSome = false := by
      rw [newText?_of_late hlate]
      rfl
    have hfewer := countP_lt_of_mem hsite hmono hnone hlate.2
    have hcounted := h.counted
    have hcounted' := hfirst.counted
    omega
  · intro hnone
    have hsame : ∀ site ∈ sites, newText? map c.pool c site = newText? map c'.pool c site :=
      fun site hsite => newText?_of_not_late hp (hnone site hsite)
    refine ⟨fun site hsite => ?_, ?_⟩
    · rw [hsame site hsite]
      exact h.leads site hsite
    · rw [h.counted]
      refine List.countP_congr fun site hsite => ?_
      rw [hsame site hsite]

theorem eachAlone_of_rename (hc : c.pool.Registered) (hnames : newNames.isEmpty = false)
    (h : c.rename newNames = .ok tally c') : ∃ sites warnings, c.sites = .ok (sites, warnings) ∧
      eachAlone newNames.getText? sites ⟨0, warnings⟩ c = .ok tally c' := by
  rw [rename, hnames] at h
  cases hsites : c.sites with
  | error fault =>
    rw [hsites] at h
    cases h
  | ok found =>
    obtain ⟨sites, warnings⟩ := found
    simp only [hsites, renameSites_eq_eachAlone hc (Faithful.empty _)] at h
    refine ⟨sites, warnings, rfl, ?_⟩
    cases hrun : eachAlone newNames.getText? sites ⟨0, warnings⟩ c with
    | ok t c₁ =>
      simp only [hrun] at h
      exact h
    | error fault c₁ =>
      simp only [hrun] at h
      cases h

/-- A renaming that fails names the class as it is by then. Either the sites cannot be listed, or one
of them cannot be renamed. -/
theorem eachAlone_of_rename_error {fault : Fault} (hc : c.pool.Registered)
    (h : c.rename newNames = .error fault c') : ∃ cause, fault = .rename c'.title cause ∧
      (c.sites = .error cause ∧ c' = c ∨ ∃ sites warnings, c.sites = .ok (sites, warnings) ∧
        eachAlone newNames.getText? sites ⟨0, warnings⟩ c = .error cause c') := by
  rw [rename] at h
  split_ifs at h
  cases hsites : c.sites with
  | error cause =>
    simp only [hsites] at h
    cases h
    exact ⟨cause, rfl, .inl ⟨rfl, rfl⟩⟩
  | ok found =>
    obtain ⟨sites, warnings⟩ := found
    simp only [hsites, renameSites_eq_eachAlone hc (Faithful.empty _)] at h
    cases hrun : eachAlone newNames.getText? sites ⟨0, warnings⟩ c with
    | ok t c₁ =>
      simp only [hrun] at h
      cases h
    | error cause c₁ =>
      simp only [hrun] at h
      cases h
      exact ⟨cause, rfl, .inr ⟨sites, warnings, rfl, hrun⟩⟩

/-- A renaming that succeeds finds the same sites before and after it, and exchanges each on its
own, whatever else is renamed with it. Exactly if there is no late site, the texts are those that
the sites led to at first. -/
theorem rename_exchanged (hc : ofBytes bytes = .ok c) (hnames : newNames.isEmpty = false)
    (h : c.rename newNames = .ok tally c') :
    ∃ sites warnings, c.sites = .ok (sites, warnings) ∧ c'.sites = .ok (sites, warnings) ∧
      Exchanged newNames.getText? c'.pool c sites tally.renamed c' ∧
      (Exchanged newNames.getText? c.pool c sites tally.renamed c' ↔
        ∀ site ∈ sites, ¬ Late newNames.getText? c c' site) := by
  have hregistered := registered_of_ofBytes hc
  have hcount : c.pool.count ≤ UInt16.size := Nat.le_trans hregistered.count_le (by decide)
  have hframe : c.Framed c' := by
    have hframe := framed_renamed newNames hregistered
    rwa [renamed, h] at hframe
  obtain ⟨sites, warnings, hsites, hrun⟩ := eachAlone_of_rename hregistered hnames h
  obtain ⟨hleads, hrenamed⟩ := exchanged_of_eachAlone hregistered
    (apart_sites hcount hsites) (fun _ _ _ => Iff.rfl) hrun
  rw [Nat.zero_add] at hrenamed
  have hexchanged : Exchanged newNames.getText? c'.pool c sites tally.renamed c' :=
    ⟨hleads, hrenamed⟩
  exact ⟨sites, warnings, hsites, hframe.sites_eq hsites, hexchanged,
    hexchanged.first_iff hframe.pool⟩

def lateSample : Bytes :=
  magic ++ [0, 0, 0, 52] ++
    [0, 6, 1, 0, 1, 77, 7, 0, 1, 1, 0, 3, 76, 65, 59, 12, 0, 1, 0, 3, 1, 0, 1, 120] ++
    [0, 0x21, 0, 2, 0, 0] ++ [0, 0] ++ [0, 1, 0, 0, 0, 5, 0, 6, 0, 0] ++ [0, 0] ++ [0, 0]

/-- The descriptor of the field leads to no text at first. Exchanging `A` adds a descriptor with `B`
there, and the field, which names `B` now, is renamed as well. -/
theorem rename_lateSample : ∃ c tally c' sites warnings, ofBytes lateSample = .ok c ∧
    c.rename (.ofList [("A", "B"), ("B", "C")]) = .ok tally c' ∧
    c.sites = .ok (sites, warnings) ∧ tally.renamed = 2 ∧
    ¬ Exchanged (Renaming.ofList [("A", "B"), ("B", "C")]).getText? c.pool c sites tally.renamed c' ∧
    Exchanged (Renaming.ofList [("A", "B"), ("B", "C")]).getText? c'.pool c sites tally.renamed c' ∧
    ∃ site ∈ sites, Late (Renaming.ofList [("A", "B"), ("B", "C")]).getText? c c' site := by
  have hrun : ((ofBytes lateSample).toOption.bind fun c =>
      ((rename (.ofList [("A", "B"), ("B", "C")])).run' c).bind fun tally =>
        c.sites.toOption.map fun found => (tally.renamed, found.1.countP fun site =>
          (newText? (Renaming.ofList [("A", "B"), ("B", "C")]).getText? c.pool c site).isSome)) =
      some (2, 1) := by
    rfl
  cases hc : ofBytes lateSample with
  | error fault =>
    rw [hc] at hrun
    cases hrun
  | ok c =>
    simp only [hc, Except.toOption, Option.bind_some] at hrun
    delta EStateM.run' EStateM.run at hrun
    cases hrename : c.rename (.ofList [("A", "B"), ("B", "C")]) with
    | error fault c' =>
      simp only [hrename] at hrun
      cases hrun
    | ok tally c' =>
      obtain ⟨sites, warnings, hsites, -, hexchanged, hfirst⟩ :=
        rename_exchanged hc (by decide) hrename
      simp only [hrename, hsites, Option.bind_some, Option.map_some, Option.some.injEq,
        Prod.mk.injEq] at hrun
      obtain ⟨htwo, hone⟩ := hrun
      have hnot : ¬ Exchanged (Renaming.ofList [("A", "B"), ("B", "C")]).getText? c.pool c sites
          tally.renamed c' := by
        intro h
        have := h.counted
        omega
      refine ⟨c, tally, c', sites, warnings, rfl, hrename, hsites, htwo, hnot, hexchanged, ?_⟩
      by_contra hnone
      exact hnot (hfirst.mpr fun site hsite hlate => hnone ⟨site, hsite, hlate⟩)

end Retarget.ClassFile
