import Retarget.Proofs.ClassFile.RenameBytes

/-!
What a renaming that fails leaves behind. It stops at a site that cannot be
renamed: the sites before it are renamed as in a renaming that succeeds, the
site itself and those behind it lead where they led before. No step is half
done, so the class file can still be written, and what is written is read as it.
-/

set_option autoImplicit false

namespace Retarget.ClassFile

variable {bytes : Bytes} {c c' : ClassFile} {map : Bytes → Option Bytes} {newNames : Renaming}
  {site : Site} {sites : List Site} {warnings : Nat} {tally : Tally} {fault : Fault}

private theorem stop_of_eachAlone (hc : c.pool.Registered)
    (h : eachAlone map sites tally c = .error fault c') :
    ∃ k site tally', sites[k]? = some site ∧ eachAlone map (sites.take k) tally c = .ok tally' c' ∧
      alone map site c' = .error fault c' := by
  induction sites generalizing c tally with
  | nil => cases h
  | cons first rest ih =>
    rw [eachAlone] at h
    rcases alone_cases map first hc with ⟨t, c₁, halone, houtcome⟩ | ⟨fault', halone⟩
    · simp only [halone] at h
      obtain ⟨k, site, tally', hsite, hrun, hstop⟩ := ih (houtcome.registered hc) h
      refine ⟨k + 1, site, tally', hsite, ?_, hstop⟩
      rw [List.take_succ_cons, eachAlone, halone]
      exact hrun
    · simp only [halone] at h
      cases h
      exact ⟨0, first, tally, rfl, rfl, halone⟩

/-- A renaming stopped at position `k` of the sites: the sites before it were renamed, the one there
cannot be renamed, and it leads where it led before, like those behind it. -/
structure Stopped (map : Bytes → Option Bytes) (c : ClassFile) (sites : List Site) (warnings k : Nat)
    (cause : Fault) (c' : ClassFile) : Prop where
  fails : ∃ site, sites[k]? = some site ∧ alone map site c' = .error cause c'
  before : ∃ tally, renameSites map (sites.take k) ⟨0, warnings⟩ ∅ c = .ok tally c' ∧
    Exchanged map c'.pool c (sites.take k) tally.renamed c' ∧
    (Exchanged map c.pool c (sites.take k) tally.renamed c' ↔
      ∀ site ∈ sites.take k, ¬ Late map c c' site)
  after : ∀ site ∈ sites.drop k,
    ∃ index, c.indexAt site.location = .ok index ∧ c'.indexAt site.location = .ok index

theorem stopped_of_eachAlone (hc : c.pool.Registered) (hsites : c.sites = .ok (sites, warnings))
    (hgrown : c.pool.Grown c'.pool)
    (h : eachAlone map sites ⟨0, warnings⟩ c = .error fault c') :
    ∃ k, Stopped map c sites warnings k fault c' := by
  have hcount : c.pool.count ≤ UInt16.size := Nat.le_trans hc.count_le (by decide)
  obtain ⟨k, site, tally, hsite, hrun, hstop⟩ := stop_of_eachAlone hc h
  have hapart : (sites.take k ++ sites.drop k).Pairwise Site.Apart := by
    rw [List.take_append_drop]
    exact apart_sites hcount hsites
  obtain ⟨hfront, -, hacross⟩ := List.pairwise_append.mp hapart
  obtain ⟨hleads, hrenamed⟩ := exchanged_of_eachAlone hc hfront (fun _ _ _ => Iff.rfl) hrun
  rw [Nat.zero_add] at hrenamed
  have hexchanged : Exchanged map c'.pool c (sites.take k) tally.renamed c' := ⟨hleads, hrenamed⟩
  refine ⟨k, ⟨site, hsite, hstop⟩, ⟨tally, ?_, hexchanged, hexchanged.first_iff hgrown⟩,
    fun other hother => ?_⟩
  · rw [renameSites_eq_eachAlone hc (Faithful.empty _)]
    exact hrun
  · obtain ⟨index, hindex⟩ := indexAt_of_mem_sites hcount hsites (List.mem_of_mem_drop hother)
    have hkept := (kept_of_eachAlone hc hrun).2 other fun s hs => hacross s hs other hother
    exact ⟨index, hindex, (hkept index).mpr hindex⟩

/-- A renaming that fails leaves a class that is read back from what it is written as. Either the
sites cannot be listed, and nothing changed, or it stopped at one of them: those before it lead to
the texts of a renaming that succeeds, it and those behind it to where they led before. -/
theorem rename_stopped (hc : ofBytes bytes = .ok c) (h : c.rename newNames = .error fault c') :
    (∃ cause, fault = .rename c'.title cause ∧ (c.sites = .error cause ∧ c' = c ∨
      ∃ sites warnings k, c.sites = .ok (sites, warnings) ∧
        Stopped newNames.getText? c sites warnings k cause c')) ∧
    ∃ written, c'.toBytes = .ok written ∧ ofBytes written = .ok c' := by
  have hregistered := registered_of_ofBytes hc
  have hrenamed : c.renamed newNames = c' := by rw [renamed, h]
  have hframe := framed_renamed newNames hregistered
  have hwritten := written_of_renamed hc newNames
  rw [hrenamed] at hframe hwritten
  refine ⟨?_, hwritten⟩
  rw [rename] at h
  split_ifs at h
  cases hsites : c.sites with
  | error cause =>
    simp only [hsites] at h
    cases h
    exact ⟨cause, rfl, .inl ⟨rfl, rfl⟩⟩
  | ok found =>
    obtain ⟨sites, warnings⟩ := found
    simp only [hsites, renameSites_eq_eachAlone hregistered (Faithful.empty _)] at h
    cases hrun : eachAlone newNames.getText? sites ⟨0, warnings⟩ c with
    | ok tally c₁ =>
      simp only [hrun] at h
      cases h
    | error cause c₁ =>
      simp only [hrun] at h
      cases h
      obtain ⟨k, hstopped⟩ := stopped_of_eachAlone hregistered hsites hframe.pool hrun
      exact ⟨cause, rfl, .inr ⟨sites, warnings, k, rfl, hstopped⟩⟩

/-- A class `M` with a descriptor of `A` and a field whose descriptor is the entry 9, behind the end
of the pool. -/
def stoppedSample : Bytes :=
  magic ++ [0, 0, 0, 52] ++
    [0, 6, 1, 0, 1, 77, 7, 0, 1, 1, 0, 3, 76, 65, 59, 12, 0, 1, 0, 3, 1, 0, 1, 120] ++
    [0, 0x21, 0, 2, 0, 0] ++ [0, 0] ++ [0, 1, 0, 0, 0, 5, 0, 9, 0, 0] ++ [0, 0] ++ [0, 0]

/-- The name of the class stays, the descriptor is renamed, and the field stops the renaming. -/
theorem rename_stoppedSample : ∃ c fault c' sites warnings k cause, ofBytes stoppedSample = .ok c ∧
    c.rename (.ofList [("A", "B")]) = .error fault c' ∧ c.sites = .ok (sites, warnings) ∧
    Stopped (Renaming.ofList [("A", "B")]).getText? c sites warnings k cause c' ∧
    c.indexAt (.constant 4) = .ok 3 ∧ c'.indexAt (.constant 4) = .ok 6 ∧
    c'.indexAt (.fieldDescriptor 0) = .ok 9 ∧
    ∃ written, c'.toBytes = .ok written ∧ ofBytes written = .ok c' := by
  have hrun : (ofBytes stoppedSample).toOption.map (fun c =>
      (((rename (.ofList [("A", "B")])).run' c).isNone, c.sites.toOption.isSome,
        c.indexAt (.constant 4), (c.renamed (.ofList [("A", "B")])).indexAt (.constant 4),
        (c.renamed (.ofList [("A", "B")])).indexAt (.fieldDescriptor 0))) =
      some (true, true, .ok 3, .ok 6, .ok 9) := by
    rfl
  cases hc : ofBytes stoppedSample with
  | error fault =>
    rw [hc] at hrun
    cases hrun
  | ok c =>
    simp only [hc, Except.toOption, Option.map_some, Option.some.injEq, Prod.mk.injEq] at hrun
    obtain ⟨hfails, hlisted, hfirst, hmoved, hfield⟩ := hrun
    delta EStateM.run' EStateM.run at hfails
    cases hrename : c.rename (.ofList [("A", "B")]) with
    | ok tally c' =>
      simp only [hrename] at hfails
      cases hfails
    | error fault c' =>
      rw [renamed, hrename] at hmoved hfield
      obtain ⟨⟨cause, -, hstop⟩, hwritten⟩ := rename_stopped hc hrename
      rcases hstop with ⟨hsites, -⟩ | ⟨sites, warnings, k, hsites, hstopped⟩
      · rw [hsites] at hlisted
        cases hlisted
      · exact ⟨c, fault, c', sites, warnings, k, cause, rfl, hrename, hsites, hstopped, hfirst,
          hmoved, hfield, hwritten⟩

end Retarget.ClassFile
