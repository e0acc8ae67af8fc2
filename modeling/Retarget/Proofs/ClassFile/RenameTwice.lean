import Retarget.Proofs.Accessors
import Retarget.Proofs.ClassFile.Renamed
import Retarget.Proofs.ClassFile.Reread

/-!
Renaming a class file twice. With stable new names every site is quiet once its
turn has passed: it leads to a text without a new one, or to one that is left as
it is. Later sites keep it quiet, so a second renaming finds nothing to do. The
new names of an embedding are stable, and what is written after the first
renaming is read as the class file that was written.
-/

set_option autoImplicit false

namespace Retarget

namespace ClassFile

variable {bytes new : Bytes} {c c' : ClassFile} {map : Bytes → Option Bytes} {newNames : Renaming}
  {site : Site} {rest : List Site} {tally tally' : Tally}

/-- The site leads to a text in which no name has a new one, or to one in an attribute that is no
proper symbol. -/
inductive Quiet (map : Bytes → Option Bytes) (c : ClassFile) (site : Site) : Prop where
  | same {index : UInt16} {text : Bytes} (hindex : c.indexAt site.location = .ok index)
      (htext : c.pool.text index = .ok text)
      (hsub : Symbol.substitute site.kind map text = .ok none)
  | improper {index : UInt16} {text : Bytes} {defect : Defect}
      (hindex : c.indexAt site.location = .ok index) (htext : c.pool.text index = .ok text)
      (hsub : Symbol.substitute site.kind map text = .error defect)
      (hslot : site.location.isSlot = true)

private theorem Quiet.kept (h : Quiet map c site) (hextends : c.pool.Extends c'.pool)
    (hread : ∀ i, c'.indexAt site.location = .ok i ↔ c.indexAt site.location = .ok i) :
    Quiet map c' site := by
  cases h with
  | same hindex htext hsub => exact .same ((hread _).mpr hindex) (hextends.text htext) hsub
  | improper hindex htext hsub hslot =>
    exact .improper ((hread _).mpr hindex) (hextends.text htext) hsub hslot

private theorem Quiet.alone (h : Quiet map c site) :
    ∃ t, alone map site c = .ok t c ∧ t.renamed = 0 := by
  cases h with
  | same hindex htext hsub =>
    refine ⟨⟨0, 0⟩, ?_, rfl⟩
    simp only [ClassFile.alone, renameSite, target, hindex, htext, hsub, leadTo,
      Std.ExtTreeMap.getElem?_empty]
  | improper hindex htext hsub hslot =>
    refine ⟨⟨0, 1⟩, ?_, rfl⟩
    simp only [ClassFile.alone, renameSite, target, hindex, htext, hsub, hslot, if_true,
      Std.ExtTreeMap.getElem?_empty]

private theorem eachAlone_of_quiet (h : ∀ site ∈ rest, Quiet map c site) (tally : Tally) :
    ∃ tally', eachAlone map rest tally c = .ok tally' c ∧ tally'.renamed = tally.renamed := by
  induction rest generalizing tally with
  | nil => exact ⟨tally, rfl, rfl⟩
  | cons site rest ih =>
    obtain ⟨hsite, hrest⟩ := List.forall_mem_cons.mp h
    obtain ⟨t, halone, ht⟩ := hsite.alone
    obtain ⟨tally', heach, htally⟩ := ih hrest (tally.add t)
    refine ⟨tally', ?_, ?_⟩
    · rw [eachAlone, halone]
      exact heach
    · rw [htally, Tally.add, ht, Nat.add_zero]

private theorem Outcome.quiet (hmap : Stable map) (h : Outcome map site c tally c') :
    Quiet map c' site := by
  cases h with
  | stays hindex htext hsub => exact .same hindex htext hsub
  | left hindex htext hsub hslot => exact .improper hindex htext hsub hslot
  | @leads index i text new p hindex htext hsub hp =>
    have hread := (indexAt_interned hp site.location index).mpr hindex
    have hnew := (extends_place site.location i { c with pool := p }).text hp.text
    exact .same (indexAt_place_self hread) hnew (Symbol.substitute_again hmap hsub)

theorem quiet_of_eachAlone (hmap : Stable map) (hc : c.pool.Registered)
    (hapart : rest.Pairwise Site.Apart) (h : eachAlone map rest tally c = .ok tally' c') :
    ∀ site ∈ rest, Quiet map c' site := by
  induction rest generalizing c tally with
  | nil => simp
  | cons site rest ih =>
    rw [eachAlone] at h
    obtain ⟨hfirst, hapart⟩ := List.pairwise_cons.mp hapart
    rcases alone_cases map site hc with ⟨t, c₁, halone, houtcome⟩ | ⟨fault, halone⟩
    · simp only [halone] at h
      have hc₁ := houtcome.registered hc
      obtain ⟨hextends, hkept⟩ := kept_of_eachAlone hc₁ h
      have hlast := hkept site fun s hs => Location.Apart.symm (hfirst s hs)
      exact List.forall_mem_cons.mpr
        ⟨(houtcome.quiet hmap).kept hextends hlast, ih hc₁ hapart h⟩
    · simp only [halone] at h
      cases h

theorem renamed_eq (h : c.rename newNames = .ok tally c') : c.renamed newNames = c' := by
  rw [renamed, h]

theorem rename_again (hmap : Stable newNames.getText?) (hc : c.pool.Registered)
    (h : c.rename newNames = .ok tally c') :
    ∃ again, c'.rename newNames = .ok again c' ∧ again.renamed = 0 := by
  cases hnames : newNames.isEmpty with
  | true => exact ⟨⟨0, 0⟩, by rw [rename, hnames]; rfl, rfl⟩
  | false =>
    have hframe : c.Framed c' := renamed_eq h ▸ framed_renamed newNames hc
    have hc' : c'.pool.Registered := renamed_eq h ▸ registered_renamed newNames hc
    have hcount : c.pool.count ≤ UInt16.size := Nat.le_trans hc.count_le (by decide)
    obtain ⟨sites, warnings, hsites, hrun⟩ := eachAlone_of_rename hc hnames h
    have hquiet := quiet_of_eachAlone hmap hc (apart_sites hcount hsites) hrun
    obtain ⟨again, heach, hagain⟩ := eachAlone_of_quiet hquiet ⟨0, warnings⟩
    refine ⟨again, ?_, hagain⟩
    simp only [rename, hnames, Bool.false_eq_true, if_false, hframe.sites_eq hsites,
      renameSites_eq_eachAlone hc' (Faithful.empty _), heach]

theorem ofBytes_of_rename (hc : ofBytes bytes = .ok c) (h : c.rename newNames = .ok tally c')
    (hnew : c'.toBytes = .ok new) : ofBytes new = .ok c' := by
  have hregistered := registered_of_ofBytes hc
  have hbuilt : c'.pool.Built :=
    renamed_eq h ▸ built_renamed newNames hregistered (built_of_ofBytes hc)
  have hregistered' : c'.pool.Registered :=
    renamed_eq h ▸ registered_renamed newNames hregistered
  exact ofBytes_of_toBytes hbuilt (Nat.lt_succ_of_le hregistered'.count_le) hnew

private theorem renameBytes_again (hmap : Stable newNames.getText?)
    (h : renameBytes newNames bytes = .ok new) : renameBytes newNames new = .ok new := by
  have hfirst := h
  rw [renameBytes] at h
  cases hc : ofBytes bytes with
  | error fault =>
    rw [hc] at h
    cases h
  | ok c =>
    simp only [hc] at h
    cases hrename : c.rename newNames with
    | error fault c' =>
      simp only [hrename] at h
      cases h
    | ok tally c' =>
      simp only [hrename] at h
      split_ifs at h
      · cases h
        exact hfirst
      · obtain ⟨again, hagain, hzero⟩ := rename_again hmap (registered_of_ofBytes hc) hrename
        simp only [renameBytes, ofBytes_of_rename hc hrename h, hagain, hzero, if_true]

end ClassFile

namespace Embedding

variable {libraries : List String} {target : String} {e : Embedding}

/-- With the new names of an embedding renaming twice is renaming once: the second time no site
changes, and bytes that were renamed are given back as they are. -/
theorem rename_twice (h : new libraries target = .ok e) :
    (∀ {bytes : Bytes} {c c' : ClassFile} {tally : Tally}, ClassFile.ofBytes bytes = .ok c →
      c.rename e.newNames = .ok tally c' →
      ∃ again, c'.rename e.newNames = .ok again c' ∧ again.renamed = 0) ∧
    ∀ {bytes renamed : Bytes}, ClassFile.renameBytes e.newNames bytes = .ok renamed →
      ClassFile.renameBytes e.newNames renamed = .ok renamed := by
  have hmap := stable_newNames h
  constructor
  · intro bytes c c' tally hc hrename
    exact ClassFile.rename_again hmap (ClassFile.registered_of_ofBytes hc) hrename
  · intro bytes renamed hrename
    exact ClassFile.renameBytes_again hmap hrename

def accessorSample : Bytes :=
  ClassFile.magic ++ [0, 0, 0, 52] ++ [0, 3, 1, 0, 6] ++ Bytes.ascii "l/R$id" ++ [7, 0, 1] ++
    [0, 0x21, 0, 2, 0, 0] ++ [0, 0] ++ [0, 0] ++ [0, 0] ++ [0, 0]

/-- The first time the class gets another name, the second time it keeps it. -/
theorem rename_accessorSample : ∃ e c tally c' again renamed, new ["l"] "a" = .ok e ∧
    ClassFile.ofBytes accessorSample = .ok c ∧
    c.rename e.newNames = .ok tally c' ∧ tally.renamed = 1 ∧
    c'.rename e.newNames = .ok again c' ∧ again.renamed = 0 ∧
    ClassFile.renameBytes e.newNames accessorSample = .ok renamed ∧ renamed ≠ accessorSample ∧
    ClassFile.renameBytes e.newNames renamed = .ok renamed := by
  have hrun : ((new ["l"] "a").toOption.bind fun e =>
      (ClassFile.ofBytes accessorSample).toOption.bind fun c =>
        ((ClassFile.rename e.newNames).run' c).bind fun tally =>
          (ClassFile.renameBytes e.newNames accessorSample).toOption.map fun renamed =>
            (tally.renamed, decide (renamed = accessorSample))) = some (1, false) := by
    decide +kernel
  cases he : new ["l"] "a" with
  | error fault =>
    rw [he] at hrun
    cases hrun
  | ok e =>
    obtain ⟨hclass, hbytes⟩ := rename_twice he
    simp only [he, Except.toOption, Option.bind_some] at hrun
    delta EStateM.run' EStateM.run at hrun
    cases hc : ClassFile.ofBytes accessorSample with
    | error fault =>
      rw [hc] at hrun
      cases hrun
    | ok c =>
      simp only [hc, Option.bind_some] at hrun
      cases hrename : c.rename e.newNames with
      | error fault c' =>
        simp only [hrename] at hrun
        cases hrun
      | ok tally c' =>
        simp only [hrename, Option.bind_some] at hrun
        cases hrenamed : ClassFile.renameBytes e.newNames accessorSample with
        | error fault =>
          simp only [hrenamed] at hrun
          cases hrun
        | ok renamed =>
          simp only [hrenamed, Option.map_some, Option.some.injEq, Prod.mk.injEq,
            decide_eq_false_iff_not] at hrun
          obtain ⟨hone, hother⟩ := hrun
          obtain ⟨again, hagain, hzero⟩ := hclass hc hrename
          exact ⟨e, c, tally, c', again, renamed, rfl, rfl, hrename, hone, hagain, hzero, hrenamed,
            hother, hbytes hrenamed⟩

end Embedding

end Retarget
