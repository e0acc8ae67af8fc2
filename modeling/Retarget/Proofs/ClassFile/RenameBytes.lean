import Retarget.Proofs.ClassFile.RenameTwice
import Retarget.Proofs.ClassFile.Written

/-!
Renaming bytes against renaming the class they hold. A renaming only interns
texts and leads places to them, so the class it leaves fits its counts if the
one it started with does, and one that was read does. So a class that was
renamed can be written, and what is written is what renaming the bytes gives:
also where that hands the bytes back unread, since a renaming in which no site
changes leaves the class as it was.
-/

set_option autoImplicit false

namespace Retarget

namespace Pool

variable {p : Pool} {c : Constant}

private theorem textsFit_iff : p.TextsFit ↔
    ∀ (i : Nat) (text : Bytes), p.entries[i]? = some (.utf8 text) → text.length < 0x10000 := by
  constructor
  · intro h i text hi
    exact h text (Array.mem_of_getElem? hi)
  · intro h text htext
    obtain ⟨i, hi⟩ := Array.getElem?_of_mem htext
    exact h i text hi

/-- What interning a text and leading a place to it keep of a pool. -/
structure KeptByRenaming (P : Pool → Prop) : Prop where
  intern : ∀ {p : Pool} (text : Bytes), P p → P (after (Pool.intern text) p)
  relink : ∀ {p : Pool} (index text : UInt16), P p → P (p.relink index text)

private theorem textsFit_keptByRenaming : KeptByRenaming TextsFit where
  intern {p} text hp := by
    rcases intern_cases text p with ⟨index, -, hrun⟩ | ⟨hnew, -, hrun⟩ | ⟨fault, -, hrun⟩
    · rw [after, hrun]
      exact hp
    · have hlength : text.length < 0x10000 := by
        by_contra hlong
        rw [Pool.intern, hnew, if_neg hlong] at hrun
        cases hrun
      rw [after, hrun, textsFit_iff]
      intro i other hi
      rcases of_getElem?_append hi with hold | ⟨-, hadded⟩ | ⟨-, hadded⟩
      · exact textsFit_iff.mp hp i other hold
      · cases hadded
        exact hlength
      · cases hadded
    · rw [after, hrun]
      exact hp
  relink {p} index text hp := by
    rw [textsFit_iff]
    intro i other hi
    rw [getElem?_relink] at hi
    split_ifs at hi
    · obtain ⟨e, he, hother⟩ := Option.map_eq_some_iff.mp hi
      cases e <;> cases hother
      exact textsFit_iff.mp hp i other he
    · exact textsFit_iff.mp hp i other hi

end Pool

namespace ClassFile

variable {α : Type} {bytes data : Bytes} {c c' : ClassFile} {P : Pool → Prop}
  {map : Bytes → Option Bytes} {newNames : Renaming} {tally tally' : Tally}

def poolAfter (step : Edit α) (c : ClassFile) : Pool :=
  match step c with
  | .ok _ c' => c'.pool
  | .error _ c' => c'.pool

private theorem poolAfter_target (map : Bytes → Option Bytes) (hP : Pool.KeptByRenaming P)
    (kind : SymbolForm) (index : UInt16)
    (hc : P c.pool) : P (poolAfter (target map kind index) c) := by
  rw [poolAfter, target]
  cases c.pool.text index with
  | error fault => exact hc
  | ok text =>
    simp only
    cases Symbol.substitute kind map text with
    | error defect => exact hc
    | ok exchanged =>
      cases exchanged with
      | none => exact hc
      | some new =>
        have hintern := hP.intern new hc
        rw [Pool.after] at hintern
        simp only [onPool_eq]
        cases hrun : Pool.intern new c.pool with
        | ok i p =>
          rw [hrun] at hintern
          exact hintern
        | error fault p =>
          rw [hrun] at hintern
          exact hintern

private theorem pool_place (hP : Pool.KeptByRenaming P) (location : Location) (index : UInt16)
    (hc : P c.pool) : P (c.place location index).pool := by
  cases location with
  | constant i => exact hP.relink i index hc
  | slot owner => cases owner <;> exact hc
  | _ => exact hc

private theorem poolAfter_leadTo (hP : Pool.KeptByRenaming P) (location : Location) (memo : Memo)
    (known : Option UInt16) (hc : P c.pool) : P (poolAfter (leadTo location memo known) c) := by
  cases known with
  | none => exact hc
  | some index =>
    simp only [poolAfter, leadTo, setIndexAt]
    cases c.pool.text index with
    | error fault => exact hc
    | ok text =>
      cases c.indexAt location with
      | error fault => exact hc
      | ok old => exact pool_place hP location index hc

private theorem poolAfter_renameSite (map : Bytes → Option Bytes) (hP : Pool.KeptByRenaming P)
    (site : Site) (memo : Memo) (hc : P c.pool) : P (poolAfter (renameSite map site memo) c) := by
  rw [poolAfter, renameSite]
  cases c.indexAt site.location with
  | error fault => exact hc
  | ok index =>
    simp only
    cases memo[Reading.mk site.kind index]? with
    | some known => exact poolAfter_leadTo hP site.location memo known hc
    | none =>
      have htarget := poolAfter_target map hP site.kind index hc
      rw [poolAfter] at htarget
      simp only
      cases hrun : target map site.kind index c with
      | error fault c' =>
        rw [hrun] at htarget
        exact htarget
      | ok outcome c' =>
        rw [hrun] at htarget
        cases outcome with
        | error defect =>
          simp only
          cases site.location.isSlot <;> exact htarget
        | ok found => exact poolAfter_leadTo hP site.location _ found htarget

private theorem poolAfter_renameSites (map : Bytes → Option Bytes) (hP : Pool.KeptByRenaming P)
    (sites : List Site) (tally : Tally) (memo : Memo) (hc : P c.pool) :
    P (poolAfter (renameSites map sites tally memo) c) := by
  induction sites generalizing c tally memo with
  | nil => exact hc
  | cons site sites ih =>
    have hsite := poolAfter_renameSite map hP site memo hc
    rw [poolAfter] at hsite
    rw [poolAfter, renameSites]
    cases hrun : renameSite map site memo c with
    | error fault c' =>
      rw [hrun] at hsite
      exact hsite
    | ok r c' =>
      rw [hrun] at hsite
      exact ih (tally.add r.1) r.2 hsite

private theorem pool_renamed (hP : Pool.KeptByRenaming P) (newNames : Renaming) (hc : P c.pool) :
    P (c.renamed newNames).pool := by
  rw [renamed, rename]
  split_ifs
  · exact hc
  · cases c.sites with
    | error fault => exact hc
    | ok found =>
      have hsites := poolAfter_renameSites newNames.getText? hP found.1 ⟨0, found.2⟩ ∅ hc
      rw [poolAfter] at hsites
      simp only
      cases hrun : renameSites newNames.getText? found.1 ⟨0, found.2⟩ ∅ c with
      | ok t c' =>
        rw [hrun] at hsites
        exact hsites
      | error fault c' =>
        rw [hrun] at hsites
        exact hsites

private theorem serialize_of_ofBytes (h : ofBytes bytes = .ok c) :
    c.layout.serialize = .ok bytes := by
  obtain ⟨r, after, htake, htables, hrest⟩ := readTables_of_ofBytes h
  obtain ⟨bytes', hbytes, hserialize, -⟩ := readTables_fills (Reader.take_fills htake).2 htables
  rw [hrest, List.append_nil] at hbytes
  rw [hserialize, ← hbytes, Reader.ofBytes]

theorem fits_of_ofBytes (h : ofBytes bytes = .ok c) : c.Fits :=
  clean_iff.mp (Layout.clean_iff.mpr ⟨bytes, serialize_of_ofBytes h⟩)

private theorem forall_of_forall₂ {α : Type} {R : α → α → Prop} {as bs : List α} (Q : α → Prop)
    (h : List.Forall₂ R as bs) (hstep : ∀ {a b}, R a b → Q a → Q b) (has : ∀ a ∈ as, Q a) :
    ∀ b ∈ bs, Q b := by
  induction h with
  | nil => simp
  | cons hab _ ih =>
    obtain ⟨ha, has⟩ := List.forall_mem_cons.mp has
    exact List.forall_mem_cons.mpr ⟨hstep hab ha, ih has⟩

namespace Framed

variable {p : Pool} {as as' : Array Attribute} {ms ms' : Array Member}

private theorem attributes_fit (h : List.Forall₂ (Attribute.Framed p) as.toList as'.toList)
    (has : Attribute.TableFits as) : Attribute.TableFits as' where
  count := by
    have hsize : as.size = as'.size := h.length_eq
    exact hsize ▸ has.count
  contents := by
    have hall := forall_of_forall₂ (fun a => a.content.size < 0x100000000) h
      (fun hframed hsize => hframed.size.symm ▸ hsize)
      (fun a ha => has.contents a (Array.mem_toList_iff.mp ha))
    exact fun a ha => hall a (Array.mem_toList_iff.mpr ha)

private theorem members_fit (h : List.Forall₂ (Member.Framed p) ms.toList ms'.toList)
    (hms : Member.TableFits ms) : Member.TableFits ms' where
  count := by
    have hsize : ms.size = ms'.size := h.length_eq
    exact hsize ▸ hms.count
  attributes := by
    have hall := forall_of_forall₂ (fun m => Attribute.TableFits m.attributes) h
      (fun hframed hfits => attributes_fit hframed.attributes hfits)
      (fun m hm => hms.attributes m (Array.mem_toList_iff.mp hm))
    exact fun m hm => hall m (Array.mem_toList_iff.mpr hm)

end Framed

private theorem fits_renamed (newNames : Renaming) (hc : c.pool.Registered) (hfits : c.Fits) :
    (c.renamed newNames).Fits := by
  have hframe := framed_renamed newNames hc
  have hinterfaces : (c.renamed newNames).interfaces = c.interfaces := hframe.interfaces
  exact {
    texts := pool_renamed Pool.textsFit_keptByRenaming newNames hfits.texts
    interfaces := hinterfaces ▸ hfits.interfaces
    fields := Framed.members_fit hframe.fields hfits.fields
    methods := Framed.members_fit hframe.methods hfits.methods
    attributes := Framed.attributes_fit hframe.attributes hfits.attributes }

/-- What a renaming leaves of a class that was read, also one that fails, can be written, and is
read again as what was left. -/
theorem written_of_renamed (hc : ofBytes bytes = .ok c) (newNames : Renaming) :
    ∃ written, (c.renamed newNames).toBytes = .ok written ∧
      ofBytes written = .ok (c.renamed newNames) := by
  have hregistered := registered_of_ofBytes hc
  have hbuilt := built_renamed newNames hregistered (built_of_ofBytes hc)
  have hcount := (registered_renamed newNames hregistered).count_le
  have hclean := clean_iff.mpr (fits_renamed newNames hregistered (fits_of_ofBytes hc))
  obtain ⟨written, hserialize⟩ := Layout.clean_iff.mp hclean
  have hwritten := toBytes_eq_ok_iff.mpr hserialize
  exact ⟨written, hwritten, ofBytes_of_toBytes hbuilt (Nat.lt_succ_of_le hcount) hwritten⟩

private theorem toBytes_of_rename (hc : ofBytes data = .ok c)
    (h : c.rename newNames = .ok tally c') :
    ∃ bytes, c'.toBytes = .ok bytes := by
  obtain ⟨written, hwritten, -⟩ := written_of_renamed hc newNames
  exact ⟨written, renamed_eq h ▸ hwritten⟩

private theorem Outcome.eq_of_zero {site : Site} (h : Outcome map site c tally c')
    (hzero : tally.renamed = 0) : c' = c := by
  cases h with
  | stays => rfl
  | left => rfl
  | leads => cases hzero

private theorem renamed_le_of_eachAlone {sites : List Site} (hc : c.pool.Registered)
    (h : eachAlone map sites tally c = .ok tally' c') : tally.renamed ≤ tally'.renamed := by
  induction sites generalizing c tally with
  | nil =>
    cases h
    exact Nat.le_refl _
  | cons site sites ih =>
    rw [eachAlone] at h
    rcases alone_cases map site hc with ⟨t, c₁, halone, houtcome⟩ | ⟨fault, halone⟩
    · simp only [halone] at h
      exact Nat.le_trans (Nat.le_add_right _ _) (ih (houtcome.registered hc) h)
    · simp only [halone] at h
      cases h

private theorem eq_of_eachAlone {sites : List Site} (hc : c.pool.Registered)
    (h : eachAlone map sites tally c = .ok tally' c') (hcount : tally'.renamed = tally.renamed) :
    c' = c := by
  induction sites generalizing c tally with
  | nil =>
    cases h
    rfl
  | cons site sites ih =>
    rw [eachAlone] at h
    rcases alone_cases map site hc with ⟨t, c₁, halone, houtcome⟩ | ⟨fault, halone⟩
    · simp only [halone] at h
      have hlater := renamed_le_of_eachAlone (houtcome.registered hc) h
      have hnone : t.renamed = 0 := by
        simp only [Tally.add] at hlater
        omega
      have hsame : c₁ = c := houtcome.eq_of_zero hnone
      subst hsame
      refine ih hc h ?_
      rw [Tally.add, hnone, Nat.add_zero]
      exact hcount
    · simp only [halone] at h
      cases h

private theorem eq_of_rename (hc : c.pool.Registered) (h : c.rename newNames = .ok tally c')
    (hzero : tally.renamed = 0) : c' = c := by
  cases hnames : newNames.isEmpty with
  | true =>
    rw [rename, hnames] at h
    cases h
    rfl
  | false =>
    obtain ⟨sites, warnings, -, hrun⟩ := eachAlone_of_rename hc hnames h
    exact eq_of_eachAlone hc hrun hzero

theorem renameBytes_eq_error_iff {fault : Fault} : renameBytes newNames data = .error fault ↔
    ofBytes data = .error fault ∨
      ∃ c c', ofBytes data = .ok c ∧ c.rename newNames = .error fault c' := by
  rw [renameBytes]
  cases hc : ofBytes data with
  | error fault' => simp
  | ok c =>
    simp only [reduceCtorEq, false_or, Except.ok.injEq, exists_and_left, exists_eq_left']
    cases hrename : c.rename newNames with
    | error fault' c' => simp
    | ok tally c' =>
      obtain ⟨bytes, hbytes⟩ := toBytes_of_rename hc hrename
      simp only [hbytes]
      split_ifs <;> simp

/-- Renaming bytes gives what the renamed class is written as. Where no site changes these are the
bytes it was given. -/
theorem renameBytes_of_rename (hc : ofBytes data = .ok c) (h : c.rename newNames = .ok tally c') :
    ∃ bytes, c'.toBytes = .ok bytes ∧ renameBytes newNames data = .ok bytes ∧
      (tally.renamed = 0 → bytes = data) ∧ ofBytes bytes = .ok c' := by
  obtain ⟨bytes, hbytes⟩ := toBytes_of_rename hc h
  have hread := ofBytes_of_rename hc h hbytes
  have hsame : tally.renamed = 0 → bytes = data := by
    intro hzero
    have hclass := eq_of_rename (registered_of_ofBytes hc) h hzero
    subst hclass
    have hwritten := toBytes_eq_ok_iff.mpr (serialize_of_ofBytes hc)
    cases hbytes.symm.trans hwritten
    rfl
  refine ⟨bytes, hbytes, ?_, hsame, hread⟩
  rw [renameBytes, hc]
  simp only [h]
  split_ifs with hzero
  · rw [hsame hzero]
  · exact hbytes

end ClassFile

end Retarget
