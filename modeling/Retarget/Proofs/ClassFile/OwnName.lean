import Retarget.ClassPath
import Retarget.Proofs.ClassFile.RenameTwice

/-!
The name that a class file gives itself, before and after a renaming. The entry
for it in the pool is a site like any other, so the class declares the exchanged
text afterwards. An accessor of a library then declares that of the target, and
is no longer the class that its file was named for.
-/

set_option autoImplicit false

namespace Retarget

namespace ClassFile

variable {bytes written text text' : Bytes} {c c' : ClassFile} {newNames : Renaming}
  {tally : Tally} {name : String}

def Named (c : ClassFile) (text : Bytes) : Prop :=
  ∃ index, c.pool.entries[c.thisClass.toNat]? = some (.classRef index) ∧
    c.pool.text index = .ok text

private theorem Named.unique (h : c.Named text) (h' : c.Named text') : text = text' := by
  obtain ⟨index, hentry, htext⟩ := h
  obtain ⟨index', hentry', htext'⟩ := h'
  cases hentry.symm.trans hentry'
  exact Except.ok.inj (htext.symm.trans htext')

private theorem string_eq_ok_iff {p : Pool} {index : UInt16} : p.string index = .ok name ↔
    ∃ text, p.text index = .ok text ∧ ModifiedUtf8.decode text = .ok name := by
  show Except.bind (p.text index) _ = _ ↔ _
  cases p.text index with
  | error fault => simp [Except.bind]
  | ok text =>
    cases hdecode : ModifiedUtf8.decode text with
    | error defect => simp [Except.bind, hdecode, throw, throwThe, MonadExceptOf.throw]
    | ok decoded => simp [Except.bind, hdecode, pure, Except.pure]

theorem name_eq_ok_iff : c.name = .ok name ↔
    ∃ text, c.Named text ∧ ModifiedUtf8.decode text = .ok name := by
  have hentry : c.name = .ok name ↔ ∃ index,
      c.pool.entries[c.thisClass.toNat]? = some (.classRef index) ∧ c.pool.string index = .ok name := by
    show Except.bind (c.pool.get c.thisClass) _ = _ ↔ _
    simp only [Pool.get]
    cases c.pool.entries[c.thisClass.toNat]? with
    | none => simp [Except.bind]
    | some e => cases e <;> simp [Except.bind, throw, throwThe, MonadExceptOf.throw]
  rw [hentry]
  constructor
  · rintro ⟨index, hindex, hstring⟩
    obtain ⟨text, htext, hdecode⟩ := string_eq_ok_iff.mp hstring
    exact ⟨text, ⟨index, hindex, htext⟩, hdecode⟩
  · rintro ⟨text, ⟨index, hindex, htext⟩, hdecode⟩
    exact ⟨index, hindex, string_eq_ok_iff.mpr ⟨text, htext, hdecode⟩⟩

/-- The text reads as the name, with slashes for dots. -/
def Spells (text : Bytes) (name : String) : Prop :=
  ∃ declared, ModifiedUtf8.decode text = .ok declared ∧ Text.exchange '/' '.' declared = name

theorem checkName_ok_iff : ClassPath.checkName name c = .ok () ↔
    ∃ text, c.Named text ∧ Spells text name := by
  have hdeclared : ClassPath.checkName name c = .ok () ↔
      ∃ declared, c.name = .ok declared ∧ Text.exchange '/' '.' declared = name := by
    rw [ClassPath.checkName, binaryName]
    cases c.name with
    | error fault => simp
    | ok declared =>
      simp only [Except.ok.injEq, exists_eq_left']
      split_ifs with heq
      · simp [heq]
      · simp [heq]
  rw [hdeclared]
  constructor
  · rintro ⟨declared, hname, heq⟩
    obtain ⟨text, hnamed, hdecode⟩ := name_eq_ok_iff.mp hname
    exact ⟨text, hnamed, declared, hdecode, heq⟩
  · rintro ⟨text, hnamed, declared, hdecode, heq⟩
    exact ⟨declared, name_eq_ok_iff.mpr ⟨text, hnamed, hdecode⟩, heq⟩

def exchanged (newNames : Renaming) (text : Bytes) : Bytes :=
  match Symbol.substitute .className newNames.getText? text with
  | .ok (some new) => new
  | _ => text

private theorem exchanged_of_isEmpty (h : newNames.isEmpty = true) (text : Bytes) :
    exchanged newNames text = text := by
  have hnone : ∀ text, newNames.getText? text = none := by
    intro text
    rw [Renaming.getText?]
    split
    · rfl
    · rw [Renaming.get?, Std.ExtTreeMap.isEmpty_iff.mp h, Std.ExtTreeMap.getElem?_empty]
  have hany : ∀ pieces : List Piece, pieces.any (Piece.changes newNames.getText?) = false := by
    intro pieces
    rw [List.any_eq_false]
    intro piece _
    cases piece with
    | byte b => exact Bool.false_ne_true
    | name text => simp [Piece.changes, hnone]
  rw [exchanged, Symbol.substitute, Scan.substitute, hany]
  split
  · next new heq =>
    split at heq
    · cases heq
    · cases heq
  · rfl

def ownSite (c : ClassFile) : Site := ⟨.constant c.thisClass, .className⟩

section Own

variable {index index' i : UInt16}

theorem ownSite_mem_sites {sites : List Site} {warnings : Nat}
    (h : c.pool.entries[c.thisClass.toNat]? = some (.classRef index))
    (hsites : c.sites = .ok (sites, warnings)) : c.ownSite ∈ sites := by
  rw [sites_eq hsites, poolSites_eq]
  apply List.mem_append_left
  apply List.mem_append_left
  rw [List.mem_filterMap]
  refine ⟨(.classRef index, c.thisClass.toNat), ?_, ?_⟩
  · rw [List.mem_zipIdx_iff_getElem?, Array.getElem?_toList]
    exact h
  · simp [Constant.symbol?, ownSite]

theorem indexAt_ownSite_iff (h : c.pool.entries[c.thisClass.toNat]? = some (.classRef index)) :
    c.indexAt c.ownSite.location = .ok i ↔ i = index := by
  rw [ownSite, indexAt_constant_eq_ok_iff, h]
  simp [Constant.symbol?, eq_comm]

theorem index_of_leads_none (hthis : c'.ownSite = c.ownSite)
    (hentry : c.pool.entries[c.thisClass.toNat]? = some (.classRef index))
    (hentry' : c'.pool.entries[c'.thisClass.toNat]? = some (.classRef index'))
    (h : Leads c c' c.ownSite none) : index' = index := by
  obtain ⟨i, hi, hi'⟩ := h
  rw [← hthis, indexAt_ownSite_iff hentry'] at hi'
  rw [indexAt_ownSite_iff hentry] at hi
  exact hi'.symm.trans hi

theorem ownText_of_leads (hthis : c'.ownSite = c.ownSite)
    (hentry : c.pool.entries[c.thisClass.toNat]? = some (.classRef index))
    (hentry' : c'.pool.entries[c'.thisClass.toNat]? = some (.classRef index'))
    (htext : c'.pool.text index = .ok text)
    (h : Leads c c' c.ownSite (newText? newNames.getText? c'.pool c c.ownSite)) :
    c'.pool.text index' = .ok (exchanged newNames text) := by
  have hkept : Leads c c' c.ownSite none → c'.pool.text index' = .ok text := by
    intro hnone
    rw [index_of_leads_none hthis hentry hentry' hnone]
    exact htext
  rw [newText?_eq ((indexAt_ownSite_iff hentry).mpr rfl) htext] at h
  simp only [ownSite] at h hkept
  rw [exchanged]
  cases hsub : Symbol.substitute .className newNames.getText? text with
  | error defect =>
    rw [hsub] at h
    exact hkept h
  | ok new =>
    rw [hsub] at h
    cases new with
    | none => exact hkept h
    | some new =>
      obtain ⟨i, hi, hnew⟩ := h
      have hown : c'.indexAt c'.ownSite.location = .ok i := hthis ▸ hi
      rw [indexAt_ownSite_iff hentry'] at hown
      rw [← hown]
      exact hnew

end Own

private theorem Named.exchanged (h : c.Named text) (hc : ofBytes bytes = .ok c)
    (hrename : c.rename newNames = .ok tally c') : c'.Named (exchanged newNames text) := by
  cases hnames : newNames.isEmpty with
  | true =>
    rw [rename, hnames, if_pos rfl] at hrename
    cases hrename
    rw [exchanged_of_isEmpty hnames]
    exact h
  | false =>
    have hregistered := registered_of_ofBytes hc
    have hframe : c.Framed c' := renamed_eq hrename ▸ framed_renamed newNames hregistered
    obtain ⟨sites, warnings, hsites, hrun⟩ := eachAlone_of_rename hregistered hnames hrename
    have hcount : c.pool.count ≤ UInt16.size := Nat.le_trans hregistered.count_le (by decide)
    obtain ⟨hleads, -⟩ := exchanged_of_eachAlone hregistered (apart_sites hcount hsites)
      (fun _ _ _ => Iff.rfl) hrun
    obtain ⟨index, hentry, htext⟩ := h
    -- the entry is one for a class as before, wherever it leads now
    obtain ⟨index', hentry'⟩ := hframe.pool.kept hentry
    rw [Constant.withSymbol, ← hframe.thisClass] at hentry'
    have hthis : c'.ownSite = c.ownSite := by rw [ownSite, ownSite, hframe.thisClass]
    exact ⟨index', hentry', ownText_of_leads hthis hentry hentry' (hframe.pool.text htext)
      (hleads _ (ownSite_mem_sites hentry hsites))⟩

theorem isEmpty_of_ofBytes (h : ofBytes bytes = .ok c) : bytes.isEmpty = false := by
  rw [ofBytes] at h
  split_ifs at h with hempty
  exact Bool.eq_false_iff.mpr hempty

/-- Bytes that hold a class that declares the name. -/
def Declares (bytes : Bytes) (name : String) : Prop :=
  ∃ c, ofBytes bytes = .ok c ∧ ClassPath.checkName name c = .ok ()

/-- What a class is written as after a renaming declares a name exactly if the exchanged text of its
own name reads as that. -/
theorem declares_iff (h : c.Named text) (hc : ofBytes bytes = .ok c)
    (hrename : c.rename newNames = .ok tally c') (hwritten : c'.toBytes = .ok written) :
    Declares written name ↔ Spells (exchanged newNames text) name := by
  have hnamed := h.exchanged hc hrename
  have hread := ofBytes_of_rename hc hrename hwritten
  constructor
  · rintro ⟨found, hfound, hcheck⟩
    cases hread.symm.trans hfound
    obtain ⟨own, hown, hspells⟩ := checkName_ok_iff.mp hcheck
    rw [hnamed.unique hown]
    exact hspells
  · intro hspells
    exact ⟨c', hread, checkName_ok_iff.mpr ⟨_, hnamed, hspells⟩⟩

end ClassFile

namespace Embedding

open ClassFile

variable {libraries : List String} {target : String} {e : Embedding} {old : String}
  {kind : ResourceKind} {library : String}

private theorem dotted_accessor_injective {package other : String}
    (hpackage : PackageName.Proper package)
    (hother : PackageName.Proper other)
    (h : Text.exchange '/' '.' (kind.accessor package) = Text.exchange '/' '.' (kind.accessor other)) :
    package = other := by
  have hdotted : ∀ {p : String}, PackageName.Proper p →
      (Text.exchange '/' '.' (kind.accessor p)).toList =
        p.toList ++ ('/' :: ("R$".toList ++ kind.name.toList)).map fun c => if c = '/' then '.' else c := by
    intro p hp
    rw [Text.exchange, String.toList_ofList, ResourceKind.toList_accessor hp, List.map_append,
      ResourceKind.exchange_back hp]
  have hlists := congrArg String.toList h
  rw [hdotted hpackage, hdotted hother] at hlists
  exact String.toList_inj.mp (List.append_cancel_right hlists)

theorem not_spells_exchanged (he : new libraries target = .ok e) {text : Bytes} {name : String}
    (hnew : (e.newNames.getText? text).isSome = true) (hspells : Spells text name) :
    ¬ Spells (exchanged e.newNames text) name := by
  obtain ⟨htarget, hlibraries⟩ := proper_of_new he
  obtain ⟨replacement, hreplacement⟩ := Option.isSome_iff_exists.mp hnew
  obtain ⟨library, hlibrary, hne, kind, htext, rfl⟩ := of_getText? hreplacement
  have hproper := hlibraries library hlibrary
  -- no accessor is the descriptor of an array, so the whole text is exchanged
  have hhead : text.head? ≠ some '['.toUInt8 := by
    intro hbracket
    have hmem : '['.toUInt8 ∈ text := List.mem_of_mem_head? hbracket
    rw [htext] at hmem
    exact (ResourceKind.plain_accessor hproper kind).unmarked _ hmem (by decide)
  have hexchanged : exchanged e.newNames text = ModifiedUtf8.encode (kind.accessor e.target) := by
    simp [exchanged, Symbol.substitute, Symbol.scan, hhead, Scan.substitute, Piece.changes,
      Piece.exchange, hreplacement]
  rintro ⟨declared, hdecode, hname⟩
  rw [hexchanged, ModifiedUtf8.decode_encode] at hdecode
  obtain ⟨own, howndecode, hownname⟩ := hspells
  rw [htext, ModifiedUtf8.decode_encode] at howndecode
  cases hdecode
  cases howndecode
  exact hne (dotted_accessor_injective hproper htarget (hownname.trans hname.symm))

end Embedding

end Retarget
