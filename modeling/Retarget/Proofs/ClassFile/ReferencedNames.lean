import Mathlib.Data.List.Sort
import Mathlib.Data.String.Basic
import Retarget.ClassFile.References
import Retarget.Proofs.ClassFile.Renamable
import Retarget.Proofs.ClassFile.Warnings

/-!
Which classes a class file is said to refer to. Names are collected while a text
is read, and a defect comes to light only behind them. So the listing has the
names of all texts, those in front of a defect included. It has those of the
texts that follow their grammar alone exactly if every other text names, up to
its defect, only classes that these name as well.
-/

set_option autoImplicit false

namespace Retarget

namespace Symbol

def record (name : Bytes) : StateM (List Bytes) (Option Bytes) := fun asked =>
  (none, asked ++ [name])

/-- The names that are asked for while a text is read as a symbol. If it is none, these are the
ones in front of the defect. -/
def asked (kind : SymbolForm) (text : Bytes) : List Bytes :=
  ((substituteM kind record text).run []).2

private theorem run_mapM_record (names before : List Bytes) :
    (names.mapM record).run before = (names.map fun _ => none, before ++ names) := by
  induction names generalizing before with
  | nil => exact congrArg (Prod.mk []) (List.append_nil before).symm
  | cons name names ih =>
    have hrest := ih (before ++ [name])
    rw [List.append_assoc] at hrest
    rw [List.mapM_cons]
    exact congrArg (fun later => (none :: later.1, later.2)) hrest

private theorem asked_eq (kind : SymbolForm) (text : Bytes) :
    asked kind text = (scan kind text).names := by
  rw [asked, substituteM_eq, StateT.run_map, run_mapM_record]
  rfl

end Symbol

namespace ClassFile

variable {c : ClassFile} {site : Site} {sites : List Site} {warnings : Nat} {name text : Bytes}
  {names part : Bytes → Prop} {strings strings' : List String} {fault : Fault}

def namesRead (c : ClassFile) (site : Site) : List Bytes :=
  match c.indexAt site.location with
  | .error _ => []
  | .ok index =>
    match c.pool.text index with
    | .error _ => []
    | .ok text => Symbol.asked site.kind text

private theorem namesRead_eq {scan : Scan} (h : c.scanSite site = .ok scan) :
    c.namesRead site = scan.names := by
  obtain ⟨index, text, hindex, htext, rfl⟩ := scanSite_eq_ok_iff.mp h
  rw [namesRead, hindex]
  simp only [htext, Symbol.asked_eq]

def Grammatical (c : ClassFile) (site : Site) : Prop :=
  ∃ scan, c.scanSite site = .ok scan ∧ scan.defect = none

private theorem Proper.namesAt_eq (h : c.Proper site) :
    c.namesAt site = .ok (c.namesRead site) := by
  obtain ⟨scan, hscan, hproper⟩ := h
  rw [namesRead_eq hscan]
  cases hdefect : scan.defect with
  | none => simp [namesAt, hscan, hdefect, bind, Except.bind, pure, Except.pure]
  | some defect =>
    have hslot : site.location.isSlot = true := by
      by_contra hfalse
      cases (hproper (Bool.eq_false_iff.mpr hfalse)).symm.trans hdefect
    simp [namesAt, hscan, hdefect, hslot, bind, Except.bind, pure, Except.pure]

private theorem Proper.grammatical_iff (h : c.Proper site) :
    c.Grammatical site ↔ c.rejected site = false := by
  obtain ⟨scan, hscan, hproper⟩ := h
  rw [rejected_eq hscan, Grammatical, hscan]
  cases hslot : site.location.isSlot with
  | true => simp
  | false => simp [hproper hslot]

/-- The strings are those that the names decode to, each once and in order. -/
structure Lists (names : Bytes → Prop) (strings : List String) : Prop where
  ordered : strings.Pairwise (· < ·)
  decoded : ∀ s, s ∈ strings ↔ ∃ name, names name ∧ ModifiedUtf8.decode name = .ok s

private theorem Lists.unique (h : Lists names strings) (h' : Lists names strings') :
    strings = strings' :=
  h.ordered.eq_of_mem_iff h'.ordered fun s => (h.decoded s).trans (h'.decoded s).symm

private theorem Lists.of_subset_iff (hsubset : ∀ name, part name → names name)
    (h : Lists names strings) : Lists part strings ↔
      ∀ name s, names name → ModifiedUtf8.decode name = .ok s →
        ∃ own, part own ∧ ModifiedUtf8.decode own = .ok s := by
  constructor
  · intro hpart name s hname hdecode
    exact (hpart.decoded s).mp ((h.decoded s).mpr ⟨name, hname, hdecode⟩)
  · intro hcovered
    refine ⟨h.ordered, fun s => ⟨fun hs => ?_, ?_⟩⟩
    · obtain ⟨name, hname, hdecode⟩ := (h.decoded s).mp hs
      exact hcovered name s hname hdecode
    · rintro ⟨own, hown, hdecode⟩
      exact (h.decoded s).mpr ⟨own, hsubset own hown, hdecode⟩

def decoded (text : Bytes) : Except Fault String :=
  match ModifiedUtf8.decode text with
  | .ok s => .ok s
  | .error defect => .error (.malformed defect)

private theorem decoded_eq_ok_iff {s : String} :
    decoded text = .ok s ↔ ModifiedUtf8.decode text = .ok s := by
  rw [decoded]
  cases ModifiedUtf8.decode text <;> simp

private theorem decoded_eq_error_iff : decoded text = .error fault ↔
    ∃ defect, ModifiedUtf8.decode text = .error defect ∧ fault = .malformed defect := by
  rw [decoded]
  cases ModifiedUtf8.decode text <;> simp [eq_comm]

def ReadAt (c : ClassFile) (sites : List Site) (name : Bytes) : Prop :=
  ∃ site ∈ sites, name ∈ c.namesRead site

def texts (c : ClassFile) (sites : List Site) : List Bytes :=
  (Std.ExtTreeSet.ofList (sites.map c.namesRead).flatten).toList

private theorem mem_texts_iff : name ∈ c.texts sites ↔ c.ReadAt sites name := by
  rw [texts, Std.ExtTreeSet.mem_toList, Std.ExtTreeSet.mem_ofList, List.contains_iff_mem, ReadAt,
    List.mem_flatten]
  simp

private theorem references_eq (hsites : c.sites = .ok (sites, warnings))
    (h : ∀ site ∈ sites, c.Proper site) :
    c.references = ((c.texts sites).mapM decoded).map fun strings =>
      (Std.ExtTreeSet.ofList strings).toList := by
  have hnames := mapM_of_forall_ok fun site hsite => (h site hsite).namesAt_eq
  rw [references, hsites]
  show Except.bind (sites.mapM c.namesAt) _ = _
  rw [hnames]
  rfl

private theorem lists_of_decoded {texts : List Bytes} (h : texts.mapM decoded = .ok strings) :
    Lists (· ∈ texts) (Std.ExtTreeSet.ofList strings).toList where
  ordered := Std.ExtTreeSet.ordered_toList.imp compare_lt_iff_lt.mp
  decoded s := by
    rw [Std.ExtTreeSet.mem_toList, Std.ExtTreeSet.mem_ofList, List.contains_iff_mem,
      mem_iff_of_mapM h]
    simp only [decoded_eq_ok_iff]

/-- The name is read at one of the sites in a text that follows its grammar. -/
def ReferredAt (c : ClassFile) (sites : List Site) (name : Bytes) : Prop :=
  ∃ site ∈ sites, c.Grammatical site ∧ name ∈ c.namesRead site

private theorem ReferredAt.readAt (h : c.ReferredAt sites name) : c.ReadAt sites name := by
  obtain ⟨site, hsite, -, hname⟩ := h
  exact ⟨site, hsite, hname⟩

private theorem references_eq_ok_iff (hsites : c.sites = .ok (sites, warnings))
    (h : ∀ site ∈ sites, c.Proper site) :
    c.references = .ok strings ↔
      (∀ name, c.ReadAt sites name → ∃ s, ModifiedUtf8.decode name = .ok s) ∧
        Lists (c.ReadAt sites) strings := by
  have hlisted : ∀ found, (c.texts sites).mapM decoded = .ok found →
      Lists (c.ReadAt sites) (Std.ExtTreeSet.ofList found).toList := by
    intro found hfound
    have hlists := lists_of_decoded hfound
    simp only [mem_texts_iff] at hlists
    exact hlists
  rw [references_eq hsites h]
  cases hfound : (c.texts sites).mapM decoded with
  | ok found =>
    constructor
    · intro heq
      cases heq
      refine ⟨fun name hname => ?_, hlisted found hfound⟩
      obtain ⟨s, hs⟩ := ok_of_mem_mapM hfound (mem_texts_iff.mpr hname)
      exact ⟨s, decoded_eq_ok_iff.mp hs⟩
    · rintro ⟨-, hlists⟩
      exact congrArg Except.ok ((hlisted found hfound).unique hlists)
  | error fault =>
    refine iff_of_false nofun ?_
    rintro ⟨hdecodes, -⟩
    obtain ⟨name, hname, hfault⟩ := error_of_mapM hfound
    obtain ⟨defect, hdefect, -⟩ := decoded_eq_error_iff.mp hfault
    obtain ⟨s, hs⟩ := hdecodes name (mem_texts_iff.mp hname)
    cases hdefect.symm.trans hs

private theorem references_error (hsites : c.sites = .ok (sites, warnings))
    (h : ∀ site ∈ sites, c.Proper site) (hfault : c.references = .error fault) :
    ∃ name defect, c.ReadAt sites name ∧ ModifiedUtf8.decode name = .error defect ∧
      fault = .malformed defect := by
  rw [references_eq hsites h] at hfault
  cases hfound : (c.texts sites).mapM decoded with
  | ok found =>
    rw [hfound] at hfault
    cases hfault
  | error fault' =>
    rw [hfound] at hfault
    cases hfault
    obtain ⟨name, hname, hfault⟩ := error_of_mapM hfound
    obtain ⟨defect, hdefect, hcause⟩ := decoded_eq_error_iff.mp hfault
    exact ⟨name, defect, mem_texts_iff.mp hname, hdefect, hcause⟩

/-- What is read in front of defects leaves no trace: each such name is a string, and the same as a
name in a text that follows its grammar. -/
def Traceless (c : ClassFile) (sites : List Site) : Prop :=
  ∀ site ∈ sites, c.rejected site = true → ∀ name ∈ c.namesRead site,
    ∃ s, ModifiedUtf8.decode name = .ok s ∧
      ∃ own, c.ReferredAt sites own ∧ ModifiedUtf8.decode own = .ok s

private theorem readAt_iff (h : ∀ site ∈ sites, c.Proper site) : c.ReadAt sites name ↔
    c.ReferredAt sites name ∨ ∃ site ∈ sites, c.rejected site = true ∧ name ∈ c.namesRead site := by
  constructor
  · rintro ⟨site, hsite, hname⟩
    cases hrejected : c.rejected site with
    | false => exact .inl ⟨site, hsite, (h site hsite).grammatical_iff.mpr hrejected, hname⟩
    | true => exact .inr ⟨site, hsite, hrejected, hname⟩
  · rintro (hreferred | ⟨site, hsite, -, hname⟩)
    · exact hreferred.readAt
    · exact ⟨site, hsite, hname⟩

private theorem references_referred_iff (hsites : c.sites = .ok (sites, warnings))
    (h : ∀ site ∈ sites, c.Proper site) :
    (∃ strings, c.references = .ok strings ∧ Lists (c.ReferredAt sites) strings) ↔
      (∀ name, c.ReferredAt sites name → ∃ s, ModifiedUtf8.decode name = .ok s) ∧
        c.Traceless sites := by
  constructor
  · rintro ⟨strings, hlisting, hreferred⟩
    obtain ⟨hdecodes, hlists⟩ := (references_eq_ok_iff hsites h).mp hlisting
    have hcovered := (hlists.of_subset_iff fun _ => ReferredAt.readAt).mp hreferred
    refine ⟨fun name hname => hdecodes name hname.readAt, fun site hsite _ name hname => ?_⟩
    obtain ⟨s, hs⟩ := hdecodes name ⟨site, hsite, hname⟩
    exact ⟨s, hs, hcovered name s ⟨site, hsite, hname⟩ hs⟩
  · rintro ⟨hreferred, htraceless⟩
    have hdecodes : ∀ name, c.ReadAt sites name → ∃ s, ModifiedUtf8.decode name = .ok s ∧
        ∃ own, c.ReferredAt sites own ∧ ModifiedUtf8.decode own = .ok s := by
      intro name hname
      rcases (readAt_iff h).mp hname with hown | ⟨site, hsite, hrejected, hname⟩
      · obtain ⟨s, hs⟩ := hreferred name hown
        exact ⟨s, hs, name, hown, hs⟩
      · exact htraceless site hsite hrejected name hname
    cases hlisting : c.references with
    | error fault =>
      obtain ⟨name, defect, hname, hdefect, -⟩ := references_error hsites h hlisting
      obtain ⟨s, hs, -⟩ := hdecodes name hname
      cases hdefect.symm.trans hs
    | ok strings =>
      obtain ⟨-, hlists⟩ := (references_eq_ok_iff hsites h).mp hlisting
      refine ⟨strings, rfl, (hlists.of_subset_iff fun _ => ReferredAt.readAt).mpr ?_⟩
      intro name s hname hs
      obtain ⟨s', hs', hcovered⟩ := hdecodes name hname
      cases hs.symm.trans hs'
      exact hcovered

/-- Where all sites lead to texts, and those outside attributes to texts that follow their grammar,
the listing has exactly the names that are read, in order, and fails for one that is no string.
These are the names in the texts that follow their grammar if and only if what is read in front of
defects leaves no trace. -/
theorem references_listed (hsites : c.sites = .ok (sites, warnings))
    (h : ∀ site ∈ sites, c.Proper site) :
    (∀ strings, c.references = .ok strings ↔
      (∀ name, c.ReadAt sites name → ∃ s, ModifiedUtf8.decode name = .ok s) ∧
        Lists (c.ReadAt sites) strings) ∧
    (∀ fault, c.references = .error fault → ∃ name defect, c.ReadAt sites name ∧
      ModifiedUtf8.decode name = .error defect ∧ fault = .malformed defect) ∧
    ((∃ strings, c.references = .ok strings ∧ Lists (c.ReferredAt sites) strings) ↔
      (∀ name, c.ReferredAt sites name → ∃ s, ModifiedUtf8.decode name = .ok s) ∧
        c.Traceless sites) :=
  ⟨fun _ => references_eq_ok_iff hsites h, fun _ => references_error hsites h,
    references_referred_iff hsites h⟩

def tracedSample : Bytes :=
  magic ++ [0, 0, 0, 52] ++ [0, 5, 1, 0, 1, 77, 7, 0, 1] ++
    [1, 0, 9] ++ Bytes.ascii "Signature" ++ [1, 0, 4] ++ Bytes.ascii "LB;x" ++
    [0, 0x21, 0, 2, 0, 0] ++ [0, 0] ++ [0, 0] ++ [0, 0] ++ [0, 1, 0, 3, 0, 0, 0, 2, 0, 4]

/-- `B` is listed, though the only name in a text that follows its grammar is `M`. -/
theorem references_tracedSample : ∃ c sites warnings, ofBytes tracedSample = .ok c ∧
    c.sites = .ok (sites, warnings) ∧ (∀ site ∈ sites, c.Proper site) ∧
    c.references = .ok ["B", "M"] ∧ (∀ name, c.ReferredAt sites name → name = [77]) ∧
    ¬ ∃ strings, c.references = .ok strings ∧ Lists (c.ReferredAt sites) strings := by
  have hrun : (ofBytes tracedSample).toOption.bind (fun c => c.sites.toOption.map fun found =>
      (c.references.toOption,
        found.1.all fun site => (c.scanSite site).toOption.any fun scan =>
          site.location.isSlot || scan.defect.isNone,
        found.1.all fun site => c.rejected site || c.namesRead site = [[77]],
        found.1.any fun site => c.rejected site && [66] ∈ c.namesRead site)) =
      some (some ["B", "M"], true, true, true) := by
    decide +kernel
  obtain ⟨c, hc, hrun⟩ := Option.bind_eq_some_iff.mp hrun
  obtain ⟨⟨sites, warnings⟩, hsites, hrun⟩ := Option.map_eq_some_iff.mp hrun
  simp only [Prod.mk.injEq, toOption_eq_some_iff, List.all_eq_true, List.any_eq_true,
    Bool.or_eq_true, Bool.and_eq_true, decide_eq_true_eq] at hc hsites hrun
  obtain ⟨hreferences, hreads, hfirst, site, hsite, hrejected, hname⟩ := hrun
  have hproper : ∀ site ∈ sites, c.Proper site := by
    intro site hsite
    obtain ⟨scan, hscan, hdefect⟩ := (Option.any_eq_true _ _).mp (hreads site hsite)
    refine ⟨scan, toOption_eq_some_iff.mp hscan, fun hslot => ?_⟩
    rwa [hslot, Bool.false_or, Option.isNone_iff_eq_none] at hdefect
  have honly : ∀ name, c.ReferredAt sites name → name = [77] := by
    rintro name ⟨site, hsite, hgrammatical, hname⟩
    have hkept := (hproper site hsite).grammatical_iff.mp hgrammatical
    have hread := (hfirst site hsite).resolve_left (by rw [hkept]; exact Bool.false_ne_true)
    rw [hread] at hname
    exact List.mem_singleton.mp hname
  refine ⟨c, sites, warnings, hc, hsites, hproper, hreferences, honly, fun hlisted => ?_⟩
  obtain ⟨-, -, hexactly⟩ := references_listed hsites hproper
  obtain ⟨s, hs, own, hown, hsame⟩ := (hexactly.mp hlisted).2 site hsite hrejected [66] hname
  rw [honly own hown] at hsame
  exact absurd (hs.trans hsame.symm) (by decide)

end ClassFile

end Retarget
