import Retarget.Proofs.Pass.Processed
import Retarget.Proofs.Pass.Settled

/-!
What processing classes one after the other comes to. Every class is read from
the input as it was in the beginning, since nothing that is written lies below
it, and all results are stored below the output at once. A class that was found
before is found again. Processing succeeds exactly if every class can be read,
checked, renamed and written, and there is room for all of them below the output.
-/

set_option autoImplicit false

namespace Retarget

namespace ClassPath

variable {t : FileTree} {cp cp' : ClassPath} {name : String} {path : Path}

/-- Every file found so far is where the name of its class says, which is a proper name. -/
def Grown (cp : ClassPath) : Prop :=
  ∀ {name : String} {path : Path}, cp.resolved[name]? = some path →
    path = pathOf cp.root name ∧ isWellFormed name = true

theorem grown_new (root : Path) (verify : Bool) : (new root verify).Grown := by
  intro name path h
  simp [new] at h

theorem find_grown (hcp : cp.Grown) (h : find t name cp = .ok path cp') :
    (path = pathOf cp.root name ∧ isWellFormed name = true) ∧
      cp'.root = cp.root ∧ cp'.verify = cp.verify ∧ cp'.Grown := by
  rw [find] at h
  split at h
  · next found hfound =>
    cases h
    exact ⟨hcp hfound, rfl, rfl, hcp⟩
  · simp only at h
    split_ifs at h with hfile
    obtain ⟨hpath, hcp'⟩ := EStateM.Result.ok.inj h
    have hname : isWellFormed name = true := (Bool.and_eq_true_iff.mp hfile).1
    rw [← hcp']
    refine ⟨⟨hpath.symm, hname⟩, rfl, rfl, ?_⟩
    intro other found hother
    rw [Std.ExtTreeMap.getElem?_insert] at hother
    split_ifs at hother with heq
    · rw [← Std.LawfulEqCmp.compare_eq_iff_eq.mp heq]
      exact ⟨(Option.some.inj hother).symm, hname⟩
    · exact hcp hother

theorem exists_find (hcp : cp.Grown) (hname : isWellFormed name = true)
    (hfile : t.isFile (pathOf cp.root name) = true) :
    ∃ cp', find t name cp = .ok (pathOf cp.root name) cp' := by
  rw [find]
  cases hfound : cp.resolved[name]? with
  | some found =>
    rw [(hcp hfound).1]
    exact ⟨cp, rfl⟩
  | none =>
    simp only [hname, hfile, Bool.and_self, if_true]
    exact ⟨_, rfl⟩

theorem exists_load {c : ClassFile} (hcp : cp.Grown) (hname : isWellFormed name = true)
    (hclass : classAt t (pathOf cp.root name) = .ok c)
    (hchecked : cp.verify = true → checkName name c = .ok ()) :
    ∃ cp', load t name cp = .ok c cp' := by
  obtain ⟨data, hdata, -⟩ := bind_eq_ok_iff.mp hclass
  have hfile : t.isFile (pathOf cp.root name) = true := by
    obtain ⟨-, q, hlookup⟩ := FileTree.contents_ok_iff.mp hdata
    exact FileTree.isFile_iff.mpr ⟨q, data, hlookup⟩
  obtain ⟨cp', hfind⟩ := exists_find hcp hname hfile
  obtain ⟨-, -, hverify, -⟩ := find_grown hcp hfind
  refine ⟨cp', ?_⟩
  rw [load, hfind]
  simp only [hclass, hverify]
  cases hv : cp.verify with
  | false => rfl
  | true => simp only [hchecked hv, if_true]

end ClassPath

namespace Pass

open FileTree

variable {t t' t₁ : FileTree} {input output relative : Path} {cp cp' : ClassPath}
  {newNames : Renaming} {verify : Bool} {b i : Place} {left : Nat} {relatives : List Path}
  {names : List String} {tally : Tally} {answer : List String × Tally}

/-- What becomes of a class: its name with dots, what was renamed in it and its new bytes. -/
structure Work where
  name : String
  tally : Tally
  bytes : Bytes

def Work.file (w : Work) : Place × Bytes := (ClassPath.placeOf w.name, w.bytes)

variable {w w' : Work} {works : List Work}

/-- The class that a relative path names is found below the input, read, checked, renamed and
written as bytes. -/
inductive Yields (verify : Bool) (newNames : Renaming) (t : FileTree) (input relative : Path)
    (w : Work) : Prop where
  | intro {data : Bytes} {c c' : ClassFile} (name : w.name = relative.binaryName)
      (wellFormed : ClassPath.isWellFormed w.name = true)
      (contents : t.contents (ClassPath.pathOf input w.name) = .ok data)
      (parsed : ClassFile.ofBytes data = .ok c)
      (checked : verify = true → ClassPath.checkName w.name c = .ok ())
      (renamed : c.rename newNames = .ok w.tally c') (written : c'.toBytes = .ok w.bytes) :
      Yields verify newNames t input relative w

theorem Yields.wellFormed (h : Yields verify newNames t input relative w) :
    ClassPath.isWellFormed w.name = true := by
  obtain ⟨-, hname, -, -, -, -, -⟩ := h
  exact hname

theorem Yields.name_eq (h : Yields verify newNames t input relative w) :
    w.name = relative.binaryName := by
  obtain ⟨hname, -, -, -, -, -, -⟩ := h
  exact hname

private theorem Yields.unique {relative' : Path} (h : Yields verify newNames t input relative w)
    (h' : Yields verify newNames t input relative' w') (hname : w.name = w'.name) : w = w' := by
  obtain ⟨-, -, hdata, hparsed, -, hrenamed, hwritten⟩ := h
  obtain ⟨-, -, hdata', hparsed', -, hrenamed', hwritten'⟩ := h'
  obtain ⟨name, tally, bytes⟩ := w
  obtain ⟨name', tally', bytes'⟩ := w'
  simp only at hname
  subst hname
  cases hdata.symm.trans hdata'
  cases hparsed.symm.trans hparsed'
  have hrun := hrenamed.symm.trans hrenamed'
  cases hrun
  cases hwritten.symm.trans hwritten'
  rfl

private theorem Yields.congr (h : Yields verify newNames t input relative w)
    (hsame : ∀ data, t.contents (ClassPath.pathOf input w.name) = .ok data →
      t'.contents (ClassPath.pathOf input w.name) = .ok data) :
    Yields verify newNames t' input relative w := by
  obtain ⟨hname, hwell, hdata, hparsed, hchecked, hrenamed, hwritten⟩ := h
  exact ⟨hname, hwell, hsame _ hdata, hparsed, hchecked, hrenamed, hwritten⟩

theorem yields_of_processClass {found : String × Tally × ClassPath} (hcp : cp.Grown)
    (h : processClass newNames output relative cp t = .ok found t') :
    ∃ w, found.1 = w.name ∧ found.2.1 = w.tally ∧
      (found.2.2.root = cp.root ∧ found.2.2.verify = cp.verify ∧ found.2.2.Grown) ∧
      Yields cp.verify newNames t cp.root relative w ∧
      ClassFile.store w.bytes (ClassPath.pathOf output w.name) t = .ok () t' := by
  obtain ⟨path, data, c, c', bytes, hsteps⟩ := processed_of_processClass h
  obtain ⟨⟨hpath, hname⟩, hkept⟩ := ClassPath.find_grown hcp hsteps.find
  have hdata := hsteps.contents
  rw [hpath] at hdata
  refine ⟨⟨relative.binaryName, found.2.1, bytes⟩, hsteps.name, rfl, hkept, ?_, hsteps.stored⟩
  exact ⟨rfl, hname, hdata, hsteps.parsed, hsteps.checked, hsteps.renamed, hsteps.written⟩

private theorem processClass_of_yields (hcp : cp.Grown)
    (h : Yields cp.verify newNames t cp.root relative w)
    (hstored : ClassFile.store w.bytes (ClassPath.pathOf output w.name) t = .ok () t') :
    ∃ cp', processClass newNames output relative cp t = .ok (w.name, w.tally, cp') t' := by
  obtain ⟨hname, hwell, hdata, hparsed, hchecked, hrenamed, hwritten⟩ := h
  rename_i data c c'
  have hclass : ClassPath.classAt t (ClassPath.pathOf cp.root w.name) = .ok c :=
    bind_eq_ok_iff.mpr ⟨data, hdata, hparsed⟩
  obtain ⟨cp', hload⟩ := ClassPath.exists_load hcp hwell hclass hchecked
  refine ⟨cp', ?_⟩
  rw [processClass, ← hname, hload]
  simp only [hrenamed, hwritten, hstored]

def Allowed (output : Path) (w : Work) : Prop :=
  Sayable (ClassPath.pathOf output w.name) ∧
    ∀ s ∈ ClassPath.placeOf w.name, ¬ nameLimit < s.utf8ByteSize

theorem store_work_iff (ht : t.Rooted) (houtput : output.isEmpty = false)
    (hlinkless : t.LinklessBelow output) (hname : ClassPath.isWellFormed w.name = true) :
    ClassFile.store w.bytes (ClassPath.pathOf output w.name) t = .ok () t' ↔
      Allowed output w ∧ ∃ t₁ b left, Makes t linkLimit [] output.segments t₁ b left ∧
        Stores t₁ b [w.file] t' := by
  obtain ⟨hdirs, hlast⟩ := ClassPath.isName_of_mem_placeOf hname
  rw [Allowed, ClassPath.pathOf_eq output hname, and_assoc]
  exact FileTree.store_ok_iff ht houtput hlinkless hdirs hlast

theorem Settled.contents_ok_iff (hs : Settled t input output) (hinput : input.isEmpty = false)
    {name : String} (hname : ClassPath.isWellFormed name = true) {data : Bytes} :
    t.contents (ClassPath.pathOf input name) = .ok data ↔ data.isEmpty = false ∧
      Sayable (ClassPath.pathOf input name) ∧
      (∀ s ∈ ClassPath.placeOf name, ¬ nameLimit < s.utf8ByteSize) ∧
      ∃ i left, t.Opens linkLimit [] input.segments i left ∧
        t.fileAt? (i ++ ClassPath.placeOf name) = some data := by
  have hnames := ClassPath.isName_placeOf hname
  have hne : ClassPath.placeOf name ≠ [] := append_singleton_ne_nil _ _
  rw [FileTree.contents_ok_iff, ClassPath.pathOf_eq input hname]
  constructor
  · rintro ⟨hempty, q, hlookup⟩
    obtain ⟨hsay, hshort, i, left, hopen, -, hfile⟩ :=
      (lookup_join_file_iff hs.rooted hinput hs.linklessInput hnames hne).mp hlookup
    exact ⟨hempty, hsay, hshort, i, left, hopen, fileAt?_eq_some_iff.mpr hfile⟩
  · rintro ⟨hempty, hsay, hshort, i, left, hopen, hfile⟩
    refine ⟨hempty, i ++ ClassPath.placeOf name, ?_⟩
    exact (lookup_join_file_iff hs.rooted hinput hs.linklessInput hnames hne).mpr
      ⟨hsay, hshort, i, left, hopen, rfl, fileAt?_eq_some_iff.mp hfile⟩

private theorem Yields.opens (hs : Settled t input output) (hinput : input.isEmpty = false)
    (h : Yields verify newNames t input relative w) :
    ∃ i left, t.Opens linkLimit [] input.segments i left := by
  obtain ⟨-, hwell, hdata, -, -, -, -⟩ := h
  obtain ⟨-, -, -, i, left, hopen, -⟩ := (hs.contents_ok_iff hinput hwell).mp hdata
  exact ⟨i, left, hopen⟩

/-- A tree that came of another one by storing files below the output and deleting files there. No
directory and no link is lost, and elsewhere there are at most more directories. -/
structure Touched (t t' : FileTree) (output : Path) : Prop where
  rooted : t'.Rooted
  links : SameLinks t t'
  carries : t.Carries t'
  apart : ∀ q : Place, (∀ o, t.Reaches [] output.segments o → ¬ o <+: q) →
    t'.at? q = t.at? q ∨ t.at? q = none ∧ t'.at? q = some .directory

namespace Touched

theorem refl (ht : t.Rooted) (output : Path) : Touched t t output :=
  ⟨ht, fun _ _ => Iff.rfl, ⟨fun h => h, fun h => h⟩, fun _ _ => .inl rfl⟩

theorem trans (h : Touched t t₁ output) (h' : Touched t₁ t' output) : Touched t t' output where
  rooted := h'.rooted
  links := h.links.trans h'.links
  carries := ⟨fun hq => h'.carries.directory (h.carries.directory hq),
    fun hq => h'.carries.link (h.carries.link hq)⟩
  apart q hq := by
    have hq' : ∀ o, t₁.Reaches [] output.segments o → ¬ o <+: q :=
      fun o ho => hq o (h.links.reaches_iff.mp ho)
    rcases h.apart q hq with heq | ⟨hnone, hnew⟩
    · rw [← heq]
      exact h'.apart q hq'
    · rcases h'.apart q hq' with heq' | ⟨hnone', -⟩
      · exact .inr ⟨hnone, heq'.trans hnew⟩
      · cases hnew.symm.trans hnone'

theorem of_makes (ht : t.Rooted) (h : Makes t linkLimit [] output.segments t' b left) :
    Touched t t' output :=
  ⟨h.rooted ht rfl, fun _ _ => h.adds.link_iff, h.adds.carries, fun q _ => h.adds q⟩

private theorem of_stores (hb : t.Reaches [] output.segments b) (hlinkless : t.Linkless b)
    {files : List (Place × Bytes)} (h : Stores t b files t') : Touched t t' output := by
  have hcarries := h.carries hlinkless
  refine ⟨h.rooted, fun q target => ⟨h.not_link, hcarries.link⟩, hcarries, ?_⟩
  intro q hq
  left
  apply h.other q
  rintro file - front - rfl
  exact hq b hb (List.prefix_append b front)

theorem of_stored (ht : t.Rooted) (hlinkless : t.LinklessBelow output)
    {files : List (Place × Bytes)} (hmakes : Makes t linkLimit [] output.segments t₁ b left)
    (hstores : Stores t₁ b files t') : Touched t t' output := by
  have hmade := of_makes ht hmakes
  have hb : t₁.Reaches [] output.segments b := hmakes.opens.reaches
  exact hmade.trans (of_stores hb (hmade.links.linklessBelow hlinkless b hb) hstores)

theorem of_erase (ht : t.Rooted) (hb : t.Reaches [] output.segments b) {names : Place}
    {content : Bytes} (hfile : t.at? (b ++ names) = some (.file content)) :
    Touched t ⟨t.nodes.erase (b ++ names)⟩ output := by
  refine ⟨ht.erase_file hfile, fun _ _ => link_erase_file_iff hfile, carries_erase_file hfile, ?_⟩
  intro q hq
  left
  rw [at?_erase (ne_nil_of_file hfile), if_neg]
  rintro rfl
  exact hq b hb (List.prefix_append b names)

theorem settled (h : Touched t t' output) (hs : Settled t input output) :
    Settled t' input output :=
  hs.of_sameLinks h.rooted h.links

theorem same (h : Touched t t' output) (hs : Settled t input output)
    (hi : t.Reaches [] input.segments i) (names : Place) :
    t'.fileAt? (i ++ names) = t.fileAt? (i ++ names) := by
  have hapart : ∀ o, t.Reaches [] output.segments o → ¬ o <+: i ++ names := by
    rintro o ho ⟨names', heq⟩
    exact hs.ne_of_reaches hi ho names names' heq.symm
  rcases h.apart _ hapart with heq | ⟨hnone, hnew⟩
  · exact fileAt?_congr heq
  · rw [fileAt?, fileAt?, hnone, hnew]

private theorem yields_iff (h : Touched t t' output) (hs : Settled t input output)
    (hinput : input.isEmpty = false) (hopen : t.Opens linkLimit [] input.segments i left) :
    Yields verify newNames t' input relative w ↔ Yields verify newNames t input relative w := by
  have hopen' : t'.Opens linkLimit [] input.segments i left := hopen.mono h.carries
  have hsame : ∀ names : Place, t'.fileAt? (i ++ names) = t.fileAt? (i ++ names) :=
    h.same hs hopen.reaches
  constructor
  · intro hyields
    apply hyields.congr
    intro data hdata
    rw [(h.settled hs).contents_ok_iff hinput hyields.wellFormed] at hdata
    obtain ⟨hempty, hsay, hshort, i', left', hi', hfile⟩ := hdata
    obtain ⟨rfl, rfl⟩ := hopen'.unique hi'
    rw [hs.contents_ok_iff hinput hyields.wellFormed]
    exact ⟨hempty, hsay, hshort, i, left, hopen, (hsame _).symm.trans hfile⟩
  · intro hyields
    apply hyields.congr
    intro data hdata
    rw [hs.contents_ok_iff hinput hyields.wellFormed] at hdata
    obtain ⟨hempty, hsay, hshort, i', left', hi', hfile⟩ := hdata
    obtain ⟨rfl, rfl⟩ := hopen.unique hi'
    rw [(h.settled hs).contents_ok_iff hinput hyields.wellFormed]
    exact ⟨hempty, hsay, hshort, i, left, hopen', (hsame _).trans hfile⟩

end Touched

/-- All files are stored below the place that the output leads to, if there are any. -/
inductive Filled (t : FileTree) (output : Path) : List Work → FileTree → Prop where
  | nothing : Filled t output [] t
  | stored {works : List Work} {t₁ t' : FileTree} {b : Place} {left : Nat} (hne : works ≠ [])
      (hmakes : Makes t linkLimit [] output.segments t₁ b left)
      (hstores : Stores t₁ b (works.map Work.file) t') : Filled t output works t'

def Harmless (w : Work) (works : List Work) : Prop :=
  ∀ file ∈ works.map Work.file, w.file.1 <+: file.1 ∨ file.1 <+: w.file.1 → file = w.file

private theorem harmless_of_yields (h : Yields verify newNames t input relative w)
    (hworks : List.Forall₂ (fun r w => Yields verify newNames t input r w ∧ Allowed output w)
      relatives works) : Harmless w works := by
  intro file hfile hway
  obtain ⟨w', hw', rfl⟩ := List.mem_map.mp hfile
  obtain ⟨relative', -, h', -⟩ := exists_of_forall₂ hworks hw'
  have hname : w.name = w'.name := by
    rcases hway with hway | hway
    · exact ClassPath.eq_of_placeOf_prefix hway
    · exact (ClassPath.eq_of_placeOf_prefix hway).symm
  rw [h.unique h' hname]

private theorem filled_cons_iff {t₂ : FileTree} (hs : Settled t₁ input output)
    (hmakes : Makes t linkLimit [] output.segments t₁ b left) (hstores : Stores t₁ b [w.file] t₂)
    (hapart : Harmless w works) : Filled t output (w :: works) t' ↔ Filled t₂ output works t' := by
  have hb : t₁.Reaches [] output.segments b := hmakes.opens.reaches
  have htouched := Touched.of_stores hb (hs.linklessOutput b hb) hstores
  have hopen : Makes t₂ linkLimit [] output.segments t₂ b left :=
    .of_opens (hmakes.opens.mono htouched.carries)
  constructor
  · intro h
    cases h with
    | stored _ hmakes' hstores' =>
      obtain ⟨rfl, rfl, rfl⟩ := hmakes.unique hmakes'
      have hstored := hstores.tail hapart hstores'
      cases works with
      | nil =>
        rw [(Stores.nil_iff htouched.rooted).mp hstored]
        exact .nothing
      | cons next works => exact .stored (List.cons_ne_nil _ _) hopen hstored
  · intro h
    apply Filled.stored (List.cons_ne_nil w works) hmakes
    apply hstores.cons hapart
    cases h with
    | nothing => exact (Stores.nil_iff htouched.rooted).mpr rfl
    | stored _ hmakes' hstores' =>
      obtain ⟨rfl, rfl, rfl⟩ := hopen.unique hmakes'
      exact hstores'

theorem touched_of_filled (hs : Settled t input output) (h : Filled t output works t') :
    Touched t t' output := by
  cases h with
  | nothing => exact .refl hs.rooted output
  | stored _ hmakes hstores => exact .of_stored hs.rooted hs.linklessOutput hmakes hstores

private theorem Filled.exists_first (h : Filled t output (w :: works) t')
    (hs : Settled t input output)
    (hname : ClassPath.isWellFormed w.name = true) (hallowed : Allowed output w) :
    ∃ t₁ b left t₂, Makes t linkLimit [] output.segments t₁ b left ∧ Stores t₁ b [w.file] t₂ := by
  cases h with
  | stored hne hmakes hstores =>
    rename_i t₁ b left
    have hs₁ := (Touched.of_makes hs.rooted hmakes).settled hs
    have hb : t₁.at? b = some .directory := hs₁.rooted.directory_of_opens hmakes.opens rfl
    obtain ⟨hdirs, hlast⟩ := ClassPath.isName_of_mem_placeOf hname
    have hshort : ∀ s ∈ (Text.split '.' w.name).dropLast, ¬ nameLimit < s.utf8ByteSize :=
      fun s hs => hallowed.2 s (List.mem_append_left _ hs)
    obtain ⟨t₂, hfirst⟩ := Stores.exists_first hstores hs₁.rooted
      (hs₁.linklessOutput b hmakes.opens.reaches) hb hdirs hlast hshort
    exact ⟨t₁, b, left, t₂, hmakes, hfirst⟩

/-- The names of the results, the last one first, and the sum of what was renamed in them, after
what is there already. -/
def collect (works : List Work) (names : List String) (tally : Tally) : List String × Tally :=
  works.foldl (fun found w => (w.name :: found.1, found.2.add w.tally)) (names, tally)

private theorem yields_iff_of_stored {t₂ : FileTree} (hs : Settled t input output)
    (hinput : input.isEmpty = false) (h : Yields verify newNames t input relative w)
    (hmakes : Makes t linkLimit [] output.segments t₁ b left) (hstores : Stores t₁ b [w.file] t₂) :
    Settled t₁ input output ∧ Settled t₂ input output ∧ ∀ (r : Path) (w' : Work),
      Yields verify newNames t₂ input r w' ↔ Yields verify newNames t input r w' := by
  have hmade := Touched.of_makes hs.rooted hmakes
  have hs₁ := hmade.settled hs
  have hb := hmakes.opens.reaches
  have hstored := Touched.of_stores hb (hs₁.linklessOutput b hb) hstores
  obtain ⟨i, left, hopen⟩ := h.opens hs hinput
  refine ⟨hs₁, hstored.settled hs₁, ?_⟩
  intro r w'
  exact (hmade.trans hstored).yields_iff hs hinput hopen

/-- Processing succeeds exactly if every class yields a result that may be written and all results
can be stored below the output together. -/
theorem processClasses_ok_iff (hs : Settled t input output) (hinput : input.isEmpty = false)
    (houtput : output.isEmpty = false) (hcp : cp.Grown) (hroot : cp.root = input)
    (hverify : cp.verify = verify) :
    processClasses newNames output relatives names tally cp t = .ok answer t' ↔
      ∃ works, List.Forall₂ (fun r w => Yields verify newNames t input r w ∧ Allowed output w)
          relatives works ∧ answer = collect works names tally ∧ Filled t output works t' := by
  induction relatives generalizing t names tally cp with
  | nil =>
    constructor
    · intro h
      cases h
      exact ⟨[], .nil, rfl, .nothing⟩
    · rintro ⟨works, hworks, rfl, hfilled⟩
      cases hworks
      cases hfilled with
      | nothing => rfl
      | stored hne => exact absurd rfl hne
  | cons r rest ih =>
    rw [processClasses]
    constructor
    · intro h
      cases hprocess : processClass newNames output r cp t with
      | error fault t₂ =>
        rw [hprocess] at h
        cases h
      | ok found t₂ =>
        obtain ⟨w, hname, htally, ⟨hroot', hverify', hcp'⟩, hyields, hstore⟩ :=
          yields_of_processClass hcp hprocess
        obtain ⟨name, more, cp'⟩ := found
        simp only at hname htally hroot' hverify' hcp'
        subst hname htally
        rw [hprocess] at h
        rw [hroot, hverify] at hyields
        obtain ⟨hallowed, t₁, b, left, hmakes, hstores⟩ :=
          (store_work_iff hs.rooted houtput hs.linklessOutput hyields.wellFormed).mp hstore
        -- storing the first class changes nothing that the others are made of
        obtain ⟨hs₁, hs₂, hsame⟩ := yields_iff_of_stored hs hinput hyields hmakes hstores
        obtain ⟨works, hworks, hanswer, hfilled⟩ :=
          (ih hs₂ hcp' (hroot'.trans hroot) (hverify'.trans hverify)).mp h
        have hbefore := hworks.imp fun r' w' => And.imp_left (hsame r' w').mp
        have hapart : Harmless w works := harmless_of_yields hyields hbefore
        exact ⟨w :: works, .cons ⟨hyields, hallowed⟩ hbefore, hanswer,
          (filled_cons_iff hs₁ hmakes hstores hapart).mpr hfilled⟩
    · rintro ⟨_, hworks, rfl, hfilled⟩
      cases hworks with
      | @cons _ w _ works hfirst hworks =>
        obtain ⟨hyields, hallowed⟩ := hfirst
        obtain ⟨t₁, b, left, t₂, hmakes, hstores⟩ :=
          hfilled.exists_first hs hyields.wellFormed hallowed
        obtain ⟨hs₁, hs₂, hsame⟩ := yields_iff_of_stored hs hinput hyields hmakes hstores
        have hapart : Harmless w works := harmless_of_yields hyields hworks
        have hstore := (store_work_iff hs.rooted houtput hs.linklessOutput hyields.wellFormed).mpr
          ⟨hallowed, t₁, b, left, hmakes, hstores⟩
        have hyields' : Yields cp.verify newNames t cp.root r w := by
          rw [hroot, hverify]
          exact hyields
        obtain ⟨cp', hprocess⟩ := processClass_of_yields hcp hyields' hstore
        obtain ⟨-, -, -, ⟨hroot', hverify', hcp'⟩, -⟩ := yields_of_processClass hcp hprocess
        rw [hprocess]
        apply (ih hs₂ hcp' (hroot'.trans hroot) (hverify'.trans hverify)).mpr
        exact ⟨works, hworks.imp fun r' w' => And.imp_left (hsame r' w').mpr, rfl,
          (filled_cons_iff hs₁ hmakes hstores hapart).mp hfilled⟩

end Pass

end Retarget
