import Retarget.Pass.Run
import Retarget.Proofs.Pass.Selection

/-!
What the steps of a pass do to the files. Deleting takes files below the output
away, where the output is found; processing puts there what becomes of a class
file. The files below the input stay as they are.
-/

set_option autoImplicit false

namespace Retarget

namespace ClassPath

variable {t : FileTree} {cp cp' : ClassPath} {name : String} {path : Path} {c : ClassFile}

/-- Every file found so far is where the name of its class says. -/
def Sound (cp : ClassPath) : Prop :=
  ∀ {name : String} {path : Path}, cp.resolved[name]? = some path → path = pathOf cp.root name

theorem sound_new (root : Path) (verify : Bool) : (new root verify).Sound := by
  intro name path h
  simp [new] at h

theorem find_ok (hcp : cp.Sound) (h : find t name cp = .ok path cp') :
    path = pathOf cp.root name ∧ cp'.root = cp.root ∧ cp'.verify = cp.verify ∧ cp'.Sound := by
  rw [find] at h
  split at h
  · next found hfound =>
    cases h
    exact ⟨hcp hfound, rfl, rfl, hcp⟩
  · simp only at h
    split_ifs at h
    obtain ⟨hpath, hcp'⟩ := EStateM.Result.ok.inj h
    rw [← hcp']
    refine ⟨hpath.symm, rfl, rfl, ?_⟩
    intro other found hother
    rw [Std.ExtTreeMap.getElem?_insert] at hother
    split_ifs at hother with heq
    · rw [← Std.LawfulEqCmp.compare_eq_iff_eq.mp heq]
      exact (Option.some.inj hother).symm
    · exact hcp hother

private theorem load_ok (hcp : cp.Sound) (h : load t name cp = .ok c cp') :
    (∃ content, t.contents (pathOf cp.root name) = .ok content ∧
      ClassFile.ofBytes content = .ok c ∧ (cp.verify = true → checkName name c = .ok ())) ∧
      cp'.root = cp.root ∧ cp'.verify = cp.verify ∧ cp'.Sound := by
  rw [load] at h
  cases hfind : find t name cp with
  | error fault cp₁ =>
    rw [hfind] at h
    cases h
  | ok path cp₁ =>
    obtain ⟨hpath, hroot, hverify, hsound⟩ := find_ok hcp hfind
    rw [hfind] at h
    simp only [hpath] at h
    cases hclass : classAt t (pathOf cp.root name) with
    | error fault =>
      rw [hclass] at h
      cases h
    | ok c₁ =>
      rw [hclass] at h
      simp only at h
      obtain ⟨content, hcontent, hparsed⟩ := bind_eq_ok_iff.mp hclass
      rw [hverify] at h
      cases hv : cp.verify with
      | false =>
        rw [hv, if_neg Bool.false_ne_true] at h
        cases h
        exact ⟨⟨content, hcontent, hparsed, fun htrue => absurd htrue Bool.false_ne_true⟩, hroot,
          hverify.trans hv, hsound⟩
      | true =>
        rw [hv, if_pos rfl] at h
        cases hname : checkName name c₁ with
        | error fault =>
          rw [hname] at h
          cases h
        | ok u =>
          rw [hname] at h
          cases h
          exact ⟨⟨content, hcontent, hparsed, fun _ => hname⟩, hroot, hverify.trans hv, hsound⟩

end ClassPath

namespace FileTree

variable {t t' : FileTree} {p : Path} {content : Bytes}

private theorem store_ok {base : Path} {bytes : Bytes} {u : Unit} (ht : t.Plain)
    (hbase : base.isEmpty = false) (hp : p.Inner)
    (h : ClassFile.store bytes (base.join p) t = .ok u t') :
    t.Keeps t' (· = base.place ++ p.place) ∧ t'.fileAt? (base.place ++ p.place) = some bytes ∧
      t'.lookup true base = .ok (base.place, .directory) := by
  have hfinish : ∀ {t₁ : FileTree}, t.Keeps t₁ (fun _ => False) →
      ClassFile.store.finish bytes (base.join p) t₁ = .ok u t' →
      t.Keeps t' (· = base.place ++ p.place) ∧ t'.fileAt? (base.place ++ p.place) = some bytes ∧
        t'.lookup true base = .ok (base.place, .directory) := by
    intro t₁ hkeeps h
    rw [ClassFile.store.finish] at h
    cases hwrite : t₁.write (base.join p) bytes with
    | error trouble =>
      rw [hwrite] at h
      cases h
    | ok t₂ =>
      rw [hwrite] at h
      cases h
      obtain ⟨hkeeps', hfile⟩ := write_ok hkeeps.plain hwrite
      obtain ⟨spot, hspot⟩ := resolve_of_write hwrite
      rw [hp.place_join hbase] at hkeeps' hfile
      have hfound := lookup_of_resolve_join hkeeps.plain hbase hp.relative hp.all_eq_false hspot
      exact ⟨(hkeeps.mono fun q hq => hq.elim).trans hkeeps', hfile,
        lookup_mono hkeeps.plain hkeeps'.directories hfound⟩
  rw [ClassFile.store] at h
  cases hparent : (base.join p).parent? with
  | none =>
    rw [hparent] at h
    exact hfinish (.refl ht _) h
  | some parent =>
    rw [hparent] at h
    have hkeeps := keeps_makeDirectories parent ht
    simp only at h
    split at h
    · next t₁ hmade =>
      rw [hmade] at hkeeps
      exact hfinish hkeeps h
    · cases h

private theorem lookup_of_removeFile_join {base : Path} (ht : t.Plain)
    (hbase : base.isEmpty = false)
    (hp : p.Inner) (h : t.removeFile (base.join p) = .ok t') :
    t.lookup true base = .ok (base.place, .directory) := by
  obtain ⟨found, hfound⟩ := lookup_of_removeFile h
  obtain ⟨spot, hspot⟩ := resolve_of_lookup hfound
  have hlookup := lookup_of_resolve_join ht hbase hp.relative hp.all_eq_false hspot
  exact lookup_mono ht (fun hq => hq) hlookup

end FileTree

namespace Pass

open FileTree

variable {t t' s : FileTree} {input output : Path} {names : Place} {files removed relatives : List Path}
  {deleted : List Path} {newNames : Renaming}

def Found (t : FileTree) (p : Path) : Prop := t.lookup true p = .ok (p.place, .directory)

theorem ne_of_apart (hapart : ¬ input.place <+: output.place ∧ ¬ output.place <+: input.place)
    (names names' : Place) : input.place ++ names ≠ output.place ++ names' := by
  intro heq
  have hinput : input.place <+: output.place ++ names' := heq ▸ List.prefix_append _ _
  rcases List.prefix_or_prefix_of_prefix hinput (List.prefix_append _ _) with h | h
  · exact hapart.1 h
  · exact hapart.2 h

theorem not_input_of_output (hapart : ¬ input.place <+: output.place ∧ ¬ output.place <+: input.place)
    (names : Place) : ¬ input.place <+: output.place ++ names := by
  rintro ⟨names', heq⟩
  exact ne_of_apart hapart names' names heq

def Below (output : Path) (files : List Path) (q : Place) : Prop :=
  ∃ r ∈ files, q = output.place ++ r.place

theorem same_below_input (hapart : ¬ input.place <+: output.place ∧ ¬ output.place <+: input.place)
    (h : t.Keeps t' (Below output files)) (names : Place) :
    t'.fileAt? (input.place ++ names) = t.fileAt? (input.place ++ names) := by
  refine h.files ?_
  rintro ⟨r, -, heq⟩
  exact ne_of_apart hapart names r.place heq

theorem same_below_output (h : t.Keeps t' (Below output files))
    (hnot : ∀ r ∈ files, r.place ≠ names) :
    t'.fileAt? (output.place ++ names) = t.fileAt? (output.place ++ names) := by
  refine h.files ?_
  rintro ⟨r, hr, heq⟩
  exact hnot r hr (List.append_cancel_left heq).symm

private theorem Below.cons {r : Path} {q : Place} (h : Below output files q) :
    Below output (r :: files) q := by
  obtain ⟨r', hr', rfl⟩ := h
  exact ⟨r', List.mem_cons_of_mem _ hr', rfl⟩

private theorem none_cons {r : Path} {rest : List Path} (h : t.Keeps t' (Below output rest))
    (hrest : ∀ r ∈ rest, t'.fileAt? (output.place ++ r.place) = none)
    (hfirst : t.fileAt? (output.place ++ r.place) = none) :
    ∀ r' ∈ r :: rest, t'.fileAt? (output.place ++ r'.place) = none := by
  intro r' hr'
  by_cases hlater : ∀ r ∈ rest, r.place ≠ r'.place
  · rw [same_below_output h hlater]
    rcases List.mem_cons.mp hr' with rfl | hr'
    · exact hfirst
    · exact absurd rfl (hlater r' hr')
  · push Not at hlater
    obtain ⟨later, hlater, heq⟩ := hlater
    rw [← heq]
    exact hrest later hlater

theorem deleteOutputs_cons_ok {r : Path} {rest : List Path}
    (h : deleteOutputs output (r :: rest) t = .ok deleted t') :
    (∃ t₁ more, t.removeFile (output.join r) = .ok t₁ ∧
      deleteOutputs output rest t₁ = .ok more t' ∧ deleted = output.join r :: more) ∨
    t.removeFile (output.join r) = .error .notFound ∧
      deleteOutputs output rest t = .ok deleted t' := by
  rw [deleteOutputs] at h
  cases hremove : t.removeFile (output.join r) with
  | ok t₁ =>
    rw [hremove] at h
    dsimp only at h
    cases hdelete : deleteOutputs output rest t₁ with
    | ok more t₂ =>
      rw [hdelete] at h
      cases h
      exact .inl ⟨t₁, more, rfl, hdelete, rfl⟩
    | error fault t₂ =>
      rw [hdelete] at h
      cases h
  | error trouble =>
    rw [hremove] at h
    cases trouble with
    | notFound => exact .inr ⟨rfl, h⟩
    | _ => cases h

theorem deleteOutputs_cons_error {r : Path} {rest : List Path} {fault : Fault}
    (h : deleteOutputs output (r :: rest) t = .error fault t') :
    (∃ t₁, t.removeFile (output.join r) = .ok t₁ ∧
      deleteOutputs output rest t₁ = .error fault t') ∨
    t.removeFile (output.join r) = .error .notFound ∧
      deleteOutputs output rest t = .error fault t' ∨
    fault = .io (output.join r) ∧ t' = t := by
  rw [deleteOutputs] at h
  cases hremove : t.removeFile (output.join r) with
  | ok t₁ =>
    rw [hremove] at h
    dsimp only at h
    cases hdelete : deleteOutputs output rest t₁ with
    | ok more t₂ =>
      rw [hdelete] at h
      cases h
    | error fault' t₂ =>
      rw [hdelete] at h
      cases h
      exact .inl ⟨t₁, rfl, hdelete⟩
  | error trouble =>
    rw [hremove] at h
    cases trouble with
    | notFound => exact .inr (.inl ⟨rfl, h⟩)
    | _ =>
      cases h
      exact .inr (.inr ⟨rfl, rfl⟩)

/-- Deleting takes away what is at the places of the removed files below the output, if that is
found; otherwise nothing happens. -/
theorem deleteOutputs_ok (ht : t.Plain) (houtput : output.isEmpty = false)
    (hremoved : ∀ r ∈ removed, r.Inner) (h : deleteOutputs output removed t = .ok deleted t') :
    t.Keeps t' (Below output removed) ∧
      (Found t output → ∀ r ∈ removed, t'.fileAt? (output.place ++ r.place) = none) ∧
      (¬ Found t output → t' = t) := by
  induction removed generalizing t deleted with
  | nil =>
    cases h
    exact ⟨.refl ht _, fun _ r hr => (List.not_mem_nil hr).elim, fun _ => rfl⟩
  | cons r rest ih =>
    have hr : r.Inner := hremoved r List.mem_cons_self
    have hrest : ∀ r ∈ rest, r.Inner := fun r hr => hremoved r (List.mem_cons_of_mem _ hr)
    have hplace := hr.place_join houtput
    rcases deleteOutputs_cons_ok h with ⟨t₁, more, hremove, hdelete, -⟩ | ⟨hremove, hdelete⟩
    · have hfound : Found t output := lookup_of_removeFile_join ht houtput hr hremove
      obtain ⟨hkeeps, hfirst⟩ := removeFile_ok ht hremove
      rw [hplace] at hkeeps hfirst
      obtain ⟨hkeeps', hnone, -⟩ := ih hkeeps.plain hrest hdelete
      have hnone' := hnone (lookup_mono ht hkeeps.directories hfound)
      refine ⟨(hkeeps.mono fun q hq => ⟨r, List.mem_cons_self, hq⟩).trans
        (hkeeps'.mono fun q hq => hq.cons), fun _ => none_cons hkeeps' hnone' hfirst, fun hnot => ?_⟩
      exact absurd hfound hnot
    · obtain ⟨hkeeps, hnone, hunfound⟩ := ih ht hrest hdelete
      refine ⟨hkeeps.mono fun q hq => hq.cons,
        fun hfound => none_cons hkeeps (hnone hfound) ?_, hunfound⟩
      have hmissing := none_of_lookup_join ht hfound hr.relative hr.segments_ne_nil hr.noParent
        (lookup_of_removeFile_notFound hremove)
      rw [hplace] at hmissing
      rw [fileAt?, hmissing]

def convert (verify : Bool) (newNames : Renaming) (name : String) (content : Bytes) :
    Option Bytes := do
  let c ← (ClassFile.ofBytes content).toOption
  if verify then (ClassPath.checkName name c).toOption else some ()
  match c.rename newNames with
  | .ok _ c => c.toBytes.toOption
  | .error .. => none

private theorem convert_eq_some {verify : Bool} {name : String} {content bytes : Bytes}
    {c c' : ClassFile}
    {tally : Tally} (hparsed : ClassFile.ofBytes content = .ok c)
    (hchecked : verify = true → ClassPath.checkName name c = .ok ())
    (hrename : c.rename newNames = .ok tally c') (hbytes : c'.toBytes = .ok bytes) :
    convert verify newNames name content = some bytes := by
  cases verify with
  | false => simp [convert, hparsed, hrename, hbytes, Except.toOption]
  | true => simp [convert, hparsed, hchecked rfl, hrename, hbytes, Except.toOption]

/-- What a pass makes of the class file at a place below the input, if there is one. -/
def converted (verify : Bool) (newNames : Renaming) (t : FileTree) (input : Path) (names : Place) :
    Option Bytes :=
  (classAt? t input names).bind (convert verify newNames (⟨names⟩ : Path).binaryName)

variable {cp cp' : ClassPath} {relative : Path} {content : Bytes} {name : String} {tally : Tally}

private theorem Laid.loaded_eq (hs : Laid s input output) (ht : t.Plain)
    (hsame : ∀ names, t.fileAt? (input.place ++ names) = s.fileAt? (input.place ++ names))
    (hrelative : relative.Inner) (hclass : classAt? s input relative.place = some content)
    {loaded : Bytes} (hloaded : t.contents (input.join ⟨relative.place⟩) = .ok loaded) :
    loaded = content := by
  have hnames := hs.isName_of_classAt? hclass
  have hinner := Path.inner_of_names hnames hrelative.place
  have hfile := file_of_contents ht hloaded
  rw [hinner.place_join hs.isEmpty_input, Path.place_of_names hnames] at hfile
  have hthere := hsame relative.place
  rw [fileAt?_eq_some_iff.mpr hfile,
    fileAt?_eq_some_iff.mpr (classAt?_eq_some_iff.mp hclass).2] at hthere
  exact Option.some.inj hthere

private theorem processClass_ok (hs : Laid s input output) (ht : t.Plain)
    (houtput : output.isEmpty = false)
    (hsame : ∀ names, t.fileAt? (input.place ++ names) = s.fileAt? (input.place ++ names))
    (hcp : cp.Sound) (hroot : cp.root = input) (hrelative : relative.Inner)
    (hclass : classAt? s input relative.place = some content)
    (h : processClass newNames output relative cp t = .ok (name, tally, cp') t') :
    (∃ bytes, converted cp.verify newNames s input relative.place = some bytes ∧
      t'.fileAt? (output.place ++ relative.place) = some bytes) ∧
      t.Keeps t' (· = output.place ++ relative.place) ∧
      t'.lookup true output = .ok (output.place, .directory) ∧
      cp'.root = input ∧ cp'.verify = cp.verify ∧ cp'.Sound := by
  have hpath := hs.pathOf_binaryName hclass
  have hnames := hs.isName_of_classAt? hclass
  have hinner := Path.inner_of_names hnames hrelative.place
  have hplace := Path.place_of_names hnames
  rw [processClass, hrelative.binaryName] at h
  cases hload : ClassPath.load t (⟨relative.place⟩ : Path).binaryName cp with
  | error fault cp₁ =>
    rw [hload] at h
    cases h
  | ok c cp₁ =>
    rw [hload] at h
    simp only at h
    obtain ⟨⟨loaded, hcontents, hparsed, hchecked⟩, hroot', hverify, hsound⟩ :=
      ClassPath.load_ok hcp hload
    rw [hroot, hpath] at hcontents
    have hloaded := hs.loaded_eq ht hsame hrelative hclass hcontents
    cases hrename : c.rename newNames with
    | error fault c₁ =>
      rw [hrename] at h
      cases h
    | ok tally₁ c₁ =>
      rw [hrename] at h
      simp only at h
      cases hbytes : c₁.toBytes with
      | error fault =>
        rw [hbytes] at h
        cases h
      | ok bytes =>
        rw [hbytes] at h
        simp only at h
        cases hstore : ClassFile.store bytes
            (ClassPath.pathOf output (⟨relative.place⟩ : Path).binaryName) t with
        | error fault t₁ =>
          rw [hstore] at h
          cases h
        | ok u t₁ =>
          rw [hstore] at h
          cases h
          rw [hpath] at hstore
          obtain ⟨hkeeps, hfile, hfound⟩ := store_ok ht houtput hinner hstore
          rw [hplace] at hkeeps hfile
          refine ⟨⟨bytes, ?_, hfile⟩, hkeeps, hfound, hroot'.trans hroot, hverify, hsound⟩
          rw [converted, hclass, ← hloaded, Option.bind_some]
          exact convert_eq_some hparsed hchecked hrename hbytes

theorem processClasses_ok {names : List String} {answer : List String × Tally}
    (hs : Laid s input output) (ht : t.Plain) (houtput : output.isEmpty = false)
    (hsame : ∀ names, t.fileAt? (input.place ++ names) = s.fileAt? (input.place ++ names))
    (hcp : cp.Sound) (hroot : cp.root = input)
    (hrelatives : ∀ r ∈ relatives, r.Inner ∧ ∃ content, classAt? s input r.place = some content)
    (h : processClasses newNames output relatives names tally cp t = .ok answer t') :
    t.Keeps t' (Below output relatives) ∧
      (∀ r ∈ relatives, ∃ bytes, converted cp.verify newNames s input r.place = some bytes ∧
        t'.fileAt? (output.place ++ r.place) = some bytes) ∧
      (relatives ≠ [] → t'.lookup true output = .ok (output.place, .directory)) := by
  induction relatives generalizing t names tally cp with
  | nil =>
    cases h
    exact ⟨.refl ht _, fun r hr => (List.not_mem_nil hr).elim, fun hne => absurd rfl hne⟩
  | cons r rest ih =>
    obtain ⟨hr, content, hclass⟩ := hrelatives r List.mem_cons_self
    rw [processClasses] at h
    cases hprocess : processClass newNames output r cp t with
    | error fault t₁ =>
      rw [hprocess] at h
      cases h
    | ok found t₁ =>
      obtain ⟨name, more, cp₁⟩ := found
      rw [hprocess] at h
      obtain ⟨⟨bytes, hbytes, hfile⟩, hkeeps, hfound, hroot₁, hverify₁, hsound₁⟩ :=
        processClass_ok hs ht houtput hsame hcp hroot hr hclass hprocess
      have hsame₁ : ∀ names, t₁.fileAt? (input.place ++ names) =
          s.fileAt? (input.place ++ names) := fun names =>
        (hkeeps.files (ne_of_apart hs.apart names r.place)).trans (hsame names)
      obtain ⟨hkeeps', hfiles, -⟩ := ih hkeeps.plain hsame₁ hsound₁ hroot₁
        (fun r' hr' => hrelatives r' (List.mem_cons_of_mem _ hr')) h
      refine ⟨(hkeeps.mono fun q hq => ⟨r, List.mem_cons_self, hq⟩).trans
        (hkeeps'.mono fun q hq => hq.cons), fun r' hr' => ?_,
        fun _ => lookup_mono hkeeps.plain hkeeps'.directories hfound⟩
      rw [← hverify₁]
      -- what is processed once more is converted to the same
      by_cases hlater : ∀ later ∈ rest, later.place ≠ r'.place
      · rw [same_below_output hkeeps' hlater, hverify₁]
        rcases List.mem_cons.mp hr' with rfl | hr'
        · exact ⟨bytes, hbytes, hfile⟩
        · exact absurd rfl (hlater r' hr')
      · push Not at hlater
        obtain ⟨later, hlater, heq⟩ := hlater
        rw [← heq]
        exact hfiles later hlater

end Pass

end Retarget
