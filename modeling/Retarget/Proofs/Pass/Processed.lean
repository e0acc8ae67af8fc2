import Retarget.Proofs.ClassFile.RenameBytes
import Retarget.Proofs.Files.Writing
import Retarget.Proofs.Pass.Outputs

/-!
Three ways to rename a class: the bytes at once, the class they hold, and the
file they are in, in the course of a pass. They fail alike and give the same
bytes. The file is the one that the name of the class leads to; if no part of a
path holds a dot or a slash of its own, that is the file at the path.
-/

set_option autoImplicit false

namespace Retarget.Pass

open FileTree
open Retarget.Path (IsName)

variable {t t' : FileTree} {cp : ClassPath} {output relative : Path} {newNames : Renaming}
  {found : String × Tally × ClassPath} {data : Bytes} {names : Place}

/-- Names of directories and of a class file in them, none with a dot or a slash of its own. -/
structure Tidy (names : Place) : Prop where
  name : ∀ name ∈ names, IsName name
  extension : (⟨names⟩ : Path).hasClassExtension = true
  slash : ∀ name ∈ names, '/' ∉ name.toList
  directory : ∀ name ∈ names.dropLast, '.' ∉ name.toList
  stem : ∀ stem, names.getLast? = some (stem ++ ".class") → '.' ∉ stem.toList

theorem Tidy.of_all (hname : names.all (fun name => !Path.isVoid name && name ≠ ".." &&
      !name.toList.contains '/') = true) (hextension : (⟨names⟩ : Path).hasClassExtension = true)
    (hdirectory : names.dropLast.all (fun name => !name.toList.contains '.') = true)
    (hlast : (names.getLastD "").toList.count '.' ≤ 1) : Tidy names := by
  have hall : ∀ name ∈ names, IsName name ∧ '/' ∉ name.toList := by
    intro name hmem
    have hok := List.all_eq_true.mp hname name hmem
    simp only [Bool.and_eq_true, Bool.not_eq_true', decide_eq_true_eq] at hok
    exact ⟨⟨hok.1.1, hok.1.2⟩, fun hmem => by simp [hmem] at hok⟩
  refine ⟨fun name hmem => (hall name hmem).1, hextension, fun name hmem => (hall name hmem).2,
    fun name hmem => ?_, fun stem hstem => ?_⟩
  · have hok := List.all_eq_true.mp hdirectory name hmem
    simpa using hok
  · rw [List.getLastD_eq_getLast?, hstem, Option.getD_some, String.toList_append,
      List.count_append] at hlast
    have hone : ".class".toList.count '.' = 1 := by decide
    exact List.count_eq_zero.mp (by omega)

theorem Tidy.pathOf_binaryName (h : Tidy names) (root : Path) :
    ClassPath.pathOf root (⟨names⟩ : Path).binaryName = root.join ⟨names⟩ :=
  ClassPath.pathOf_binaryName root h.name h.extension h.slash h.directory h.stem

theorem Tidy.placeOf_binaryName (h : Tidy names) :
    ClassPath.placeOf (⟨names⟩ : Path).binaryName = names :=
  ClassPath.placeOf_binaryName h.name h.extension h.directory h.stem

theorem tidy_placeOf {name : String} (h : ClassPath.isWellFormed name = true) :
    Tidy (ClassPath.placeOf name) where
  name := ClassPath.isName_placeOf h
  extension := (ClassPath.binaryName_placeOf h).1
  slash segment hsegment hmem := by
    have hpart : ∀ {part : String}, part ∈ Text.split '.' name → '/' ∉ part.toList := by
      intro part hpart hmem
      rw [Text.split, List.mem_map] at hpart
      obtain ⟨piece, hpiece, rfl⟩ := hpart
      rw [String.toList_ofList] at hmem
      exact ClassPath.slash_not_mem h (Text.mem_of_mem_pieces hpiece hmem)
    rcases List.mem_append.mp hsegment with hsegment | hsegment
    · exact hpart (List.dropLast_subset _ hsegment) hmem
    · rw [List.mem_singleton.mp hsegment, String.toList_append] at hmem
      rcases List.mem_append.mp hmem with hmem | hmem
      · exact hpart (ClassPath.getLastD_mem_split name) hmem
      · exact absurd hmem (by decide)
  directory segment hsegment := by
    rw [ClassPath.placeOf, List.dropLast_concat] at hsegment
    exact ClassPath.dot_not_mem_split (List.dropLast_subset _ hsegment)
  stem stem hstem := by
    rw [ClassPath.placeOf, List.getLast?_concat, Option.some.injEq] at hstem
    have hlists := congrArg String.toList hstem
    rw [String.toList_append, String.toList_append] at hlists
    rw [← String.toList_inj.mp (List.append_cancel_right hlists)]
    exact ClassPath.dot_not_mem_split (ClassPath.getLastD_mem_split name)

/-- The names of a class file are tidy exactly if its name, which is a proper one, leads to them. -/
theorem tidy_iff (hwell : ClassPath.isWellFormed (⟨names⟩ : Path).binaryName = true) :
    Tidy names ↔ ClassPath.placeOf (⟨names⟩ : Path).binaryName = names := by
  constructor
  · exact Tidy.placeOf_binaryName
  · intro heq
    rw [← heq]
    exact tidy_placeOf hwell

/-- What a class that was processed went through. -/
structure Processed (newNames : Renaming) (output relative : Path) (cp : ClassPath) (t : FileTree)
    (found : String × Tally × ClassPath) (t' : FileTree) (path : Path) (data : Bytes)
    (c c' : ClassFile) (bytes : Bytes) : Prop where
  find : ClassPath.find t relative.binaryName cp = .ok path found.2.2
  contents : t.contents path = .ok data
  parsed : ClassFile.ofBytes data = .ok c
  checked : cp.verify = true → ClassPath.checkName relative.binaryName c = .ok ()
  renamed : c.rename newNames = .ok found.2.1 c'
  written : c'.toBytes = .ok bytes
  stored : ClassFile.store bytes (ClassPath.pathOf output relative.binaryName) t = .ok () t'
  name : found.1 = relative.binaryName

private theorem find_verify {name : String} {path : Path} {cp' : ClassPath}
    (h : ClassPath.find t name cp = .ok path cp') : cp'.verify = cp.verify := by
  rw [ClassPath.find] at h
  split at h
  · cases h
    rfl
  · simp only at h
    split_ifs at h
    obtain ⟨-, hcp'⟩ := EStateM.Result.ok.inj h
    rw [← hcp']

theorem load_steps {name : String} {c : ClassFile} {cp' : ClassPath}
    (h : ClassPath.load t name cp = .ok c cp') : ∃ path data,
      ClassPath.find t name cp = .ok path cp' ∧ t.contents path = .ok data ∧
      ClassFile.ofBytes data = .ok c ∧
      (cp.verify = true → ClassPath.checkName name c = .ok ()) := by
  rw [ClassPath.load] at h
  cases hfind : ClassPath.find t name cp with
  | error fault cp₁ =>
    rw [hfind] at h
    cases h
  | ok path cp₁ =>
    have hverify := find_verify hfind
    rw [hfind] at h
    simp only at h
    cases hclass : ClassPath.classAt t path with
    | error fault =>
      rw [hclass] at h
      cases h
    | ok c₁ =>
      rw [hclass] at h
      obtain ⟨data, hdata, hparsed⟩ := bind_eq_ok_iff.mp hclass
      simp only [hverify] at h
      cases hv : cp.verify with
      | false =>
        rw [hv, if_neg Bool.false_ne_true] at h
        cases h
        exact ⟨path, data, rfl, hdata, hparsed, fun htrue => absurd htrue Bool.false_ne_true⟩
      | true =>
        rw [hv, if_pos rfl] at h
        cases hname : ClassPath.checkName name c₁ with
        | error fault =>
          rw [hname] at h
          cases h
        | ok u =>
          rw [hname] at h
          cases h
          exact ⟨path, data, rfl, hdata, hparsed, fun _ => hname⟩

theorem processed_of_processClass (h : processClass newNames output relative cp t = .ok found t') :
    ∃ path data c c' bytes,
      Processed newNames output relative cp t found t' path data c c' bytes := by
  rw [processClass] at h
  cases hload : ClassPath.load t relative.binaryName cp with
  | error fault cp₁ =>
    rw [hload] at h
    cases h
  | ok c cp₁ =>
    obtain ⟨path, data, hfind, hdata, hparsed, hchecked⟩ := load_steps hload
    rw [hload] at h
    simp only at h
    cases hrename : c.rename newNames with
    | error fault c' =>
      rw [hrename] at h
      cases h
    | ok tally c' =>
      rw [hrename] at h
      simp only at h
      cases hbytes : c'.toBytes with
      | error fault =>
        rw [hbytes] at h
        cases h
      | ok bytes =>
        rw [hbytes] at h
        simp only at h
        cases hstore : ClassFile.store bytes (ClassPath.pathOf output relative.binaryName) t with
        | error fault t₁ =>
          rw [hstore] at h
          cases h
        | ok u t₁ =>
          rw [hstore] at h
          cases h
          exact ⟨path, data, c, c', bytes, hfind, hdata, hparsed, hchecked, hrename, hbytes, hstore,
            rfl⟩

/-- The file that is processed under a relative path holds the bytes: the file that the name of the
class leads to, or the one at the path if the path is tidy. -/
inductive Holds (t : FileTree) (cp : ClassPath) (relative : Path) (data : Bytes) : Prop where
  | found {path : Path} {cp' : ClassPath}
      (hfind : ClassPath.find t relative.binaryName cp = .ok path cp')
      (hdata : t.contents path = .ok data) : Holds t cp relative data
  | spelled {names : Place} (hrelative : relative = ⟨names⟩) (hnames : Tidy names) (hcp : cp.Sound)
      (hdata : t.contents (cp.root.join relative) = .ok data) : Holds t cp relative data

private theorem Holds.eq {path : Path} {data' : Bytes} {cp' : ClassPath}
    (h : Holds t cp relative data)
    (hfind : ClassPath.find t relative.binaryName cp = .ok path cp')
    (hdata : t.contents path = .ok data') : data = data' := by
  cases h with
  | found hfind' hdata' =>
    cases hfind.symm.trans hfind'
    cases hdata.symm.trans hdata'
    rfl
  | spelled hrelative hnames hcp hdata' =>
    obtain ⟨hpath, -⟩ := ClassPath.find_ok hcp hfind
    rw [hpath, hrelative, hnames.pathOf_binaryName, ← hrelative, hdata'] at hdata
    cases hdata
    rfl

/-- Renaming bytes fails exactly if the class in them cannot be read or renamed. Otherwise it gives
the bytes that the renamed class is written as, which are read as the renamed class and, if no site
changed, are the bytes it was given; and a pass that processes a file with these bytes writes just
them. -/
theorem renameBytes_agrees (newNames : Renaming) (data : Bytes) :
    (∀ fault, ClassFile.renameBytes newNames data = .error fault ↔
      ClassFile.ofBytes data = .error fault ∨
        ∃ c c', ClassFile.ofBytes data = .ok c ∧ c.rename newNames = .error fault c') ∧
    ∀ c tally c', ClassFile.ofBytes data = .ok c → c.rename newNames = .ok tally c' →
      ∃ bytes, c'.toBytes = .ok bytes ∧ ClassFile.renameBytes newNames data = .ok bytes ∧
        (tally.renamed = 0 → bytes = data) ∧ ClassFile.ofBytes bytes = .ok c' ∧
        ∀ t cp output relative found t', Holds t cp relative data →
          processClass newNames output relative cp t = .ok found t' →
          found.1 = relative.binaryName ∧ found.2.1 = tally ∧
          ∃ q, t'.lookup true (ClassPath.pathOf output relative.binaryName) = .ok (q, .file bytes) ∧
            ∀ r ≠ q, t'.at? r = t.at? r ∨ t.at? r = none ∧ t'.at? r = some .directory := by
  refine ⟨fun fault => ClassFile.renameBytes_eq_error_iff, fun c tally c' hc hrename => ?_⟩
  obtain ⟨bytes, hbytes, hrenamed, hsame, hread⟩ := ClassFile.renameBytes_of_rename hc hrename
  refine ⟨bytes, hbytes, hrenamed, hsame, hread, ?_⟩
  intro t cp output relative found t' hholds hprocess
  obtain ⟨path, data', c₁, c₁', bytes', hsteps⟩ := processed_of_processClass hprocess
  have hdata := hholds.eq hsteps.find hsteps.contents
  subst hdata
  cases hc.symm.trans hsteps.parsed
  have hrun := hrename.symm.trans hsteps.renamed
  cases hrun
  cases hbytes.symm.trans hsteps.written
  exact ⟨hsteps.name, rfl, store_found hsteps.stored⟩

section Sample

def fieldSample : Bytes :=
  ClassFile.magic ++ [0, 0, 0, 52] ++ [0, 4, 1, 0, 1, 65, 7, 0, 1, 1, 0, 3, 76, 65, 59] ++
    [0, 0x21, 0, 2, 0, 0] ++ [0, 0] ++ [0, 1, 0, 0, 0, 1, 0, 3, 0, 0] ++ [0, 0] ++ [0, 0]

def linkedSample : FileTree :=
  FileTree.empty |>.set ["classes"] .directory
    |>.set ["classes", "A.class"] (.file fieldSample)
    |>.set ["in"] (.link ⟨["classes"]⟩)

def linkedNames : Renaming := .ofList [("A", "C")]

theorem ok_of_run' {ε σ α : Type} {step : EStateM ε σ α} {s : σ}
    (h : (step.run' s).isSome = true) : ∃ a s', step s = .ok a s' := by
  delta EStateM.run' EStateM.run at h
  cases hstep : step s with
  | ok a s' => exact ⟨a, s', rfl⟩
  | error fault s' =>
    simp only [hstep] at h
    cases h

/-- The class is renamed at two sites, and what a pass writes for it is found below the output. -/
theorem renameBytes_fieldSample : ∃ c tally c' bytes found t' q,
    ClassFile.ofBytes fieldSample = .ok c ∧ c.rename linkedNames = .ok tally c' ∧
    tally.renamed = 2 ∧ ClassFile.renameBytes linkedNames fieldSample = .ok bytes ∧
    ClassFile.ofBytes bytes = .ok c' ∧
    processClass linkedNames ⟨["out"]⟩ ⟨["A.class"]⟩ (.new ⟨["in"]⟩ true) linkedSample =
      .ok found t' ∧
    found.2.1 = tally ∧
    t'.lookup true (ClassPath.pathOf ⟨["out"]⟩ (⟨["A.class"]⟩ : Path).binaryName) =
      .ok (q, .file bytes) := by
  have hrun : ((ClassFile.ofBytes fieldSample).toOption.bind fun c =>
      ((ClassFile.rename linkedNames).run' c).map fun tally => tally.renamed) = some 2 := by
    decide +kernel
  have hdone : ((processClass linkedNames ⟨["out"]⟩ ⟨["A.class"]⟩
      (.new ⟨["in"]⟩ true)).run' linkedSample).isSome = true := by
    decide +kernel
  have hcontents : linkedSample.contents (Path.join ⟨["in"]⟩ ⟨["A.class"]⟩) = .ok fieldSample := by
    decide +kernel
  have htidy : Tidy ["A.class"] := .of_all (by decide) (by decide) (by decide) (by decide)
  have hholds : Holds linkedSample (.new ⟨["in"]⟩ true) ⟨["A.class"]⟩ fieldSample :=
    .spelled rfl htidy (ClassPath.sound_new _ _) hcontents
  cases hc : ClassFile.ofBytes fieldSample with
  | error fault =>
    rw [hc] at hrun
    cases hrun
  | ok c =>
    simp only [hc, Except.toOption, Option.bind_some] at hrun
    delta EStateM.run' EStateM.run at hrun
    cases hrename : c.rename linkedNames with
    | error fault c' =>
      simp only [hrename] at hrun
      cases hrun
    | ok tally c' =>
      simp only [hrename, Option.map_some, Option.some.injEq] at hrun
      obtain ⟨found, t', hprocess⟩ := ok_of_run' hdone
      obtain ⟨bytes, -, hbytes, -, hread, hfile⟩ :=
        (renameBytes_agrees linkedNames fieldSample).2 c tally c' hc hrename
      obtain ⟨-, htally, q, hfound, -⟩ := hfile _ _ _ _ found t' hholds hprocess
      exact ⟨c, tally, c', bytes, found, t', q, rfl, hrename, hrun, hbytes, hread, hprocess, htally,
        hfound⟩

end Sample

end Retarget.Pass
