import Retarget.Proofs.Pass.Itself

/-!
Loading classes by name. Whatever a directory of classes was asked for before,
and in whatever trees, a name leads to one file below it. With names checked, a
class is loaded exactly if this file holds it and the name that it declares,
with dots for slashes, is the one asked for. A declared name that has dots of
its own passes too, as the slashes and the dots are then no longer told apart.
-/

set_option autoImplicit false

namespace Retarget

namespace Text

private theorem exchange_exchange_iff {a b : Char} {s : String} (hne : a ≠ b) :
    exchange a b (exchange b a s) = s ↔ a ∉ s.toList := by
  rw [exchange, exchange, String.toList_ofList, List.map_map, ← String.toList_inj,
    String.toList_ofList]
  constructor
  · intro h hmem
    have hsame := List.map_inj_left.mp (h.trans (List.map_id _).symm) a hmem
    simp [hne, hne.symm] at hsame
  · intro hmem
    refine (List.map_congr_left fun c hc => ?_).trans (List.map_id _)
    have hca : c ≠ a := fun heq => hmem (heq ▸ hc)
    by_cases hcb : c = b <;> simp [hca, hcb]

end Text

namespace ClassPath

/-- What a directory of classes is asked for, and whether it is to check names from now on. -/
inductive Request where
  | verify (on : Bool)
  | find (name : String)
  | load (name : String)

def after (t : FileTree) (request : Request) (cp : ClassPath) : ClassPath :=
  match request with
  | .verify on => { cp with verify := on }
  | .find name =>
    match find t name cp with
    | .ok _ cp' | .error _ cp' => cp'
  | .load name =>
    match load t name cp with
    | .ok _ cp' | .error _ cp' => cp'

/-- A new directory of classes after requests, each with the tree as it was then. -/
def used (root : Path) (requests : List (FileTree × Request)) : ClassPath :=
  requests.foldl (fun cp request => after request.1 request.2 cp) (new root true)

variable {t : FileTree} {cp cp' : ClassPath} {root : Path} {name : String} {path : Path}
  {c : ClassFile} {fault : Fault} {requests : List (FileTree × Request)}

private theorem find_error (h : find t name cp = .error fault cp') : cp' = cp := by
  rw [find] at h
  split at h
  · cases h
  · simp only at h
    split_ifs at h
    cases h
    rfl

private theorem after_load (t : FileTree) (name : String) (cp : ClassPath) :
    after t (.load name) cp = after t (.find name) cp := by
  simp only [after, load]
  cases find t name cp with
  | error fault cp' => rfl
  | ok path cp' =>
    dsimp only
    cases classAt t path with
    | error fault => rfl
    | ok c =>
      dsimp only
      split_ifs
      · cases checkName name c <;> rfl
      · rfl

private theorem grown_after (t : FileTree) (request : Request) (hcp : cp.Grown) :
    (after t request cp).Grown ∧ (after t request cp).root = cp.root := by
  have hfind : ∀ name, (after t (.find name) cp).Grown ∧
      (after t (.find name) cp).root = cp.root := by
    intro name
    rw [after]
    cases hfound : find t name cp with
    | error fault cp' =>
      cases find_error hfound
      exact ⟨hcp, rfl⟩
    | ok path cp' =>
      obtain ⟨-, hroot, -, hcp'⟩ := find_grown hcp hfound
      exact ⟨hcp', hroot⟩
  cases request with
  | verify on => exact ⟨hcp, rfl⟩
  | find name => exact hfind name
  | load name =>
    rw [after_load]
    exact hfind name

private theorem grown_used (root : Path) (requests : List (FileTree × Request)) :
    (used root requests).Grown ∧ (used root requests).root = root := by
  induction requests using List.reverseRecOn with
  | nil => exact ⟨grown_new root true, rfl⟩
  | append_singleton requests request ih =>
    obtain ⟨hgrown, hroot⟩ := ih
    obtain ⟨hgrown', hroot'⟩ := grown_after request.1 request.2 hgrown
    rw [used, List.foldl_append]
    exact ⟨hgrown', hroot'.trans hroot⟩

private theorem checkName_ok_iff : checkName name c = .ok () ↔
    ∃ declared, c.name = .ok declared ∧ Text.exchange '/' '.' declared = name := by
  rw [checkName, ClassFile.binaryName]
  cases c.name with
  | error fault => simp
  | ok declared => simp

private theorem load_ok_iff (hcp : cp.Grown) : (∃ cp', load t name cp = .ok c cp') ↔
    isWellFormed name = true ∧ classAt t (pathOf cp.root name) = .ok c ∧
      (cp.verify = true → checkName name c = .ok ()) := by
  constructor
  · rintro ⟨cp', h⟩
    obtain ⟨path, data, hfind, hdata, hparsed, hcheck⟩ := Pass.load_steps h
    obtain ⟨⟨rfl, hname⟩, -⟩ := find_grown hcp hfind
    exact ⟨hname, bind_eq_ok_iff.mpr ⟨data, hdata, hparsed⟩, hcheck⟩
  · rintro ⟨hname, hclass, hcheck⟩
    exact exists_load hcp hname hclass hcheck

/-- With names checked, a name is loaded exactly if it is a proper one, its file holds a class, and
this declares it when its slashes count as dots. The declared name is the one asked for, with slashes,
exactly if it has no dots. -/
theorem load_declares (t : FileTree) (name : String) (c : ClassFile)
    (hverify : (used root requests).verify = true) :
    ((∃ cp', load t name (used root requests) = .ok c cp') ↔ isWellFormed name = true ∧
      ∃ data declared, t.contents (root.join ⟨placeOf name⟩) = .ok data ∧
        ClassFile.ofBytes data = .ok c ∧ c.name = .ok declared ∧
        Text.exchange '/' '.' declared = name) ∧
    ∀ declared, Text.exchange '/' '.' declared = name →
      (declared = Text.exchange '.' '/' name ↔ '.' ∉ declared.toList) := by
  obtain ⟨hgrown, hroot⟩ := grown_used root requests
  constructor
  · rw [load_ok_iff hgrown, hroot]
    apply and_congr_right
    intro hname
    rw [pathOf_eq root hname, checkName_ok_iff, forall_prop_of_true hverify]
    constructor
    · rintro ⟨hclass, declared, hdeclared, hsame⟩
      obtain ⟨data, hdata, hparsed⟩ := bind_eq_ok_iff.mp hclass
      exact ⟨data, declared, hdata, hparsed, hdeclared, hsame⟩
    · rintro ⟨data, declared, hdata, hparsed, hdeclared, hsame⟩
      exact ⟨bind_eq_ok_iff.mpr ⟨data, hdata, hparsed⟩, declared, hdeclared, hsame⟩
  · rintro declared rfl
    exact eq_comm.trans (Text.exchange_exchange_iff (by decide))

def dottedName : FileTree :=
  FileTree.empty |>.set ["in"] .directory
    |>.set ["in", "a"] .directory
    |>.set ["in", "a", "b.class"] (.file (Pass.namedClass "a.b"))

/-- It is found and loaded, and does not declare the name `a/b`. -/
theorem load_declares_dottedName :
    (used ⟨["in"]⟩ [(dottedName, .find "a.b")]).verify = true ∧ ∃ c cp',
      load dottedName "a.b" (used ⟨["in"]⟩ [(dottedName, .find "a.b")]) = .ok c cp' ∧
      c.name = .ok "a.b" ∧ "a.b" ≠ Text.exchange '.' '/' "a.b" := by
  have hverify : (used ⟨["in"]⟩ [(dottedName, .find "a.b")]).verify = true := by decide +kernel
  have hdata : dottedName.contents ⟨["in", "a", "b.class"]⟩ = .ok (Pass.namedClass "a.b") := by
    decide +kernel
  have hname : (ClassFile.ofBytes (Pass.namedClass "a.b")).bind ClassFile.name = .ok "a.b" := by
    decide +kernel
  obtain ⟨c, hparsed, hdeclared⟩ := bind_eq_ok_iff.mp hname
  obtain ⟨hload, hsame⟩ := load_declares dottedName "a.b" c hverify
  obtain ⟨cp', hloaded⟩ :=
    hload.mpr ⟨by decide, _, _, hdata, hparsed, hdeclared, by decide⟩
  refine ⟨hverify, c, cp', hloaded, hdeclared, ?_⟩
  exact fun heq => (hsame "a.b" (by decide)).mp heq (by decide)

end ClassPath

end Retarget
