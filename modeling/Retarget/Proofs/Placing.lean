import Retarget.Proofs.Files.Footprint
import Retarget.Proofs.Pass.Confined
import Retarget.Proofs.Pass.Itself

/-!
Where a class is written by the name that it declares. The path is the root with
the segments of the name behind it, whatever these are: it never starts anew, and
empty segments and dots do not count, but a segment that goes up does. So it is
the root with names behind it exactly if the package of the class has no such
segment, and then nothing is written but below the root. Otherwise it is written
where the segments lead, which may be beside the root.
-/

set_option autoImplicit false

namespace Retarget

open Retarget.Path (IsName isVoid)

namespace Path

variable {base root : Path} {segment : String} {steps front : List String}

private theorem isAbsolute_singleton (segment : String) :
    (⟨[segment]⟩ : Path).isAbsolute = false := by
  rw [isAbsolute]
  split
  · next hsegments => cases hsegments
  · rfl

private theorem child_of_isEmpty (h : base.isEmpty = true) (segment : String) :
    base.child segment = ⟨[segment]⟩ := by
  rw [child, join, h, Bool.or_true, if_pos rfl]

private theorem segments_child (base : Path) (segment : String) :
    ∃ front, (base.child segment).segments = front ++ [segment] ∧
      (front.filter fun s => !isVoid s) = base.segments.filter fun s => !isVoid s := by
  cases hempty : base.isEmpty with
  | true =>
    rw [child_of_isEmpty hempty]
    refine ⟨[], rfl, ?_⟩
    rcases isEmpty_iff.mp hempty with hnil | hvoid
    · rw [hnil]
    · rw [hvoid]
      rfl
  | false =>
    obtain ⟨front, slash, hsegments, hslash, -, hjoin⟩ :=
      segments_join hempty (isAbsolute_singleton segment)
    refine ⟨front, hjoin, ?_⟩
    rw [hsegments, List.filter_append]
    rcases hslash with rfl | rfl <;> exact (List.append_nil _).symm

/-- What a path starts with counts as the root or a dot only there. -/
def startOf? (first : String) : Option Component :=
  if first = "" then some .root else if first = "." then some .current
  else Component.ofSegment? first

private theorem components_cons {first : String} {rest : List String} (h : first = "" → rest ≠ []) :
    (⟨first :: rest⟩ : Path).components =
      (startOf? first).toList ++ rest.filterMap Component.ofSegment? := by
  by_cases hroot : first = ""
  · subst hroot
    exact components_rooted (h rfl)
  · by_cases hdot : first = "."
    · subst hdot
      rfl
    · have hfirst : isVoid first = false := by simp [isVoid, hroot, hdot]
      rw [components_of_first hfirst, startOf?, if_neg hroot, if_neg hdot, List.filterMap_cons,
        ofSegment?_of_not_isVoid hfirst]
      rfl

private theorem components_child (hbase : base.isEmpty = false) (segment : String) :
    (base.child segment).components =
        base.components ++ (Component.ofSegment? segment).toList ∧
      (base.child segment).isEmpty = false := by
  obtain ⟨front, slash, hsegments, hslash, hne, hjoin⟩ :=
    segments_join hbase (isAbsolute_singleton segment)
  obtain ⟨first, rest, rfl⟩ := List.exists_cons_of_ne_nil hne
  have hstart : first = "" → rest ++ slash ≠ [] := by
    rintro rfl hnil
    refine Bool.false_ne_true (hbase.symm.trans (isEmpty_iff.mpr (.inr ?_)))
    rw [hsegments, List.cons_append, hnil]
  have hvoid : slash.filterMap Component.ofSegment? = [] := by
    rcases hslash with rfl | rfl <;> rfl
  have hchild : base.child segment = ⟨first :: (rest ++ [segment])⟩ := by
    rw [← List.cons_append, ← hjoin]
    rfl
  have hbase' : base = ⟨first :: (rest ++ slash)⟩ := by
    rw [← List.cons_append, ← hsegments]
  constructor
  · rw [hchild, components_cons (by simp), hbase',
      components_cons hstart, List.filterMap_append, List.filterMap_append, hvoid, List.append_nil,
      List.append_assoc]
    cases hstep : Component.ofSegment? segment <;> simp [hstep]
  · rw [hchild, Bool.eq_false_iff, Ne, isEmpty_iff]
    simp

private theorem components_foldl_child (hbase : base.isEmpty = false) (steps : List String) :
    (steps.foldl child base).components =
      base.components ++ steps.filterMap Component.ofSegment? := by
  induction steps generalizing base with
  | nil => exact (List.append_nil _).symm
  | cons step steps ih =>
    obtain ⟨hcomponents, hchild⟩ := components_child hbase step
    rw [List.foldl_cons, ih hchild, hcomponents, List.append_assoc]
    cases hstep : Component.ofSegment? step <;> simp [hstep]

/-- Whether a dot comes first that counts: below an empty root, as the first segment that is not
empty. -/
def StartsWithDot (root : Path) (steps : List String) : Prop :=
  root.isEmpty = true ∧ (steps.dropWhile (· = "")).head? = some "."

instance (root : Path) (steps : List String) : Decidable (StartsWithDot root steps) :=
  inferInstanceAs (Decidable (_ ∧ _))

theorem components_of_isEmpty (h : base.isEmpty = true) : base.components = [] := by
  obtain ⟨segments⟩ := base
  rcases isEmpty_iff.mp h with rfl | rfl <;> rfl

private theorem components_below (root : Path) (steps : List String) :
    (steps.foldl child root).components = root.components ++
      ((if StartsWithDot root steps then [.current] else []) ++
        steps.filterMap Component.ofSegment?) := by
  cases hroot : root.isEmpty with
  | false =>
    have hstart : ¬ StartsWithDot root steps := fun h => Bool.false_ne_true (hroot.symm.trans h.1)
    rw [if_neg hstart, components_foldl_child hroot]
    rfl
  | true =>
    rw [components_of_isEmpty hroot, List.nil_append]
    induction steps generalizing root with
    | nil =>
      have hnone : ¬ StartsWithDot root [] := fun h => by cases h.2
      rw [if_neg hnone]
      exact components_of_isEmpty hroot
    | cons step steps ih =>
      rw [List.foldl_cons, child_of_isEmpty hroot]
      by_cases hempty : step = ""
      · subst hempty
        have hstart : StartsWithDot root ("" :: steps) ↔ StartsWithDot ⟨[""]⟩ steps :=
          and_congr (iff_of_true hroot rfl) Iff.rfl
        rw [if_congr hstart rfl rfl]
        exact ih ⟨[""]⟩ rfl
      · have hne : (⟨[step]⟩ : Path).isEmpty = false := by simp [isEmpty, hempty]
        rw [components_foldl_child hne, components_cons fun h => absurd h hempty]
        by_cases hdot : step = "."
        · subst hdot
          rw [if_pos ⟨hroot, rfl⟩]
          rfl
        · have hstart : ¬ StartsWithDot root (step :: steps) := by
            rintro ⟨-, hhead⟩
            rw [List.dropWhile_cons_of_neg (by simpa using hempty)] at hhead
            exact hdot (Option.some.inj hhead)
          rw [if_neg hstart, startOf?, if_neg hempty, if_neg hdot]
          cases hstep : Component.ofSegment? step <;> simp [hstep]

private theorem root_not_mem (root : Path) (steps : List String) : Component.root ∉
    (if StartsWithDot root steps then [Component.current] else []) ++
      steps.filterMap Component.ofSegment? := by
  intro hmem
  rcases List.mem_append.mp hmem with hdot | hstep
  · split_ifs at hdot
    · cases List.mem_singleton.mp hdot
    · cases hdot
  · obtain ⟨s, -, hs⟩ := List.mem_filterMap.mp hstep
    rw [Component.ofSegment?] at hs
    split_ifs at hs <;> cases hs

private theorem filter_foldl_child (root : Path) (steps : List String) :
    ((steps.foldl child root).segments.filter fun s => !isVoid s) =
      (root.segments ++ steps).filter fun s => !isVoid s := by
  induction steps generalizing root with
  | nil => rw [List.append_nil]; rfl
  | cons step steps ih =>
    obtain ⟨front, hchild, hfront⟩ := segments_child root step
    rw [List.foldl_cons, ih, hchild, List.filter_append, List.filter_append, hfront,
      ← List.filter_append, ← List.filter_append, List.append_assoc]
    rfl

end Path

namespace ClassFile

open FileTree Pass

variable {t t' : FileTree} {c : ClassFile} {root p : Path} {name : String} {q b : Place}
  {steps front : List String}

def packageOf (name : String) : List String := (Text.split '/' name).dropLast

def fileOf (name : String) : String := (Text.split '/' name).getLastD "" ++ ".class"

def stepsOf (name : String) : List String := packageOf name ++ [fileOf name]

private theorem pathBelow_eq (root : Path) (name : String) :
    pathBelow root name = (stepsOf name).foldl Path.child root := by
  rw [stepsOf, List.foldl_append]
  rfl

private theorem isName_fileOf (name : String) : IsName (fileOf name) := Path.isName_class _

section Spelled

private theorem parent_mem_iff : ".." ∈ stepsOf name ↔ ".." ∈ packageOf name := by
  have hfile : ".." ≠ fileOf name := (isName_fileOf name).2.symm
  rw [stepsOf, List.mem_append, List.mem_singleton, or_iff_left hfile]

private theorem names_below_iff (root : Path) (name : String) :
    (∃ names : List String, names ≠ [] ∧
      (pathBelow root name).components = root.components ++ names.map .normal) ↔
    ".." ∉ packageOf name ∧ ¬ Path.StartsWithDot root (stepsOf name) := by
  rw [pathBelow_eq, Path.components_below, ← parent_mem_iff]
  constructor
  · rintro ⟨names, -, h⟩
    have hall := List.append_cancel_left h
    have hnormal : ∀ step ∈ (if Path.StartsWithDot root (stepsOf name) then [Component.current]
        else []) ++ (stepsOf name).filterMap Component.ofSegment?, step.isNormal = true := by
      intro step hstep
      rw [hall] at hstep
      obtain ⟨s, -, rfl⟩ := List.mem_map.mp hstep
      rfl
    constructor
    · intro hmem
      have hparent : Component.parent ∈ (stepsOf name).filterMap Component.ofSegment? :=
        List.mem_filterMap.mpr ⟨"..", hmem, rfl⟩
      cases hnormal _ (List.mem_append_right _ hparent)
    · intro hdot
      rw [if_pos hdot] at hnormal
      cases hnormal .current List.mem_cons_self
  · rintro ⟨hup, hdot⟩
    refine ⟨(stepsOf name).filter fun s => !isVoid s, ?_, ?_⟩
    · have hfile : fileOf name ∈ (stepsOf name).filter fun s => !isVoid s := by
        refine List.mem_filter.mpr ⟨List.mem_append_right _ List.mem_cons_self, ?_⟩
        rw [(isName_fileOf name).1]
        rfl
      exact List.ne_nil_of_mem hfile
    · have hnames : ∀ s ∈ (stepsOf name).filter (fun s => !isVoid s), IsName s := by
        intro s hs
        obtain ⟨hmem, hvoid⟩ := List.mem_filter.mp hs
        exact ⟨Bool.not_eq_true' _ ▸ hvoid, fun heq => hup (heq ▸ hmem)⟩
      rw [if_neg hdot, List.nil_append, Path.filterMap_ofSegment?,
        Component.map_ofWay_names hnames]

end Spelled

section Written

private theorem segments_pathBelow (root : Path) (name : String) :
    ∃ front, (pathBelow root name).segments = front ++ [fileOf name] ∧
      (front.filter fun s => !isVoid s) =
        (root.segments ++ packageOf name).filter fun s => !isVoid s := by
  obtain ⟨front, hsegments, hfront⟩ :=
    Path.segments_child ((packageOf name).foldl Path.child root) (fileOf name)
  exact ⟨front, hsegments, hfront.trans (Path.filter_foldl_child root _)⟩

private theorem reaches_pathBelow_iff : t.Reaches [] (pathBelow root name).segments q ↔
    t.Reaches [] (root.segments ++ stepsOf name) q := by
  refine reaches_congr ?_
  rw [pathBelow_eq, Path.filter_foldl_child]

private theorem writeBelow_ok_iff (hname : c.name = .ok name) : writeBelow root c t = .ok p t' ↔
    p = pathBelow root name ∧ ∃ bytes, c.toBytes = .ok bytes ∧
      store bytes (pathBelow root name) t = .ok () t' := by
  rw [writeBelow, filePath, hname]
  dsimp only
  cases c.toBytes with
  | error fault => simp
  | ok bytes =>
    simp only [Except.ok.injEq, exists_eq_left']
    cases store bytes (pathBelow root name) t with
    | error fault t₁ => simp
    | ok u t₁ => simp [eq_comm]

private theorem writeBelow_error {fault : Fault} (hname : c.name = .ok name)
    (h : writeBelow root c t = .error fault t') : t' = t ∨ ∃ bytes, c.toBytes = .ok bytes ∧
      store bytes (pathBelow root name) t = .error fault t' := by
  rw [writeBelow, filePath, hname] at h
  dsimp only at h
  cases hbytes : c.toBytes with
  | error fault =>
    rw [hbytes] at h
    cases h
    exact .inl rfl
  | ok bytes =>
    rw [hbytes] at h
    dsimp only at h
    cases hstore : store bytes (pathBelow root name) t with
    | ok u t₁ =>
      rw [hstore] at h
      cases h
    | error fault' t₁ =>
      rw [hstore] at h
      cases h
      exact .inr ⟨bytes, rfl, hstore⟩

private theorem ends_writeBelow (hname : c.name = .ok name) (h : Ends (writeBelow root c) t t') :
    t' = t ∨ ∃ bytes, c.toBytes = .ok bytes ∧
      (store bytes (pathBelow root name) t = .ok () t' ∨
        ∃ fault, store bytes (pathBelow root name) t = .error fault t') := by
  rcases h with ⟨p, h⟩ | ⟨fault, h⟩
  · obtain ⟨-, bytes, hbytes, hstore⟩ := (writeBelow_ok_iff hname).mp h
    exact .inr ⟨bytes, hbytes, .inl hstore⟩
  · rcases writeBelow_error hname h with hsame | ⟨bytes, hbytes, hstore⟩
    · exact .inl hsame
    · exact .inr ⟨bytes, hbytes, .inr ⟨fault, hstore⟩⟩

private theorem changed_by_writeBelow (hname : c.name = .ok name)
    (h : Ends (writeBelow root c) t t')
    (hq : t'.at? q ≠ t.at? q) :
    (t.at? q = none ∧ t'.at? q = some .directory ∧
      t.Passes [] (root.segments ++ packageOf name) q) ∨
    ∃ bytes, c.toBytes = .ok bytes ∧ t'.at? q = some (.file bytes) ∧
      t.Reaches [] (root.segments ++ stepsOf name) q := by
  obtain rfl | ⟨bytes, hbytes, hstore⟩ := ends_writeBelow hname h
  · exact absurd rfl hq
  · obtain ⟨front, hsegments, hfront⟩ := segments_pathBelow root name
    rcases changed_by_store (isName_fileOf name) hsegments hstore hq with
      ⟨hnone, hnew, hpasses⟩ | ⟨hnew, hreach⟩
    · exact .inl ⟨hnone, hnew, hpasses.congr hfront⟩
    · exact .inr ⟨bytes, hbytes, hnew, reaches_pathBelow_iff.mp hreach⟩

private theorem found_of_writeBelow (hname : c.name = .ok name)
    (h : writeBelow root c t = .ok p t') :
    p = pathBelow root name ∧ ∃ q bytes, c.toBytes = .ok bytes ∧
      t'.lookup true (pathBelow root name) = .ok (q, .file bytes) ∧
      t.Reaches [] (root.segments ++ stepsOf name) q := by
  obtain ⟨hp, bytes, hbytes, hstore⟩ := (writeBelow_ok_iff hname).mp h
  obtain ⟨t₁, hadds, hwrite⟩ := write_of_store hstore
  obtain ⟨q, hreach, -, -, -, -, hlookup⟩ := write_found hwrite
  exact ⟨hp, q, bytes, hbytes, hlookup,
    reaches_pathBelow_iff.mp (hreach.congr hadds.link_iff.symm)⟩

private theorem below_of_passes (hlinkless : t.LinklessBelow root) (hup : ".." ∉ steps)
    (h : t.Passes [] (root.segments ++ steps) q) :
    (∃ b names, t.Reaches [] root.segments b ∧ names ≠ [] ∧ q = b ++ names) ∨
      t.Passes [] root.segments q := by
  obtain ⟨front, hfront, hreach⟩ := h
  rcases List.prefix_or_prefix_of_prefix hfront (List.prefix_append root.segments steps) with
    hroot | ⟨more, rfl⟩
  · exact .inr ⟨front, hroot, hreach⟩
  · have hmore : more <+: steps := (List.prefix_append_right_inj root.segments).mp hfront
    obtain ⟨b, hb, hreach⟩ := hreach.split
    obtain ⟨names, rfl⟩ := hreach.descends (hlinkless b hb) fun hmem => hup (hmore.subset hmem)
    -- going down no step at all ends where the root leads, which is still on the way
    by_cases hnames : names = []
    · subst hnames
      rw [List.append_nil]
      exact .inr ⟨root.segments, List.prefix_rfl, hb⟩
    · exact .inl ⟨b, names, hb, hnames, rfl⟩

private theorem below_of_reaches (hlinkless : t.LinklessBelow root) (hup : ".." ∉ steps)
    {last : String}
    (hlast : IsName last) (h : t.Reaches [] (root.segments ++ (steps ++ [last])) q) :
    ∃ b names, t.Reaches [] root.segments b ∧ names ≠ [] ∧ q = b ++ names := by
  obtain ⟨b, hb, hsteps⟩ := h.split
  obtain ⟨d, hd, hfile⟩ := hsteps.split
  obtain ⟨names, rfl⟩ := hd.descends (hlinkless b hb) hup
  cases hfile with
  | pass hlink hrest =>
    cases hrest
    rw [Path.step_name hlast, List.append_assoc]
    exact ⟨b, names ++ [last], hb, append_singleton_ne_nil _ _, rfl⟩
  | link hname hat =>
    -- a link that bears the name of the file would lead out, but below the root there is none
    rw [List.append_assoc] at hat
    exact absurd hat (hlinkless b hb _ _)

/-- A class is written at a path that follows its root and never starts anew. What follows are names
exactly if no segment of the package goes up and no dot counts. However the writing ends, directories
are made where the root and the package lead over, and the file is written where the name leads to;
without links and segments that go up that is below the root. If it succeeds, the class is found
there. -/
theorem placed_by_name (h : c.filePath root = .ok p) : ∃ name, c.name = .ok name ∧
    (∃ more, p.components = root.components ++ more ∧ Component.root ∉ more) ∧
    ((∃ names : List String, names ≠ [] ∧ p.components = root.components ++ names.map .normal) ↔
      ".." ∉ packageOf name ∧ ¬ Path.StartsWithDot root (stepsOf name)) ∧
    ∀ t t', Ends (writeBelow root c) t t' →
      (∀ q, t'.at? q ≠ t.at? q →
        (t.at? q = none ∧ t'.at? q = some .directory ∧
          t.Passes [] (root.segments ++ packageOf name) q) ∨
        ∃ bytes, c.toBytes = .ok bytes ∧ t'.at? q = some (.file bytes) ∧
          t.Reaches [] (root.segments ++ stepsOf name) q) ∧
      (".." ∉ packageOf name → t.LinklessBelow root → ∀ q, t'.at? q ≠ t.at? q →
        (∃ b names, t.Reaches [] root.segments b ∧ names ≠ [] ∧ q = b ++ names) ∨
          t.at? q = none ∧ t'.at? q = some .directory ∧ t.Passes [] root.segments q) ∧
      ∀ p', writeBelow root c t = .ok p' t' → p' = p ∧ ∃ q bytes, c.toBytes = .ok bytes ∧
        t'.lookup true p = .ok (q, .file bytes) ∧
        t.Reaches [] (root.segments ++ stepsOf name) q ∧
        ((∀ r target, t.at? r ≠ some (.link target)) → q = Path.walk root.place (stepsOf name)) := by
  rw [filePath] at h
  cases hname : c.name with
  | error fault =>
    rw [hname] at h
    cases h
  | ok name =>
    rw [hname] at h
    cases h
    refine ⟨name, rfl, ?_, names_below_iff root name, fun t t' hends => ⟨?_, ?_, ?_⟩⟩
    · rw [pathBelow_eq, Path.components_below]
      exact ⟨_, rfl, Path.root_not_mem root (stepsOf name)⟩
    · exact fun q hq => changed_by_writeBelow hname hends hq
    · intro hup hlinkless q hq
      obtain ⟨hnone, hnew, hpasses⟩ | ⟨bytes, -, -, hreach⟩ := changed_by_writeBelow hname hends hq
      · rcases below_of_passes hlinkless hup hpasses with hbelow | hroot
        · exact .inl hbelow
        · exact .inr ⟨hnone, hnew, hroot⟩
      · exact .inl (below_of_reaches hlinkless hup (isName_fileOf name) hreach)
    · intro p' hwrite
      obtain ⟨rfl, q, bytes, hbytes, hlookup, hreach⟩ := found_of_writeBelow hname hwrite
      refine ⟨rfl, q, bytes, hbytes, hlookup, hreach, fun hlinks => ?_⟩
      rw [Path.place, ← Path.walk_append]
      exact hreach.unique (.of_no_link hlinks)

/-- A class whose name goes up is written beside its root. -/
theorem placed_by_name_beside : ∃ c p t', ofBytes (namedClass "../A") = .ok c ∧
    c.filePath ⟨["out"]⟩ = .ok p ∧
    (¬ ∃ names : List String, names ≠ [] ∧ p.components = [.normal "out"] ++ names.map .normal) ∧
    writeBelow ⟨["out"]⟩ c (FileTree.empty.set ["out"] .directory) = .ok p t' ∧
    t'.lookup true p = .ok (["A.class"], .file (namedClass "../A")) := by
  have hpath : (ofBytes (namedClass "../A")).bind (filePath ⟨["out"]⟩) =
      .ok ⟨["out", "..", "A.class"]⟩ := by decide +kernel
  have hsame : (ofBytes (namedClass "../A")).bind toBytes = .ok (namedClass "../A") := by
    decide +kernel
  have hname : (ofBytes (namedClass "../A")).bind ClassFile.name = .ok "../A" := by decide +kernel
  obtain ⟨c, hparsed, hpath⟩ := bind_eq_ok_iff.mp hpath
  rw [hparsed] at hsame hname
  have hdone : ((store (namedClass "../A") ⟨["out", "..", "A.class"]⟩).run'
      (FileTree.empty.set ["out"] .directory)).isSome = true := by decide +kernel
  obtain ⟨u, t', hstore⟩ := ok_of_run' hdone
  have hwrite : writeBelow ⟨["out"]⟩ c (FileTree.empty.set ["out"] .directory) =
      .ok ⟨["out", "..", "A.class"]⟩ t' := by
    rw [writeBelow_ok_iff hname]
    exact ⟨rfl, _, hsame, hstore⟩
  have hlinks : ∀ (r : Place) (target : Path),
      (FileTree.empty.set ["out"] .directory).at? r ≠ some (.link target) := by
    intro r target
    rw [at?_set (List.cons_ne_nil _ _)]
    split_ifs
    · simp
    · cases r <;> simp [FileTree.empty, at?]
  obtain ⟨name, hname', -, hnames, hwritten⟩ := placed_by_name hpath
  cases hname.symm.trans hname'
  obtain ⟨-, -, hfound⟩ := hwritten _ t' (.inl ⟨_, hwrite⟩)
  obtain ⟨-, q, bytes, hbytes, hlookup, -, hq⟩ := hfound _ hwrite
  cases hsame.symm.trans hbytes
  rw [hq hlinks] at hlookup
  refine ⟨c, _, t', hparsed, hpath, ?_, hwrite, hlookup⟩
  exact fun hbelow => absurd (hnames.mp hbelow).1 (by decide)

end Written

end ClassFile

end Retarget
