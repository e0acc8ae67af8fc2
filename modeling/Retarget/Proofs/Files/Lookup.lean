import Retarget.Proofs.Files.Plain

/-!
Looking up paths in a plain tree. What is found is at the place that the path
names. A path below another one leads somewhere only by way of that one, and is
spelled as that one followed by its own segments.
-/

set_option autoImplicit false

namespace Retarget

open Retarget.Path (walk)

namespace FileTree

variable {t : FileTree} {follow : Bool} {p : Path} {q : Place} {node : Node} {spot : Spot}

def fromRoot (t : FileTree) (follow : Bool) (segments : List String) : Except Trouble Spot :=
  t.descend follow linkLimit (t.resolveFrom follow (linkLimit - 1)) [] .directory segments

private theorem resolve_eq (t : FileTree) (follow : Bool) (p : Path) : t.resolve follow p =
    if isSound p = false then .error .badCharacter
    else if p.isEmpty then .error .notFound
    else if isOverlong p then .error .nameTooLong
    else t.fromRoot follow p.segments := by
  cases h : isSound p <;> simp [resolve, resolveIn, Path.start_root, h, fromRoot, linkLimit, resolveFrom]

private theorem fromRoot_of_resolve (h : t.resolve follow p = .ok spot) : isSound p = true ∧
    p.isEmpty = false ∧ isOverlong p = false ∧ t.fromRoot follow p.segments = .ok spot := by
  rw [resolve_eq] at h
  split_ifs at h with hsound hempty hlong
  exact ⟨Bool.not_eq_false _ ▸ hsound, Bool.eq_false_iff.mpr hempty, Bool.eq_false_iff.mpr hlong, h⟩

theorem leads_of_resolve (ht : t.Plain) (h : t.resolve follow p = .ok spot) :
    t.Leads p.place linkLimit spot :=
  leads_of_descend ht rfl (fromRoot_of_resolve h).2.2.2

theorem at?_of_lookup (ht : t.Plain) (h : t.lookup follow p = .ok (q, node)) :
    q = p.place ∧ t.at? p.place = some node := by
  rw [lookup, lookupIn, ← resolve] at h
  cases hspot : t.resolve follow p with
  | error trouble =>
    rw [hspot] at h
    cases h
  | ok spot =>
    rw [hspot] at h
    cases leads_of_resolve ht hspot with
    | vacant => cases h
    | found hnode =>
      cases h
      exact ⟨rfl, hnode⟩

end FileTree

namespace Path

variable {base p : Path} {name first : String} {rest : List String}

theorem isEmpty_iff : p.isEmpty = true ↔ p.segments = [] ∨ p.segments = [""] := by
  rw [isEmpty, Bool.or_eq_true, decide_eq_true_eq, decide_eq_true_eq]

/-- A path below another one is spelled as that one, without a slash at its end, and what follows. -/
theorem segments_join (hbase : base.isEmpty = false) (hp : p.isAbsolute = false) :
    ∃ front slash, base.segments = front ++ slash ∧ (slash = [] ∨ slash = [""]) ∧ front ≠ [] ∧
      (base.join p).segments = front ++ p.segments := by
  have hne : base.segments ≠ [] := by
    intro h
    rw [isEmpty, h] at hbase
    cases hbase
  by_cases hslash : base.endsWithSlash = true
  · have hlast : base.segments.getLast hne = "" ∧ base.segments.dropLast ≠ [] := by
      obtain ⟨segments⟩ := base
      match segments with
      | [] => exact absurd rfl hne
      | first :: rest =>
        simp only [endsWithSlash, decide_eq_true_eq] at hslash
        cases rest with
        | nil => cases hslash
        | cons next rest =>
          rw [List.getLast?_eq_some_getLast (List.cons_ne_nil _ _)] at hslash
          exact ⟨Option.some.inj hslash, List.cons_ne_nil _ _⟩
    refine ⟨base.segments.dropLast, [""], ?_, .inr rfl, hlast.2, ?_⟩
    · rw [← hlast.1, List.dropLast_concat_getLast]
    · rw [join, hp, hbase, hslash]
      rfl
  · refine ⟨base.segments, [], (List.append_nil _).symm, .inl rfl, hne, ?_⟩
    rw [join, hp, hbase, Bool.eq_false_iff.mpr hslash]
    rfl

theorem place_join (hbase : base.isEmpty = false) (hp : p.isAbsolute = false) :
    (base.join p).place = walk base.place p.segments := by
  obtain ⟨front, slash, hsegments, hslash, -, hjoin⟩ := segments_join hbase hp
  have hplace : base.place = walk [] front := by
    rw [place, hsegments]
    rcases hslash with rfl | rfl
    · rw [List.append_nil]
    · rw [walk_append]
      rfl
  rw [place, hjoin, walk_append, hplace]

theorem isEmpty_join (hbase : base.isEmpty = false) (hp : p.isAbsolute = false)
    (hne : p.segments ≠ []) : (base.join p).isEmpty = false := by
  obtain ⟨front, slash, -, -, hfront, hjoin⟩ := segments_join hbase hp
  rw [isEmpty, hjoin]
  cases front with
  | nil => exact absurd rfl hfront
  | cons first front =>
    cases hp : p.segments with
    | nil => exact absurd hp hne
    | cons s rest => simp

theorem isAbsolute_cons_iff :
    (⟨first :: rest⟩ : Path).isAbsolute = true ↔ first = "" ∧ rest ≠ [] := by
  constructor
  · intro h
    rw [isAbsolute] at h
    split at h
    · next s more hsegments =>
      cases hsegments
      exact ⟨rfl, List.cons_ne_nil s more⟩
    · cases h
  · rintro ⟨rfl, hrest⟩
    obtain ⟨s, more, rfl⟩ := List.exists_cons_of_ne_nil hrest
    rfl

theorem isAbsolute_join (hbase : base.isEmpty = false) (hp : p.isAbsolute = false)
    (hne : p.segments ≠ []) : (base.join p).isAbsolute = base.isAbsolute := by
  obtain ⟨front, slash, hsegments, -, hfront, hjoin⟩ := segments_join hbase hp
  obtain ⟨first, more, rfl⟩ := List.exists_cons_of_ne_nil hfront
  have hwhole : base.join p = ⟨first :: (more ++ p.segments)⟩ := congrArg Path.mk hjoin
  have hroot : base = ⟨first :: (more ++ slash)⟩ := congrArg Path.mk hsegments
  have hlong : first = "" → more ++ slash ≠ [] := by
    rintro rfl hnil
    rw [hroot, hnil] at hbase
    cases hbase
  rw [Bool.eq_iff_iff, hwhole, hroot, isAbsolute_cons_iff, isAbsolute_cons_iff,
    and_iff_left (List.append_ne_nil_of_right_ne_nil more hne), and_iff_left_of_imp hlong]

end Path

namespace FileTree

variable {t t' : FileTree} {follow : Bool} {base p : Path} {q : Place} {spot : Spot}

theorem fromRoot_of_lookup (h : t.lookup follow p = .ok (q, .directory)) : isSound p = true ∧
    p.isEmpty = false ∧ isOverlong p = false ∧
      ∃ left, t.fromRoot follow p.segments = .ok (.found q .directory left) := by
  rw [lookup, lookupIn, ← resolve] at h
  cases hspot : t.resolve follow p with
  | error trouble =>
    rw [hspot] at h
    cases h
  | ok spot =>
    rw [hspot] at h
    obtain ⟨hsound, hempty, hlong, hfrom⟩ := fromRoot_of_resolve hspot
    cases spot with
    | vacant => cases h
    | found place node left =>
      cases h
      exact ⟨hsound, hempty, hlong, left, hfrom⟩

private theorem lookup_of_fromRoot {left : Nat} (hsound : isSound p = true)
    (hempty : p.isEmpty = false)
    (hlong : isOverlong p = false)
    (h : t.fromRoot follow p.segments = .ok (.found q .directory left)) :
    t.lookup follow p = .ok (q, .directory) := by
  rw [lookup, lookupIn, ← resolve, resolve_eq, hsound, hempty, hlong, if_neg Bool.true_eq_false.mp,
    if_neg Bool.false_ne_true, if_neg Bool.false_ne_true, h]

theorem lookup_mono {follow' : Bool} (ht : t.Plain)
    (hkept : ∀ {q : Place}, t.at? q = some .directory → t'.at? q = some .directory)
    (h : t.lookup follow p = .ok (q, .directory)) : t'.lookup follow' p = .ok (q, .directory) := by
  obtain ⟨hsound, hempty, hlong, left, hfrom⟩ := fromRoot_of_lookup h
  exact lookup_of_fromRoot hsound hempty hlong (descend_mono ht (fun _ => hkept) hfrom)

theorem lookup_of_way (ht : t.Plain) (hparent : ".." ∉ p.segments)
    (hkept : ∀ {q : Place}, q <+: p.place → t.at? q = some .directory → t'.at? q = some .directory)
    (h : t.lookup follow p = .ok (q, .directory)) : t'.lookup follow p = .ok (q, .directory) := by
  obtain ⟨hsound, hempty, hlong, left, hfrom⟩ := fromRoot_of_lookup h
  refine lookup_of_fromRoot hsound hempty hlong (descend_mono ht (fun hq => ?_) hfrom)
  exact hkept (hq.resolve_left hparent)

private theorem fromRoot_slash {front slash : List String} {left : Nat} (ht : t.Plain)
    (hslash : slash = [] ∨ slash = [""])
    (h : t.fromRoot follow (front ++ slash) = .ok (.found q .directory left)) :
    t.fromRoot follow front = .ok (.found q .directory linkLimit) := by
  obtain ⟨q', node', hfront⟩ := descend_front ht (.inr ⟨q, _, left, rfl⟩) h
  have hback := (descend_append ht hfront).symm.trans h
  have hdirectory := directory_of_descend ht hback
  subst hdirectory
  rcases hslash with rfl | rfl
  · cases hback
    exact hfront
  · cases hback
    exact hfront

theorem missing_of_lookup (hempty : p.isEmpty = false) (h : t.lookup follow p = .error .notFound) :
    t.fromRoot follow p.segments = .error .notFound ∨
      ∃ q name slash, t.fromRoot follow p.segments = .ok (.vacant q name slash) := by
  rw [lookup, lookupIn, ← resolve, resolve_eq, hempty, if_neg Bool.false_ne_true] at h
  by_cases hsound : isSound p = false
  · rw [if_pos hsound] at h
    cases h
  · rw [if_neg hsound] at h
    by_cases hlong : isOverlong p = true
    · rw [if_pos hlong] at h
      cases h
    · rw [if_neg hlong] at h
      cases hspot : t.fromRoot follow p.segments with
      | error trouble =>
        rw [hspot] at h
        cases h
        exact .inl rfl
      | ok spot =>
        rw [hspot] at h
        cases spot with
        | found => cases h
        | vacant q name slash => exact .inr ⟨q, name, slash, rfl⟩

theorem none_of_lookup (ht : t.Plain) (hempty : p.isEmpty = false) (hparent : ".." ∉ p.segments)
    (h : t.lookup follow p = .error .notFound) : t.at? p.place = none :=
  none_of_descend ht hparent (missing_of_lookup hempty h)

theorem none_of_lookup_join {follow' : Bool} (ht : t.Plain)
    (hbase : t.lookup follow' base = .ok (base.place, .directory)) (hp : p.isAbsolute = false)
    (hne : p.segments ≠ []) (hparent : ".." ∉ p.segments)
    (h : t.lookup follow (base.join p) = .error .notFound) :
    t.at? (base.join p).place = none := by
  have hbase' : t.lookup follow base = .ok (base.place, .directory) :=
    lookup_mono ht (fun hq => hq) hbase
  obtain ⟨-, hempty, -, left, hfrom⟩ := fromRoot_of_lookup hbase'
  obtain ⟨front, slash, hsegments, hslash, -, hjoin⟩ := Path.segments_join hempty hp
  rw [hsegments] at hfrom
  have hfront := fromRoot_slash ht hslash hfrom
  have hwhole : t.fromRoot follow (base.join p).segments = t.descend follow linkLimit
      (t.resolveFrom follow (linkLimit - 1)) base.place .directory p.segments := by
    rw [hjoin]
    exact descend_append ht hfront
  have hmissing := missing_of_lookup (Path.isEmpty_join hempty hp hne) h
  rw [Path.place_join hempty hp]
  rw [hwhole] at hmissing
  exact none_of_descend ht hparent hmissing

theorem size_join_le (front : List String) {back : List String} (hback : back ≠ []) :
    (Text.join "/" front).utf8ByteSize ≤ (Text.join "/" (front ++ back)).utf8ByteSize := by
  by_cases hfront : front = []
  · subst hfront
    simp [Text.join]
  · rw [Text.join, Text.join, String.intercalate_append_of_ne_nil hfront hback,
      String.utf8ByteSize_append, String.utf8ByteSize_append]
    omega

theorem lookup_of_resolve_join (ht : t.Plain) (hbase : base.isEmpty = false)
    (hp : p.isAbsolute = false) (hname : p.segments.all (· = "") = false)
    (h : t.resolve follow (base.join p) = .ok spot) :
    t.lookup follow base = .ok (base.place, .directory) := by
  obtain ⟨hsound, -, hlong, hfrom⟩ := fromRoot_of_resolve h
  obtain ⟨front, slash, hsegments, hslash, hne, hjoin⟩ := Path.segments_join hbase hp
  have hback : p.segments ≠ [] := by
    intro hnil
    rw [hnil] at hname
    cases hname
  rw [hjoin] at hfrom
  obtain ⟨q, node, hfront⟩ := descend_front ht (.inl hname) hfrom
  have hrest := (descend_append ht hfront).symm.trans hfrom
  have hdirectory : node = .directory := by
    obtain ⟨segment, rest, hcons⟩ := List.exists_cons_of_ne_nil hback
    rw [hcons] at hrest
    by_contra hnode
    rw [descend, if_neg hnode] at hrest
    cases hrest
  subst hdirectory
  have hfound : t.fromRoot follow base.segments = .ok (.found q .directory linkLimit) := by
    rw [hsegments]
    refine (descend_append ht hfront).trans ?_
    rcases hslash with rfl | rfl <;> rfl
  have hsound' : isSound base = true := by
    rw [isSound, hjoin, List.all_append, Bool.and_eq_true] at hsound
    rw [isSound, hsegments, List.all_append, hsound.1]
    rcases hslash with rfl | rfl
    · rfl
    · simp
  have hlong' : isOverlong base = false := by
    have hsize : base.toString.utf8ByteSize ≤ (base.join p).toString.utf8ByteSize := by
      rw [Path.toString, Path.toString, hsegments, hjoin]
      rcases hslash with rfl | rfl
      · rw [List.append_nil]
        exact size_join_le front hback
      · have hslash : (Text.join "/" [""]).utf8ByteSize = 0 := by decide
        rw [Text.join, Text.join, String.intercalate_append_of_ne_nil hne (List.cons_ne_nil _ _),
          String.intercalate_append_of_ne_nil hne hback]
        simp only [String.utf8ByteSize_append]
        rw [Text.join] at hslash
        omega
    simp only [isOverlong, decide_eq_false_iff_not] at hlong ⊢
    omega
  have hplace : q = base.place := by
    cases leads_of_descend ht rfl hfound with
    | found => rfl
  rw [← hplace]
  exact lookup_of_fromRoot hsound' hbase hlong' hfound

end FileTree

end Retarget
