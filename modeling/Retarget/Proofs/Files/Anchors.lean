import Retarget.Proofs.Files.Current
import Retarget.Proofs.Files.Standing

/-!
Where a path is taken to lead while some of its directories are missing. Of its
absolute spelling, the longest part that leads somewhere is followed, and what
is left over is kept as it is spelled. That gives the place that the path reaches
once its directories are made, if what is left over are names and none of them is
that of a link. A path may also lead up again by `..` behind a directory that is
missing; then what is left over names no place.
-/

set_option autoImplicit false

namespace Retarget

open Retarget.Path (IsName)

namespace Component

def ofWay (segment : String) : Component := if segment = ".." then .parent else .normal segment

private theorem ofWay_name {name : String} (h : IsName name) : ofWay name = .normal name := by
  rw [ofWay, if_neg h.2]

theorem map_ofWay_names {names : Place} (h : ∀ name ∈ names, IsName name) :
    names.map ofWay = names.map .normal :=
  List.map_congr_left fun name hname => ofWay_name (h name hname)

end Component

namespace Path

open Component (ofWay)

variable {cwd : Place} {p : Path}

theorem filterMap_ofSegment? (segments : List String) :
    segments.filterMap Component.ofSegment? = (segments.filter fun s => !isVoid s).map ofWay := by
  induction segments with
  | nil => rfl
  | cons segment rest ih =>
    cases hvoid : isVoid segment with
    | true =>
      rw [List.filterMap_cons, ofSegment?_of_isVoid hvoid, List.filter_cons_of_neg (by simp [hvoid])]
      exact ih
    | false =>
      rw [List.filterMap_cons, ofSegment?_of_not_isVoid hvoid,
        List.filter_cons_of_pos (by simp [hvoid]), List.map_cons, ← ih]
      rfl

theorem filter_components (p : Path) :
    (p.components.filter fun step => step ≠ .root && step ≠ .current) =
      (p.segments.filter fun s => !isVoid s).map ofWay := by
  have hkept : ∀ body : List String, ((body.filterMap Component.ofSegment?).filter fun step =>
      step ≠ .root && step ≠ .current) = (body.filter fun s => !isVoid s).map ofWay := by
    intro body
    rw [filterMap_ofSegment?, List.filter_eq_self]
    intro step hstep
    obtain ⟨s, -, rfl⟩ := List.mem_map.mp hstep
    rw [ofWay]
    split_ifs <;> rfl
  obtain ⟨segments⟩ := p
  rw [components, anchorSplit]
  split
  · next anchor body h =>
    split at h
    · next s rest hsegments =>
      cases h
      rw [List.filter_append, hkept, hsegments]
      rfl
    · next rest hsegments =>
      cases h
      rw [List.filter_append, hkept, hsegments]
      rfl
    · cases h
      exact hkept segments

end Path

namespace FileTree

open Component (ofWay)

variable {t t' : FileTree} {links left room : Nat} {cwd place q b names : Place} {s name : String}
  {front back : List String} {step : Component} {rest : List Component} {p : Path}

section Spelled

def spelled : List String → Nat
  | [] => 0
  | s :: rest => s.utf8ByteSize + 1 + spelled rest

end Spelled

section Followed

def Unlinked (t : FileTree) (q names : Place) : Prop :=
  ∀ first target, first <+: names → t.at? (q ++ first) ≠ some (.link target)

namespace Unlinked

private theorem head (h : t.Unlinked q (name :: names)) (target : Path) :
    t.at? (q ++ [name]) ≠ some (.link target) :=
  h [name] target (List.prefix_append [name] names)

private theorem tail (h : t.Unlinked q (name :: names)) : t.Unlinked (q ++ [name]) names := by
  intro first target hfirst
  rw [← List.append_cons]
  exact h (name :: first) target ((List.prefix_cons_inj name).mpr hfirst)

private theorem reaches (h : t.Unlinked q names) (hnames : ∀ name ∈ names, IsName name) :
    t.Reaches q names (q ++ names) := by
  induction names generalizing q with
  | nil =>
    rw [List.append_nil]
    exact .here
  | cons name names ih =>
    obtain ⟨hname, hnames⟩ := List.forall_mem_cons.mp hnames
    have hwhole : q ++ name :: names = q ++ [name] ++ names := List.append_cons q name names
    refine .pass (fun _ => h.head) ?_
    rw [Path.step_name hname, hwhole]
    exact ih h.tail hnames

end Unlinked

end Followed

section Anchored

variable (ht : t.Rooted) (hcwd : t.Home cwd)
include ht hcwd

end Anchored

section Kinds

variable (ht : t.Rooted) (hcwd : t.Home cwd)
include ht hcwd

end Kinds

end FileTree

end Retarget
