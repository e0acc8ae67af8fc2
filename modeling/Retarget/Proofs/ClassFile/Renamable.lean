import Mathlib.Data.List.Dedup
import Retarget.Proofs.ClassFile.RenameBytes

/-!
When a renaming succeeds. Every site has to lead to a text when its turn comes,
outside attributes to a proper symbol, and the new texts have to be short enough
and few enough for the pool. How the renaming goes about it does not matter:
the texts it adds are told from the class file alone, site by site.

A site whose index lies behind the end of the pool leads to a text if earlier
sites have added enough of them. Where there is none, the conditions are on the
texts the sites lead to at first.
-/

set_option autoImplicit false

namespace Retarget

namespace Pool

variable {p p' : Pool} {added : List Bytes} {index : UInt16} {text new : Bytes}

def textWith (p : Pool) (added : List Bytes) (index : UInt16) : Option Bytes :=
  if index.toNat < p.count then (p.text index).toOption else added[index.toNat - p.count]?

/-- The texts behind the pool with another one, unless it is in the pool or among them. -/
def addText (p : Pool) (added : List Bytes) (new : Bytes) : List Bytes :=
  if p.entries.contains (.utf8 new) || added.contains new then added else added ++ [new]

private theorem addText_known (h : Constant.utf8 new ∈ p.entries ∨ new ∈ added) :
    p.addText added new = added := by
  simp [addText, h]

private theorem addText_new (h : ¬ (Constant.utf8 new ∈ p.entries ∨ new ∈ added)) :
    p.addText added new = added ++ [new] := by
  simp [addText, h]

structure Extended (p : Pool) (added : List Bytes) (p' : Pool) : Prop where
  registered : p'.Registered
  grown : p.Grown p'
  behind : p'.entries.toList.drop p.count = added.map .utf8

namespace Extended

theorem refl (hp : p.Registered) : p.Extended [] p where
  registered := hp
  grown := .refl p
  behind := by simp [count]

private theorem count_eq (h : p.Extended added p') : p'.count = p.count + added.length := by
  have hlength := congrArg List.length h.behind
  rw [List.length_drop, List.length_map, Array.length_toList] at hlength
  have hle := h.grown.count_le
  have hsize : p'.entries.size = p'.count := rfl
  omega

private theorem getElem?_behind (h : p.Extended added p') (k : Nat) :
    p'.entries[p.count + k]? = added[k]?.map .utf8 := by
  rw [← List.getElem?_map, ← h.behind, List.getElem?_drop, Array.getElem?_toList]

private theorem text_iff (h : p.Extended added p') :
    p'.text index = .ok text ↔ p.textWith added index = some text := by
  rw [textWith]
  split_ifs with hlt
  · constructor
    · intro htext
      rw [text_eq_ok_iff.mpr (h.grown.text_back hlt (text_eq_ok_iff.mp htext))]
      rfl
    · intro htext
      cases hfirst : p.text index with
      | error fault =>
        rw [hfirst] at htext
        cases htext
      | ok first =>
        rw [hfirst] at htext
        cases htext
        exact h.grown.text hfirst
  · have hbehind := h.getElem?_behind (index.toNat - p.count)
    rw [Nat.add_sub_cancel' (Nat.le_of_not_lt hlt)] at hbehind
    rw [text_eq_ok_iff, hbehind]
    simp

private theorem mem_iff (h : p.Extended added p') :
    Constant.utf8 new ∈ p'.entries ↔ Constant.utf8 new ∈ p.entries ∨ new ∈ added := by
  constructor
  · intro hmem
    obtain ⟨i, hi⟩ := Array.getElem?_of_mem hmem
    by_cases hlt : i < p.count
    · exact .inl (Array.mem_of_getElem? (h.grown.text_back hlt hi))
    · have hbehind := h.getElem?_behind (i - p.count)
      rw [Nat.add_sub_cancel' (Nat.le_of_not_lt hlt), hi] at hbehind
      obtain ⟨text, htext, heq⟩ := Option.map_eq_some_iff.mp hbehind.symm
      cases heq
      exact .inr (List.mem_of_getElem? htext)
  · rintro (hold | hadded)
    · obtain ⟨i, hi⟩ := Array.getElem?_of_mem hold
      exact Array.mem_of_getElem? (h.grown.text_kept hi)
    · obtain ⟨k, hk⟩ := List.getElem?_of_mem hadded
      have hbehind := h.getElem?_behind k
      rw [hk] at hbehind
      exact Array.mem_of_getElem? hbehind

private theorem relink (h : p.Extended added p') (index text : UInt16) :
    p.Extended added (p'.relink index text) where
  registered := h.registered.relink index text
  grown := h.grown.relink index text
  behind := by
    apply List.ext_getElem?
    intro k
    rw [List.getElem?_drop, Array.getElem?_toList, getElem?_relink, h.getElem?_behind,
      List.getElem?_map]
    split_ifs
    · cases added[k]? <;> rfl
    · rfl

private theorem append (h : p.Extended added p') (hnew : Constant.utf8 new ∉ p'.entries)
    (hroom : p'.count + 1 ≤ Fault.poolLimit) :
    p.Extended (added ++ [new]) (p'.append (.utf8 new)) where
  registered := h.registered.append hroom
  grown := h.grown.append hnew
  behind := by
    have hle : p.count ≤ p'.entries.toList.length := h.grown.count_le
    rw [entries_append, List.drop_append_of_le_length hle, h.behind, List.map_append]
    rfl

private theorem intern_ok_iff (h : p.Extended added p') :
    (∃ i q, intern new p' = .ok i q) ↔ Constant.utf8 new ∈ p.entries ∨ new ∈ added ∨
      new.length < 0x10000 ∧ p'.count + 1 ≤ Fault.poolLimit := by
  rw [← or_assoc, ← h.mem_iff]
  have hslots : (Constant.utf8 new).slots = 1 := rfl
  have hcount : p'.entries.size = p'.count := rfl
  cases hfound : p'.texts[new]? with
  | some i =>
    have hmem := Array.mem_of_getElem? (h.registered.found hfound)
    simp [intern, hfound, hmem]
  | none =>
    have hnot := h.registered.not_mem hfound
    by_cases hlength : new.length < 0x10000
    · by_cases hroom : p'.count + 1 ≤ Fault.poolLimit <;>
        simp [intern, hfound, push, hslots, hcount, hnot, hlength, hroom]
    · simp [intern, hfound, hnot, hlength]

private theorem of_intern {i : UInt16} {q : Pool} (h : p.Extended added p')
    (hrun : intern new p' = .ok i q) : p.Extended (p.addText added new) q := by
  rcases intern_cases new p' with ⟨i', hfound, hintern⟩ | ⟨hnew, hroom, hintern⟩ |
    ⟨fault, -, hintern⟩
  · cases hintern.symm.trans hrun
    rw [addText_known (h.mem_iff.mp (Array.mem_of_getElem? (h.registered.found hfound)))]
    exact h
  · cases hintern.symm.trans hrun
    have hnot := h.registered.not_mem hnew
    rw [addText_new (mt h.mem_iff.mpr hnot)]
    exact h.append hnot hroom
  · cases hintern.symm.trans hrun

end Extended

end Pool

namespace ClassFile

variable {bytes : Bytes} {c c₁ c₂ : ClassFile} {p : Pool} {map : Bytes → Option Bytes}
  {newNames : Renaming} {site : Site} {sites rest : List Site} {added added' : List Bytes}

/-- The texts behind the pool after the turn of a site; none if the site leads to no text, or,
outside attributes, to one that is no proper symbol. -/
def addedBy (map : Bytes → Option Bytes) (c : ClassFile) (added : List Bytes) (site : Site) :
    Option (List Bytes) :=
  match (c.indexAt site.location).toOption.bind (c.pool.textWith added) with
  | none => none
  | some text =>
    match Symbol.substitute site.kind map text with
    | .error _ => if site.location.isSlot then some added else none
    | .ok none => some added
    | .ok (some new) => some (c.pool.addText added new)

/-- The texts are short enough, and the pool has room for them. -/
structure RoomFor (c : ClassFile) (added : List Bytes) : Prop where
  short : ∀ text ∈ added, text.length ≤ 65535
  room : c.pool.count + added.length ≤ Fault.poolLimit

private theorem RoomFor.of_prefix (h : c.RoomFor added') (hfront : added <+: added') :
    c.RoomFor added where
  short text htext := h.short text (hfront.subset htext)
  room := by
    have hlength := hfront.length_le
    have hroom := h.room
    omega

private theorem prefix_addText (p : Pool) (added : List Bytes) (new : Bytes) :
    added <+: p.addText added new := by
  by_cases hknown : Constant.utf8 new ∈ p.entries ∨ new ∈ added
  · have hsame := Pool.addText_known hknown
    exact hsame.symm ▸ List.prefix_rfl
  · rw [Pool.addText_new hknown]
    exact List.prefix_append added [new]

private theorem prefix_of_addedBy (h : addedBy map c added site = some added') :
    added <+: added' := by
  unfold addedBy at h
  split at h
  · cases h
  · split at h
    · split_ifs at h
      cases h
      exact List.prefix_rfl
    · cases h
      exact List.prefix_rfl
    · cases h
      exact prefix_addText _ _ _

private theorem alone_eq {index : UInt16} {text : Bytes} (hc : c.pool.Registered)
    (hindex : c.indexAt site.location = .ok index) (htext : c.pool.text index = .ok text) :
    alone map site c = match Symbol.substitute site.kind map text with
      | .error defect =>
        if site.location.isSlot then .ok ⟨0, 1⟩ c else .error (.malformed defect) c
      | .ok none => .ok ⟨0, 0⟩ c
      | .ok (some new) =>
        match Pool.intern new c.pool with
        | .ok i p => .ok ⟨1, 0⟩ (({ c with pool := p } : ClassFile).place site.location i)
        | .error fault p => .error fault { c with pool := p } := by
  simp only [alone, renameSite, hindex, Std.ExtTreeMap.getElem?_empty, target, htext]
  cases hsub : Symbol.substitute site.kind map text with
  | error defect =>
    simp only
    split_ifs <;> rfl
  | ok exchanged =>
    cases exchanged with
    | none => rfl
    | some new =>
      rcases onPool_intern new hc with ⟨i, p, hintern, hp⟩ | ⟨fault, hintern⟩
      · have hread := (indexAt_interned hp site.location index).mpr hindex
        have hnew : ({ c with pool := p } : ClassFile).pool.text i = .ok new := hp.text
        rw [onPool_eq] at hintern
        cases hrun : Pool.intern new c.pool with
        | error fault p' =>
          simp only [hrun] at hintern
          cases hintern
        | ok i' p' =>
          simp only [hrun] at hintern
          cases hintern
          simp only [onPool_eq, hrun, leadTo, setIndexAt, hread, hnew]
      · rw [onPool_eq] at hintern
        cases hrun : Pool.intern new c.pool with
        | error fault p' => simp only [onPool_eq, hrun]
        | ok i' p' =>
          simp only [hrun] at hintern
          cases hintern

private theorem roomFor_append_iff {new : Bytes} (h : c.RoomFor added) :
    c.RoomFor (added ++ [new]) ↔
    new.length < 0x10000 ∧ c.pool.count + added.length + 1 ≤ Fault.poolLimit := by
  have hlength : (added ++ [new]).length = added.length + 1 := List.length_append
  constructor
  · intro hnew
    have hshort := hnew.short new (by simp)
    have hroom := hnew.room
    omega
  · rintro ⟨hshort, hroom⟩
    refine ⟨fun text htext => ?_, by omega⟩
    rcases List.mem_append.mp htext with hold | hlast
    · exact h.short text hold
    · rw [List.mem_singleton.mp hlast]
      omega

private theorem intern_ok_iff {new : Bytes} (hpool : c.pool.Extended added p)
    (hroom : c.RoomFor added) :
    (∃ i q, Pool.intern new p = .ok i q) ↔ c.RoomFor (c.pool.addText added new) := by
  rw [hpool.intern_ok_iff, hpool.count_eq]
  by_cases hknown : Constant.utf8 new ∈ c.pool.entries ∨ new ∈ added
  · rw [Pool.addText_known hknown]
    exact iff_of_true (or_assoc.mp (.inl hknown)) hroom
  · rw [Pool.addText_new hknown, roomFor_append_iff hroom, ← or_assoc, or_iff_right hknown]

private theorem extended_place (h : c.pool.Extended added c₁.pool) (location : Location)
    (index : UInt16) :
    c.pool.Extended added (c₁.place location index).pool := by
  cases location with
  | constant i => exact h.relink i index
  | slot owner => cases owner <;> exact h
  | _ => exact h

private theorem alone_error (h : ∀ index text, c.indexAt site.location = .ok index →
    c.pool.text index ≠ .ok text) : ∃ fault, alone map site c = .error fault c := by
  simp only [alone, renameSite]
  cases hindex : c.indexAt site.location with
  | error fault => exact ⟨fault, rfl⟩
  | ok index =>
    cases htext : c.pool.text index with
    | error fault => exact ⟨fault, by simp only [Std.ExtTreeMap.getElem?_empty, target, htext]⟩
    | ok text => exact absurd htext (h index text hindex)

private theorem alone_of_extended (map : Bytes → Option Bytes)
    (hpool : c.pool.Extended added c₁.pool)
    (hread : ∀ i, c₁.indexAt site.location = .ok i ↔ c.indexAt site.location = .ok i)
    (hroom : c.RoomFor added) :
    (∀ t c₂, alone map site c₁ = .ok t c₂ → ∃ added', addedBy map c added site = some added' ∧
      c.RoomFor added' ∧ c.pool.Extended added' c₂.pool) ∧
    ∀ added', addedBy map c added site = some added' → c.RoomFor added' →
      ∃ t c₂, alone map site c₁ = .ok t c₂ := by
  cases hlead : (c.indexAt site.location).toOption.bind (c.pool.textWith added) with
  | none =>
    have hnone : addedBy map c added site = none := by
      simp only [addedBy, hlead]
    obtain ⟨fault, hfails⟩ : ∃ fault, alone map site c₁ = .error fault c₁ := by
      refine alone_error fun index text hindex htext => ?_
      rw [(hread index).mp hindex] at hlead
      cases hlead.symm.trans (hpool.text_iff.mp htext)
    rw [hnone, hfails]
    exact ⟨nofun, nofun⟩
  | some text =>
    obtain ⟨index, hindex, htext⟩ : ∃ index, c₁.indexAt site.location = .ok index ∧
        c₁.pool.text index = .ok text := by
      obtain ⟨index, hindex, htext⟩ := Option.bind_eq_some_iff.mp hlead
      cases hfirst : c.indexAt site.location with
      | error fault =>
        rw [hfirst] at hindex
        cases hindex
      | ok i =>
        rw [hfirst] at hindex
        cases hindex
        exact ⟨index, (hread index).mpr hfirst, hpool.text_iff.mpr htext⟩
    rw [alone_eq hpool.registered hindex htext]
    simp only [addedBy, hlead]
    cases hsub : Symbol.substitute site.kind map text with
    | error defect =>
      cases hslot : site.location.isSlot with
      | true =>
        refine ⟨fun t c₂ h => ?_, fun _ _ _ => ⟨_, _, rfl⟩⟩
        cases h
        exact ⟨added, rfl, hroom, hpool⟩
      | false => exact ⟨nofun, nofun⟩
    | ok exchanged =>
      cases exchanged with
      | none =>
        refine ⟨fun t c₂ h => ?_, fun _ _ _ => ⟨_, _, rfl⟩⟩
        cases h
        exact ⟨added, rfl, hroom, hpool⟩
      | some new =>
        -- the new text finds room here exactly if it does behind the pool of the class
        have hintern : (∃ i q, Pool.intern new c₁.pool = .ok i q) ↔
            c.RoomFor (c.pool.addText added new) := intern_ok_iff hpool hroom
        simp only
        cases hrun : Pool.intern new c₁.pool with
        | error fault q =>
          have hnot : ¬ c.RoomFor (c.pool.addText added new) := by
            rw [← hintern, hrun]
            rintro ⟨i, q', h⟩
            cases h
          refine ⟨nofun, fun added' h hadded => ?_⟩
          cases h
          exact absurd hadded hnot
        | ok i q =>
          refine ⟨fun t c₂ h => ?_, fun _ _ _ => ⟨_, _, rfl⟩⟩
          cases h
          have hextended : c.pool.Extended (c.pool.addText added new)
              ({ c₁ with pool := q } : ClassFile).pool := hpool.of_intern hrun
          exact ⟨_, rfl, hintern.mp ⟨i, q, hrun⟩, extended_place hextended _ _⟩

private theorem prefix_of_foldlM (h : rest.foldlM (addedBy map c) added = some added') :
    added <+: added' := by
  induction rest generalizing added with
  | nil =>
    cases h
    exact List.prefix_rfl
  | cons site rest ih =>
    rw [List.foldlM_cons] at h
    obtain ⟨next, hsite, hrest⟩ := Option.bind_eq_some_iff.mp h
    exact (prefix_of_addedBy hsite).trans (ih hrest)

private theorem eachAlone_ok_iff (map : Bytes → Option Bytes)
    (hpool : c.pool.Extended added c₁.pool)
    (hapart : rest.Pairwise Site.Apart)
    (hread : ∀ site ∈ rest, ∀ i,
      c₁.indexAt site.location = .ok i ↔ c.indexAt site.location = .ok i)
    (hroom : c.RoomFor added) (tally : Tally) : (∃ t c', eachAlone map rest tally c₁ = .ok t c') ↔
      ∃ added', rest.foldlM (addedBy map c) added = some added' ∧ c.RoomFor added' := by
  induction rest generalizing c₁ added tally with
  | nil => exact iff_of_true ⟨tally, c₁, rfl⟩ ⟨added, rfl, hroom⟩
  | cons site rest ih =>
    obtain ⟨hfirst, hapart⟩ := List.pairwise_cons.mp hapart
    obtain ⟨hadds, hsucceeds⟩ :=
      alone_of_extended map hpool (hread site List.mem_cons_self) hroom
    simp only [eachAlone, List.foldlM_cons, Option.bind_eq_bind, Option.bind_eq_some_iff]
    rcases alone_cases map site hpool.registered with ⟨t, c₂, halone, houtcome⟩ | ⟨fault, halone⟩
    · obtain ⟨next, hnext, hroom', hpool'⟩ := hadds t c₂ halone
      have hread' : ∀ s ∈ rest, ∀ i,
          c₂.indexAt s.location = .ok i ↔ c.indexAt s.location = .ok i := fun s hs i =>
        (houtcome.indexAt_of_apart (hfirst s hs) i).trans (hread s (List.mem_cons_of_mem _ hs) i)
      simp only [halone, hnext, Option.some.injEq, exists_eq_left']
      exact ih hpool' hapart hread' hroom' _
    · -- later sites only add behind, so room for all of it is room for what this site adds
      refine iff_of_false (by simp [halone]) ?_
      rintro ⟨added', ⟨next, hnext, hrest⟩, hroom'⟩
      obtain ⟨t, c₂, hok⟩ := hsucceeds next hnext (hroom'.of_prefix (prefix_of_foldlM hrest))
      cases halone.symm.trans hok

/-- The site leads to a text, and to a proper symbol unless it is in an attribute. -/
def Proper (c : ClassFile) (site : Site) : Prop :=
  ∃ scan, c.scanSite site = .ok scan ∧ (site.location.isSlot = false → scan.defect = none)

def Inside (c : ClassFile) (site : Site) : Prop :=
  ∀ index, c.indexAt site.location = .ok index → index.toNat < c.pool.count

def newTexts (map : Bytes → Option Bytes) (c : ClassFile) (sites : List Site) : List Bytes :=
  ((sites.filterMap (newText? map c.pool c)).filter fun text =>
    Constant.utf8 text ∉ c.pool.entries).dedup

/-- The conditions for a renaming, by the texts that the sites lead to at first. -/
structure Renamable (map : Bytes → Option Bytes) (c : ClassFile) (sites : List Site) : Prop where
  proper : ∀ site ∈ sites, c.Proper site
  short : ∀ site ∈ sites, ∀ new, newText? map c.pool c site = some new → new.length ≤ 65535
  room : c.pool.count + (newTexts map c sites).length ≤ Fault.poolLimit

private theorem proper_iff : c.Proper site ↔ ∃ index text, c.indexAt site.location = .ok index ∧
    c.pool.text index = .ok text ∧
      (site.location.isSlot = false → (Symbol.scan site.kind text).defect = none) := by
  constructor
  · rintro ⟨scan, hscan, hdefect⟩
    obtain ⟨index, text, hindex, htext, rfl⟩ := scanSite_eq_ok_iff.mp hscan
    exact ⟨index, text, hindex, htext, hdefect⟩
  · rintro ⟨index, text, hindex, htext, hdefect⟩
    exact ⟨_, scanSite_eq_ok_iff.mpr ⟨index, text, hindex, htext, rfl⟩, hdefect⟩

private theorem Proper.inside (h : c.Proper site) : c.Inside site := by
  obtain ⟨index, text, hindex, htext, -⟩ := proper_iff.mp h
  intro index' hindex'
  cases hindex.symm.trans hindex'
  exact (Array.getElem?_eq_some_iff.mp (Pool.text_eq_ok_iff.mp htext)).1

private theorem addedBy_eq_some_iff (hinside : c.Inside site) :
    addedBy map c added site = some added' ↔ c.Proper site ∧
      added' = (newText? map c.pool c site).elim added (c.pool.addText added) := by
  cases hlead : (c.indexAt site.location).toOption.bind (c.pool.textWith added) with
  | none =>
    have hnot : ¬ c.Proper site := by
      intro hproper
      obtain ⟨index, text, hindex, htext, -⟩ := proper_iff.mp hproper
      rw [hindex] at hlead
      simp only [Except.toOption, Option.bind_some, Pool.textWith,
        if_pos (hinside index hindex), htext] at hlead
      cases hlead
    simp only [addedBy, hlead, hnot, false_and, reduceCtorEq]
  | some text =>
    cases hindex : c.indexAt site.location with
    | error fault =>
      rw [hindex] at hlead
      cases hlead
    | ok index =>
      have htext : c.pool.text index = .ok text := by
        rw [hindex] at hlead
        simp only [Except.toOption, Option.bind_some, Pool.textWith,
          if_pos (hinside index hindex)] at hlead
        cases hfound : c.pool.text index with
        | error fault =>
          rw [hfound] at hlead
          cases hlead
        | ok found =>
          rw [hfound] at hlead
          cases hlead
          rfl
      have hproper : c.Proper site ↔
          (site.location.isSlot = false → (Symbol.scan site.kind text).defect = none) := by
        simp [proper_iff, hindex, htext]
      rw [newText?_eq hindex htext, hproper]
      simp only [addedBy, hlead, Symbol.substitute, Scan.substitute]
      cases (Symbol.scan site.kind text).defect with
      | some defect => cases site.location.isSlot <;> simp [eq_comm]
      | none =>
        simp only [implies_true, true_and]
        cases (Symbol.scan site.kind text).pieces.any (Piece.changes map) with
        | true => exact Option.some_inj.trans eq_comm
        | false => cases site.location.isSlot <;> exact Option.some_inj.trans eq_comm

private theorem foldlM_addedBy_iff (hinside : ∀ site ∈ sites, c.Inside site) :
    sites.foldlM (addedBy map c) added = some added' ↔ (∀ site ∈ sites, c.Proper site) ∧
      added' = (sites.filterMap (newText? map c.pool c)).foldl c.pool.addText added := by
  induction sites generalizing added with
  | nil => simp [eq_comm]
  | cons site sites ih =>
    obtain ⟨hfirst, hrest⟩ := List.forall_mem_cons.mp hinside
    simp only [List.foldlM_cons, Option.bind_eq_bind, Option.bind_eq_some_iff,
      addedBy_eq_some_iff hfirst, List.forall_mem_cons]
    have hstep : ((site :: sites).filterMap (newText? map c.pool c)).foldl c.pool.addText added =
        (sites.filterMap (newText? map c.pool c)).foldl c.pool.addText
          ((newText? map c.pool c site).elim added (c.pool.addText added)) := by
      rw [List.filterMap_cons]
      cases newText? map c.pool c site <;> rfl
    rw [hstep]
    constructor
    · rintro ⟨next, ⟨hproper, rfl⟩, h⟩
      obtain ⟨hall, rfl⟩ := (ih hrest).mp h
      exact ⟨⟨hproper, hall⟩, rfl⟩
    · rintro ⟨⟨hproper, hall⟩, rfl⟩
      exact ⟨_, ⟨hproper, rfl⟩, (ih hrest).mpr ⟨hall, rfl⟩⟩

private theorem mem_addText {text new : Bytes} : text ∈ p.addText added new ↔
    text ∈ added ∨ text = new ∧ Constant.utf8 text ∉ p.entries := by
  by_cases hknown : Constant.utf8 new ∈ p.entries ∨ new ∈ added
  · rw [Pool.addText_known hknown]
    refine ⟨.inl, ?_⟩
    rintro (hadded | ⟨rfl, hnot⟩)
    · exact hadded
    · exact hknown.resolve_left hnot
  · rw [Pool.addText_new hknown, List.mem_append, List.mem_singleton]
    refine or_congr_right ⟨?_, And.left⟩
    rintro rfl
    exact ⟨rfl, fun hold => hknown (.inl hold)⟩

private theorem mem_foldl_addText {text : Bytes} {texts : List Bytes} :
    text ∈ texts.foldl p.addText added ↔
      text ∈ added ∨ text ∈ texts ∧ Constant.utf8 text ∉ p.entries := by
  induction texts generalizing added with
  | nil => simp
  | cons new texts ih =>
    rw [List.foldl_cons, ih, mem_addText, List.mem_cons, or_assoc, or_and_right]

private theorem nodup_foldl_addText {texts : List Bytes} (h : added.Nodup) :
    (texts.foldl p.addText added).Nodup := by
  induction texts generalizing added with
  | nil => exact h
  | cons new texts ih =>
    refine ih ?_
    by_cases hknown : Constant.utf8 new ∈ p.entries ∨ new ∈ added
    · rw [Pool.addText_known hknown]
      exact h
    · have hnot : new ∉ added := fun hadded => hknown (.inr hadded)
      rw [Pool.addText_new hknown, ← List.concat_eq_append]
      exact h.concat hnot

private theorem length_newTexts (map : Bytes → Option Bytes) (c : ClassFile) (sites : List Site) :
    (newTexts map c sites).length =
      ((sites.filterMap (newText? map c.pool c)).foldl c.pool.addText []).length := by
  refine List.Perm.length_eq ?_
  refine (List.perm_ext_iff_of_nodup (List.nodup_dedup _) (nodup_foldl_addText .nil)).mpr ?_
  intro text
  simp [mem_foldl_addText]

private theorem renamable_iff (htexts : c.pool.TextsFit) (hinside : ∀ site ∈ sites, c.Inside site) :
    Renamable map c sites ↔
      ∃ added, sites.foldlM (addedBy map c) [] = some added ∧ c.RoomFor added := by
  simp only [foldlM_addedBy_iff hinside]
  constructor
  · intro h
    refine ⟨_, ⟨h.proper, rfl⟩, fun text htext => ?_, length_newTexts map c sites ▸ h.room⟩
    rcases mem_foldl_addText.mp htext with hnil | ⟨hnew, -⟩
    · cases hnil
    · obtain ⟨site, hsite, hnew⟩ := List.mem_filterMap.mp hnew
      exact h.short site hsite text hnew
  · rintro ⟨added, ⟨hproper, rfl⟩, hroom⟩
    refine ⟨hproper, fun site hsite new hnew => ?_, length_newTexts map c sites ▸ hroom.room⟩
    by_cases hold : Constant.utf8 new ∈ c.pool.entries
    · exact Nat.le_of_lt_succ (htexts new hold)
    · refine hroom.short new (mem_foldl_addText.mpr (.inr ⟨?_, hold⟩))
      exact List.mem_filterMap.mpr ⟨site, hsite, hnew⟩

private theorem proper_of_foldlM (h : sites.foldlM (addedBy map c) added = some added')
    (hsite : site ∈ sites) (hinside : c.Inside site) : c.Proper site := by
  induction sites generalizing added with
  | nil => cases hsite
  | cons first sites ih =>
    rw [List.foldlM_cons] at h
    obtain ⟨next, hfirst, hrest⟩ := Option.bind_eq_some_iff.mp h
    rcases List.mem_cons.mp hsite with rfl | hsite
    · exact ((addedBy_eq_some_iff hinside).mp hfirst).1
    · exact ih hrest hsite

private theorem rename_ok_iff_foldlM (hc : c.pool.Registered) (hnames : newNames.isEmpty = false) :
    (∃ tally c', c.rename newNames = .ok tally c') ↔ ∃ sites warnings added,
      c.sites = .ok (sites, warnings) ∧
        sites.foldlM (addedBy newNames.getText? c) [] = some added ∧ c.RoomFor added := by
  have hcount : c.pool.count ≤ UInt16.size := Nat.le_trans hc.count_le (by decide)
  have hroom : c.RoomFor [] := ⟨by simp, hc.count_le⟩
  rw [rename, hnames]
  cases hsites : c.sites with
  | error fault => simp
  | ok found =>
    obtain ⟨sites, warnings⟩ := found
    have hrun := eachAlone_ok_iff newNames.getText? (.refl hc) (apart_sites hcount hsites)
      (fun _ _ _ => Iff.rfl) hroom ⟨0, warnings⟩
    simp only [renameSites_eq_eachAlone hc (Faithful.empty _)]
    cases hresult : eachAlone newNames.getText? sites ⟨0, warnings⟩ c with
    | error fault c' => simpa [hresult] using hrun
    | ok t c' => simpa [hresult] using hrun

/-- A renaming succeeds exactly if the sites can be listed, each leads to a text in its turn,
outside attributes to a proper symbol, and the pool has room for the texts that are added on the
way. Sites with an index in the pool have to be proper ones, whatever is renamed. The texts that
the sites lead to at first tell the outcome exactly if every index is one of the pool. -/
theorem rename_ok_iff (hc : ofBytes bytes = .ok c) (hnames : newNames.isEmpty = false) :
    ((∃ tally c', c.rename newNames = .ok tally c') ↔ ∃ sites warnings added,
      c.sites = .ok (sites, warnings) ∧
        sites.foldlM (addedBy newNames.getText? c) [] = some added ∧ c.RoomFor added) ∧
    ((∃ tally c', c.rename newNames = .ok tally c') → ∃ sites warnings,
      c.sites = .ok (sites, warnings) ∧ ∀ site ∈ sites, c.Inside site → c.Proper site) ∧
    ((∃ sites warnings, c.sites = .ok (sites, warnings) ∧
      Renamable newNames.getText? c sites) ↔
        (∃ tally c', c.rename newNames = .ok tally c') ∧
          ∀ sites warnings, c.sites = .ok (sites, warnings) → ∀ site ∈ sites, c.Inside site) := by
  have htexts := (fits_of_ofBytes hc).texts
  rw [rename_ok_iff_foldlM (registered_of_ofBytes hc) hnames]
  refine ⟨Iff.rfl, ?_, ?_, ?_⟩
  · rintro ⟨sites, warnings, added, hsites, hadded, -⟩
    exact ⟨sites, warnings, hsites, fun site hsite => proper_of_foldlM hadded hsite⟩
  · rintro ⟨sites, warnings, hsites, h⟩
    have hinside := fun site hsite => (h.proper site hsite).inside
    obtain ⟨added, hadded⟩ := (renamable_iff htexts hinside).mp h
    refine ⟨⟨sites, warnings, added, hsites, hadded⟩, fun sites' warnings' hsites' => ?_⟩
    cases hsites.symm.trans hsites'
    exact hinside
  · rintro ⟨⟨sites, warnings, added, hsites, hadded⟩, hinside⟩
    exact ⟨sites, warnings, hsites,
      (renamable_iff htexts (hinside sites warnings hsites)).mpr ⟨added, hadded⟩⟩

/-- The field leads to the text that the renaming adds. No other renaming gets over it, and the
texts that the sites lead to at first do not tell. -/
theorem rename_lateSample_ok : ∃ c, ofBytes lateSample = .ok c ∧
    (∃ tally c', c.rename (.ofList [("A", "B")]) = .ok tally c') ∧
    (¬ ∃ tally c', c.rename (.ofList [("B", "C")]) = .ok tally c') ∧
    ¬ ∃ sites warnings, c.sites = .ok (sites, warnings) ∧
      Renamable (Renaming.ofList [("A", "B")]).getText? c sites := by
  have hrun : (ofBytes lateSample).toOption.map (fun c =>
      (((rename (.ofList [("A", "B")])).run' c).isSome,
        ((rename (.ofList [("B", "C")])).run' c).isSome,
        c.sites.toOption.map fun found => found.1.map Site.location,
        c.indexAt (.fieldDescriptor 0), c.pool.count)) =
      some (true, false, some [.constant 2, .constant 4, .fieldDescriptor 0], .ok 6, 6) := by
    rfl
  cases hc : ofBytes lateSample with
  | error fault =>
    rw [hc] at hrun
    cases hrun
  | ok c =>
    simp only [hc, Except.toOption, Option.map_some, Option.some.injEq, Prod.mk.injEq] at hrun
    obtain ⟨hfirst, hother, hsites, hindex, hcount⟩ := hrun
    delta EStateM.run' EStateM.run at hfirst hother
    refine ⟨c, rfl, ?_, ?_, fun hrenamable => ?_⟩
    · cases hrename : c.rename (.ofList [("A", "B")]) with
      | ok tally c' => exact ⟨tally, c', rfl⟩
      | error fault c' =>
        simp only [hrename] at hfirst
        cases hfirst
    · rintro ⟨tally, c', hrename⟩
      simp only [hrename] at hother
      cases hother
    · obtain ⟨-, hinside⟩ := (rename_ok_iff hc (by decide)).2.2.mp hrenamable
      obtain ⟨sites, warnings, hlisted, -⟩ := hrenamable
      simp only [hlisted, Option.map_some, Option.some.injEq] at hsites
      have hmem : Location.fieldDescriptor 0 ∈ sites.map Site.location := by
        simp [hsites]
      obtain ⟨site, hsite, hlocation⟩ := List.mem_map.mp hmem
      have hlt := hinside sites warnings hlisted site hsite 6 (hlocation ▸ hindex)
      rw [hcount] at hlt
      exact absurd hlt (by decide)

end ClassFile

end Retarget
