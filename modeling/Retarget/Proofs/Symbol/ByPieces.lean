import Mathlib.Tactic.Common
import Retarget.Symbol.Scan

/-!
A reader of symbols, seen piece by piece. A reader goes over a text byte by byte
and keeps the part of a name it has read so far. Seen from the pieces a name is
one step, and where it stands and what it spells matters no longer: an outline of
the state is all that decides which pieces may follow. So the texts a reader
accepts are those that pieces spell which lead the outline from its start to an
accepting end.
-/

set_option autoImplicit false

namespace Retarget

namespace Scanner

variable {State Q : Type}

/-- What a byte does to the part of a name read so far and to the outline: it stands for itself, or
it belongs to the name, or it ends the name. -/
inductive Move (advance : Q → Piece → Option Q) (b : UInt8) (part part' : Bytes) (q q' : Q) :
    List Piece → Prop where
  | copied (hpart : part = []) (hpart' : part' = []) (hq : advance q (.byte b) = some q') :
      Move advance b part part' q q' [.byte b]
  | kept (hpart' : part' = part ++ [b]) (hq : q' = q) : Move advance b part part' q q' []
  | ended {middle : Q} (hpart' : part' = []) (hname : advance q (.name part) = some middle)
      (hq : advance middle (.byte b) = some q') :
      Move advance b part part' q q' [.name part, .byte b]

/-- A reader together with the steps it takes from piece to piece. -/
structure ByPieces (m : Scanner State) (Q : Type) where
  outline : State → Q
  /-- The part of a name that was read. -/
  part : State → Bytes
  /-- The states a reader can be in. -/
  Settled : State → Prop
  advance : Q → Piece → Option Q
  Accepts : Q → Prop
  move : ∀ {p : Nat} {s s' : State} {b : UInt8} {ps : List Piece}, Settled s →
    m.step p s b = .ok (s', ps) →
    Settled s' ∧ Move advance b (part s) (part s') (outline s) (outline s') ps
  copies : ∀ (p : Nat) {s : State} {b : UInt8} {q : Q}, Settled s → part s = [] →
    advance (outline s) (.byte b) = some q → ∃ s', m.step p s b = .ok (s', [.byte b])
  keeps : ∀ (p : Nat) {s : State} {b : UInt8} {more : Bytes} {q : Q}, Settled s →
    advance (outline s) (.name (part s ++ b :: more)) = some q → ∃ s', m.step p s b = .ok (s', [])
  ends : ∀ (p : Nat) {s : State} {b : UInt8} {q q' : Q}, Settled s →
    advance (outline s) (.name (part s)) = some q → advance q (.byte b) = some q' →
    ∃ s', m.step p s b = .ok (s', [.name (part s), .byte b])
  finishes : ∀ (p : Nat) {s : State}, Settled s →
    (m.finish p s = none ↔ part s = [] ∧ Accepts (outline s))
  /-- After a name there has to be a byte. -/
  closes : ∀ {q q' : Q} {name : Bytes}, advance q (.name name) = some q' →
    ¬ Accepts q' ∧ ∀ other, advance q' (.name other) = none

namespace ByPieces

variable {m : Scanner State} (o : ByPieces m Q) {p : Nat} {s : State} {q : Q} {text : Bytes}
  {done pieces : List Piece} {defect : Option Defect}

def Leads (q : Q) (pieces : List Piece) (q' : Q) : Prop := pieces.foldlM o.advance q = some q'

/-- What was read is what its pieces spell, up to the defect that stopped the reader; without a
defect the pieces lead to an accepting outline. -/
theorem of_run (hs : o.Settled s) (h : m.run p s done text = ⟨pieces, defect⟩) :
    ∃ new rest, pieces = done.reverse ++ new ∧ o.part s ++ text = new.flatMap Piece.text ++ rest ∧
      (defect = none → rest = [] ∧ ∃ q, o.Leads (o.outline s) new q ∧ o.Accepts q) := by
  induction text generalizing p s done with
  | nil =>
    simp only [run, Scan.mk.injEq] at h
    obtain ⟨rfl, hfinish⟩ := h
    refine ⟨[], o.part s, by simp, by simp, fun hnone => ?_⟩
    obtain ⟨hpart, haccepts⟩ := (o.finishes p hs).mp (hfinish.trans hnone)
    exact ⟨hpart, o.outline s, rfl, haccepts⟩
  | cons b text ih =>
    simp only [run] at h
    split at h
    · next s' ps hstep =>
      obtain ⟨hs', hmove⟩ := o.move hs hstep
      obtain ⟨new, rest, rfl, htext, hend⟩ := ih hs' h
      have hdone : (ps.reverse ++ done).reverse ++ new = done.reverse ++ (ps ++ new) := by simp
      refine ⟨ps ++ new, rest, hdone, ?_, fun hnone => ?_⟩
      · cases hmove with
        | copied hpart hpart' => simpa [hpart, hpart', Piece.text] using htext
        | kept hpart' => simpa [hpart'] using htext
        | ended hpart' => simpa [hpart', Piece.text] using htext
      · obtain ⟨hrest, q, hleads, haccepts⟩ := hend hnone
        refine ⟨hrest, q, ?_, haccepts⟩
        cases hmove with
        | copied _ _ hq => simpa [Leads, hq] using hleads
        | kept _ hq => simpa [hq] using hleads
        | ended _ hname hq => simpa [Leads, hname, hq] using hleads
    · next fault hstep =>
      cases h
      exact ⟨[], o.part s ++ b :: text, by simp, by simp, by simp⟩

private theorem run_name (hs : o.Settled s) {name : Bytes} {b : UInt8} {middle q' : Q}
    (hname : o.advance (o.outline s) (.name (o.part s ++ name)) = some middle)
    (hb : o.advance middle (.byte b) = some q') (p : Nat) (done : List Piece) (text : Bytes) :
    ∃ s', o.Settled s' ∧ o.part s' = [] ∧ o.outline s' = q' ∧
      m.run p s done (name ++ b :: text) =
        m.run (p + name.length + 1) s' (.byte b :: .name (o.part s ++ name) :: done) text := by
  induction name generalizing s p with
  | nil =>
    rw [List.append_nil] at hname
    obtain ⟨s', hstep⟩ := o.ends p hs hname hb
    obtain ⟨hs', hmove⟩ := o.move hs hstep
    cases hmove with
    | ended hpart' hname' hb' =>
      rw [hname] at hname'
      cases hname'
      rw [hb] at hb'
      cases hb'
      exact ⟨s', hs', hpart', rfl, by simp [run, hstep]⟩
  | cons c name ih =>
    obtain ⟨s₁, hstep⟩ := o.keeps p hs hname
    obtain ⟨hs₁, hmove⟩ := o.move hs hstep
    cases hmove with
    | kept hpart' hq =>
      have hwhole : o.part s₁ ++ name = o.part s ++ c :: name := by simp [hpart']
      rw [← hq, ← hwhole] at hname
      obtain ⟨s', hs', hpart, houtline, hrun⟩ := ih hs₁ hname (p + 1)
      refine ⟨s', hs', hpart, houtline, ?_⟩
      have hlength : p + (c :: name).length = p + 1 + name.length := by simp; omega
      rw [hlength, ← hwhole, ← hrun]
      simp [run, hstep]

private theorem run_of_leads {s : State} {pieces : List Piece} (hs : o.Settled s)
    (hpart : o.part s = [])
    (hleads : o.Leads (o.outline s) pieces q) (haccepts : o.Accepts q) (p : Nat)
    (done : List Piece) :
    m.run p s done (pieces.flatMap Piece.text) = ⟨done.reverse ++ pieces, none⟩ := by
  match pieces with
  | [] =>
    cases hleads
    have hfinish := (o.finishes p hs).mpr ⟨hpart, haccepts⟩
    simp [run, hfinish]
  | .byte b :: pieces =>
    simp only [Leads, List.foldlM_cons] at hleads
    obtain ⟨q₁, hb, hleads⟩ := Option.bind_eq_some_iff.mp hleads
    obtain ⟨s', hstep⟩ := o.copies p hs hpart hb
    obtain ⟨hs', hmove⟩ := o.move hs hstep
    cases hmove with
    | copied _ hpart' hb' =>
      rw [hb] at hb'
      cases hb'
      have hrest := run_of_leads hs' hpart' hleads haccepts (p + 1) (.byte b :: done)
      simpa [run, hstep, Piece.text] using hrest
  | [.name name] =>
    simp only [Leads, List.foldlM_cons] at hleads
    obtain ⟨q₁, hname, hleads⟩ := Option.bind_eq_some_iff.mp hleads
    cases hleads
    exact absurd haccepts (o.closes hname).1
  | .name name :: .name other :: pieces =>
    simp only [Leads, List.foldlM_cons] at hleads
    obtain ⟨q₁, hname, hleads⟩ := Option.bind_eq_some_iff.mp hleads
    obtain ⟨q₂, hother, -⟩ := Option.bind_eq_some_iff.mp hleads
    rw [(o.closes hname).2 other] at hother
    cases hother
  | .name name :: .byte b :: pieces =>
    simp only [Leads, List.foldlM_cons] at hleads
    obtain ⟨q₁, hname, hleads⟩ := Option.bind_eq_some_iff.mp hleads
    obtain ⟨q₂, hb, hleads⟩ := Option.bind_eq_some_iff.mp hleads
    have hwhole : o.part s ++ name = name := by rw [hpart, List.nil_append]
    rw [← hwhole] at hname
    obtain ⟨s', hs', hpart', rfl, hrun⟩ :=
      o.run_name hs hname hb p done (pieces.flatMap Piece.text)
    have hrest := run_of_leads hs' hpart' hleads haccepts (p + name.length + 1)
      (.byte b :: .name (o.part s ++ name) :: done)
    simp only [List.flatMap_cons, Piece.text, List.singleton_append]
    rw [hrun, hrest, hwhole]
    simp
termination_by pieces.length

theorem run_eq_iff (hs : o.Settled s) (hpart : o.part s = []) :
    m.run p s [] text = ⟨pieces, none⟩ ↔
      pieces.flatMap Piece.text = text ∧ ∃ q, o.Leads (o.outline s) pieces q ∧ o.Accepts q := by
  constructor
  · intro h
    obtain ⟨new, rest, rfl, htext, hend⟩ := o.of_run hs h
    obtain ⟨rfl, hleads⟩ := hend rfl
    exact ⟨by simpa [hpart] using htext.symm, hleads⟩
  · rintro ⟨rfl, q, hleads, haccepts⟩
    exact o.run_of_leads hs hpart hleads haccepts p []

end ByPieces

end Scanner

end Retarget
