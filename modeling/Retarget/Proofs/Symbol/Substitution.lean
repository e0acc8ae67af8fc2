import Retarget.Proofs.Symbol.Readers

/-!
Exchanging the names in a symbol replaces stretches of its text. Which stretches
these are, and whether the text is accepted, is settled by the text alone: asking
for names while the text is read, with answers that may depend on all that was
asked before, asks for the same names in the same order. Everything between the
stretches is copied.
-/

set_option autoImplicit false

namespace Retarget

structure Span where
  start : Nat
  length : Nat
  deriving DecidableEq

namespace Span

def stop (s : Span) : Nat := s.start + s.length

def slice (text : Bytes) (s : Span) : Bytes := (text.drop s.start).take s.length

/-- The text from `position` on, with stretches replaced by the answers to them. A stretch without
an answer stays. -/
def replace (text : Bytes) (position : Nat) : List (Span × Option Bytes) → Bytes
  | [] => text.drop position
  | (s, answer) :: rest =>
    (text.drop position).take (s.start - position) ++ answer.getD (s.slice text) ++
      replace text s.stop rest

end Span

namespace Piece

def spans (position : Nat) : List Piece → List Span
  | [] => []
  | .byte _ :: pieces => spans (position + 1) pieces
  | .name word :: pieces => ⟨position, word.length⟩ :: spans (position + word.length) pieces

def fill : List Piece → List (Option Bytes) → Bytes
  | [], _ => []
  | .byte b :: pieces, answers => b :: fill pieces answers
  | .name word :: pieces, [] => word ++ fill pieces []
  | .name word :: pieces, answer :: answers => answer.getD word ++ fill pieces answers

variable {position : Nat} {front back : Bytes} {pieces : List Piece}

@[simp]
theorem filterMap_byte (b : UInt8) (pieces : List Piece) :
    (byte b :: pieces).filterMap name? = pieces.filterMap name? := rfl

@[simp]
theorem filterMap_name (word : Bytes) (pieces : List Piece) :
    (name word :: pieces).filterMap name? = word :: pieces.filterMap name? := rfl

private theorem spans_inside {s : Span} (hs : s ∈ spans position pieces) :
    position ≤ s.start ∧ s.stop ≤ position + (pieces.flatMap text).length := by
  induction pieces generalizing position with
  | nil => cases hs
  | cons piece pieces ih =>
    cases piece with
    | byte b =>
      have h := ih hs
      simp only [List.flatMap_cons, text, List.length_append, List.length_singleton]
      omega
    | name word =>
      simp only [List.flatMap_cons, text, List.length_append]
      rcases List.mem_cons.mp hs with rfl | hs
      · exact ⟨Nat.le_refl _, by simp only [Span.stop]; omega⟩
      · have h := ih hs
        omega

private theorem spans_apart (position : Nat) (pieces : List Piece) :
    (spans position pieces).Pairwise fun s t => s.stop ≤ t.start := by
  induction pieces generalizing position with
  | nil => exact .nil
  | cons piece pieces ih =>
    cases piece with
    | byte b => exact ih _
    | name word => exact .cons (fun t ht => (spans_inside ht).1) (ih _)

private theorem slice_spans (front : Bytes) (pieces : List Piece) (back : Bytes) :
    (spans front.length pieces).map (Span.slice (front ++ pieces.flatMap text ++ back)) =
      pieces.filterMap name? := by
  induction pieces generalizing front with
  | nil => rfl
  | cons piece pieces ih =>
    cases piece with
    | byte b =>
      have h := ih (front ++ [b])
      simpa [spans, text] using h
    | name word =>
      have h := ih (front ++ word)
      simpa [spans, text, Span.slice] using h

private theorem replace_of_lt {value : Bytes} {b : UInt8} {rest : List (Span × Option Bytes)}
    (hb : value[position]? = some b) (hrest : ∀ x ∈ rest, position < x.1.start) :
    Span.replace value position rest = b :: Span.replace value (position + 1) rest := by
  have hdrop : value.drop position = b :: value.drop (position + 1) := by
    obtain ⟨hlt, hget⟩ := List.getElem?_eq_some_iff.mp hb
    rw [List.drop_eq_getElem_cons hlt, hget]
  cases rest with
  | nil => exact hdrop
  | cons x rest =>
    obtain ⟨s, answer⟩ := x
    have hstart : position < s.start := hrest (s, answer) List.mem_cons_self
    have hsub : s.start - position = s.start - (position + 1) + 1 := by omega
    simp [Span.replace, hdrop, hsub]

private theorem replace_spans (front : Bytes) (pieces : List Piece) (back : Bytes)
    (answers : List (Option Bytes)) :
    Span.replace (front ++ pieces.flatMap text ++ back) front.length
        ((spans front.length pieces).zip answers) = fill pieces answers ++ back := by
  induction pieces generalizing front answers with
  | nil => simp [spans, fill, Span.replace]
  | cons piece pieces ih =>
    cases piece with
    | byte b =>
      have hfront : (front ++ [b]).length = front.length + 1 := by simp
      have hvalue : front ++ (byte b :: pieces).flatMap text ++ back =
          front ++ [b] ++ pieces.flatMap text ++ back := by simp [text]
      have h := ih (front ++ [b]) answers
      rw [hfront, ← hvalue] at h
      rw [spans, replace_of_lt (b := b), h]
      · rfl
      · simp [text]
      · rintro ⟨s, answer⟩ hs
        have hinside := spans_inside (List.of_mem_zip hs).1
        simp only
        omega
    | name word =>
      have hfront : (front ++ word).length = front.length + word.length := by simp
      have hvalue : front ++ (Piece.name word :: pieces).flatMap text ++ back =
          front ++ word ++ pieces.flatMap text ++ back := by simp [text]
      cases answers with
      | nil =>
        have h := ih (front ++ word) []
        rw [hfront] at h
        simp only [List.zip_nil_right, Span.replace] at h
        rw [hvalue]
        simpa [spans, fill, Span.replace] using h
      | cons answer answers =>
        have h := ih (front ++ word) answers
        rw [hfront, ← hvalue] at h
        have hslice : Span.slice (front ++ (Piece.name word :: pieces).flatMap text ++ back)
            ⟨front.length, word.length⟩ = word := by simp [Span.slice, text]
        simp only [spans, List.zip_cons_cons, Span.replace, hslice, Span.stop, h, fill]
        simp

theorem fill_map (map : Bytes → Option Bytes) (pieces : List Piece) :
    fill pieces ((pieces.filterMap name?).map map) = pieces.flatMap (exchange map) := by
  induction pieces with
  | nil => rfl
  | cons piece pieces ih =>
    cases piece with
    | byte b => simp [fill, exchange, ih]
    | name word => simp [fill, exchange, ih]

end Piece

namespace Scan

def answer (s : Scan) (answers : List (Option Bytes)) : Except Defect (Option Bytes) :=
  match s.defect with
  | some defect => .error defect
  | none => .ok (if answers.all Option.isNone then none else some (Piece.fill s.pieces answers))

theorem substitute_eq (map : Bytes → Option Bytes) (s : Scan) :
    s.substitute map = s.answer (s.names.map map) := by
  have hchanges : s.pieces.any (Piece.changes map) =
      !(s.names.map map).all Option.isNone := by
    rw [names]
    induction s.pieces with
    | nil => rfl
    | cons piece pieces ih =>
      cases piece with
      | byte b => simpa [Piece.changes] using ih
      | name name => cases hname : map name <;> simp_all [Piece.changes]
  rw [substitute, answer]
  cases s.defect with
  | some defect => rfl
  | none =>
    simp only [hchanges, names, Piece.fill_map]
    cases ((s.pieces.filterMap Piece.name?).map map).all Option.isNone <;> rfl

end Scan

/-- What was written of an exchanged text, and whether a name in it was replaced. -/
structure Draft where
  written : Bytes
  changed : Bool

section Asking

variable {m : Type → Type} [Monad m]

def Draft.add (ask : Bytes → m (Option Bytes)) (draft : Draft) : Piece → m Draft
  | .byte b => return ⟨draft.written ++ [b], draft.changed⟩
  | .name name => do
    let answer ← ask name
    return ⟨draft.written ++ answer.getD name, draft.changed || answer.isSome⟩

def Scanner.rewriteM {State : Type} (sc : Scanner State) (ask : Bytes → m (Option Bytes))
    (position : Nat) (state : State) (draft : Draft) : Bytes → m (Except Defect Draft)
  | [] =>
    match sc.finish position state with
    | none => return .ok draft
    | some defect => return .error defect
  | b :: rest =>
    match sc.step position state b with
    | .ok (state', pieces) => do
      let draft ← pieces.foldlM (Draft.add ask) draft
      rewriteM sc ask (position + 1) state' draft rest
    | .error defect => return .error defect

def Draft.result : Except Defect Draft → Except Defect (Option Bytes)
  | .ok draft => .ok (if draft.changed then some draft.written else none)
  | .error defect => .error defect

def Symbol.substituteM (kind : SymbolForm) (ask : Bytes → m (Option Bytes)) (text : Bytes) :
    m (Except Defect (Option Bytes)) :=
  let descriptor := Draft.result <$> Descriptor.scanner.rewriteM ask 0 .between ⟨[], false⟩ text
  match kind with
  | .className =>
    if text.head? = some '['.toUInt8 then descriptor else do return .ok (← ask text)
  | .descriptor => descriptor
  | .signature => Draft.result <$> Signature.scanner.rewriteM ask 0 [.start] ⟨[], false⟩ text

variable [LawfulMonad m] (ask : Bytes → m (Option Bytes))

private theorem Draft.foldlM_add (draft : Draft) (pieces : List Piece) :
    pieces.foldlM (Draft.add ask) draft =
      (fun answers => (⟨draft.written ++ Piece.fill pieces answers,
        draft.changed || answers.any Option.isSome⟩ : Draft)) <$>
        (pieces.filterMap Piece.name?).mapM ask := by
  induction pieces generalizing draft with
  | nil => simp [Piece.fill]
  | cons piece pieces ih =>
    cases piece with
    | byte b => simp [Draft.add, Piece.fill, ih]
    | name name => simp [Draft.add, Piece.fill, ih, Bool.or_assoc]

private theorem Scanner.rewriteM_eq {State : Type} (sc : Scanner State) (position : Nat)
    (state : State)
    (draft : Draft) (done : List Piece) (text : Bytes) :
    ∃ new, (sc.run position state done text).pieces = done.reverse ++ new ∧
      sc.rewriteM ask position state draft text = (do
        let draft ← new.foldlM (Draft.add ask) draft
        return match (sc.run position state done text).defect with
          | none => .ok draft
          | some defect => .error defect) := by
  induction text generalizing position state draft done with
  | nil =>
    refine ⟨[], by simp [run], ?_⟩
    cases hfinish : sc.finish position state <;> simp [rewriteM, run, hfinish]
  | cons b rest ih =>
    cases hstep : sc.step position state b with
    | error defect => exact ⟨[], by simp [run, hstep], by simp [rewriteM, run, hstep]⟩
    | ok result =>
      obtain ⟨state', pieces⟩ := result
      obtain ⟨new, hnew, -⟩ := ih (position + 1) state' draft (pieces.reverse ++ done)
      refine ⟨pieces ++ new, by simp [run, hstep, hnew], ?_⟩
      have hrest : ∀ draft, sc.rewriteM ask (position + 1) state' draft rest = (do
          let draft ← new.foldlM (Draft.add ask) draft
          return match (sc.run (position + 1) state' (pieces.reverse ++ done) rest).defect with
            | none => .ok draft
            | some defect => .error defect) := by
        intro draft
        obtain ⟨new', hnew', h⟩ := ih (position + 1) state' draft (pieces.reverse ++ done)
        rw [List.append_cancel_left (hnew.symm.trans hnew')]
        exact h
      simp only [rewriteM, hstep, run, List.foldlM_append, bind_assoc]
      exact bind_congr hrest

private theorem Scanner.result_rewriteM {State : Type} (sc : Scanner State) (state : State)
    (text : Bytes) :
    Draft.result <$> sc.rewriteM ask 0 state ⟨[], false⟩ text =
      (sc.run 0 state [] text).answer <$> (sc.run 0 state [] text).names.mapM ask := by
  obtain ⟨new, hnew, h⟩ := sc.rewriteM_eq ask 0 state ⟨[], false⟩ [] text
  have hpieces : (sc.run 0 state [] text).pieces = new := hnew
  rw [h, Draft.foldlM_add, Scan.names, hpieces]
  simp only [map_eq_pure_bind, bind_assoc, pure_bind]
  refine bind_congr fun answers => ?_
  rw [Scan.answer, hpieces]
  have hany : answers.any Option.isSome = !answers.all Option.isNone := by
    simp [List.any_eq_not_all_not]
  cases (sc.run 0 state [] text).defect with
  | some defect => rfl
  | none => cases hall : answers.all Option.isNone <;> simp [Draft.result, hany, hall]

theorem Symbol.substituteM_eq (kind : SymbolForm) (text : Bytes) :
    substituteM kind ask text = (scan kind text).answer <$> (scan kind text).names.mapM ask := by
  cases kind with
  | className =>
    rw [substituteM, scan]
    split_ifs with hopen
    · exact Descriptor.scanner.result_rewriteM ask .between text
    · simp only [Scan.names, Piece.name?, List.filterMap_cons, List.filterMap_nil, List.mapM_cons,
        List.mapM_nil, map_eq_pure_bind, bind_assoc, pure_bind]
      refine bind_congr fun answer => ?_
      cases answer <;> simp [Scan.answer, Piece.fill]
  | descriptor => exact Descriptor.scanner.result_rewriteM ask .between text
  | signature => exact Signature.scanner.result_rewriteM ask [.start] text

end Asking

namespace Symbol

/-- What was read of a text is what its pieces spell, and without a defect this is all of it. -/
theorem text_of_scan (kind : SymbolForm) (text : Bytes) :
    ∃ rest, text = (scan kind text).pieces.flatMap Piece.text ++ rest ∧
      ((scan kind text).defect = none → rest = []) := by
  have hreader : ∀ {State Q : Type} {sc : Scanner State} (o : sc.ByPieces Q) {s : State},
      o.Settled s → o.part s = [] → ∃ rest,
        text = (sc.run 0 s [] text).pieces.flatMap Piece.text ++ rest ∧
          ((sc.run 0 s [] text).defect = none → rest = []) := by
    intro State Q sc o s hs hpart
    have hrun : sc.run 0 s [] text = ⟨(sc.run 0 s [] text).pieces, (sc.run 0 s [] text).defect⟩ :=
      rfl
    obtain ⟨new, rest, hnew, htext, hend⟩ := o.of_run hs hrun
    rw [hpart, List.nil_append] at htext
    exact ⟨rest, by rw [hnew]; exact htext, fun hnone => (hend hnone).1⟩
  have hdescriptor := hreader Descriptor.byPieces Descriptor.settled_start rfl
  cases kind with
  | className =>
    rw [scan]
    split_ifs with hopen
    · exact hdescriptor
    · exact ⟨[], by simp [Piece.text], fun _ => rfl⟩
  | descriptor => exact hdescriptor
  | signature => exact hreader Signature.byPieces Signature.settled_start rfl

/-- The value with stretches replaced by the answers to them, none if all of them stay, or the
defect of the value. -/
def replaced (defect : Option Defect) (value : Bytes) (spans : List Span)
    (answers : List (Option Bytes)) : Except Defect (Option Bytes) :=
  match defect with
  | some defect => .error defect
  | none =>
    .ok (if answers.all Option.isNone then none
      else some (Span.replace value 0 (spans.zip answers)))

/-- Exchanging names replaces stretches of the text, one for each name that is asked for. Which
these are, and whether there is a defect, depends on the text and its kind only, not on the
answers, even if these depend on what was asked before. -/
theorem substitute_spans (kind : SymbolForm) (value : Bytes) :
    ∃ (defect : Option Defect) (spans : List Span),
      (∀ s ∈ spans, s.stop ≤ value.length) ∧ (spans.Pairwise fun s t => s.stop ≤ t.start) ∧
      (∀ map : Bytes → Option Bytes, substitute kind map value =
        replaced defect value spans (spans.map fun s => map (s.slice value))) ∧
      (∀ {σ : Type} (ask : Bytes → StateM σ (Option Bytes)), substituteM kind ask value = do
        let answers ← (spans.map (Span.slice value)).mapM ask
        return replaced defect value spans answers) ∧
      ∀ {σ : Type} (map : Bytes → Option Bytes),
        substituteM (m := StateM σ) kind (fun name => return map name) value =
          return substitute kind map value := by
  obtain ⟨rest, hvalue, hrest⟩ := text_of_scan kind value
  have hslices : (Piece.spans 0 (scan kind value).pieces).map (Span.slice value) =
      (scan kind value).names := by
    have h := Piece.slice_spans [] (scan kind value).pieces rest
    rwa [List.nil_append, ← hvalue] at h
  have hanswer : ∀ answers, (scan kind value).answer answers =
      replaced (scan kind value).defect value (Piece.spans 0 (scan kind value).pieces) answers := by
    intro answers
    cases hdefect : (scan kind value).defect with
    | some defect => simp only [Scan.answer, hdefect, replaced]
    | none =>
      have h := Piece.replace_spans [] (scan kind value).pieces rest answers
      rw [List.nil_append, ← hvalue, hrest hdefect, List.append_nil] at h
      simp only [Scan.answer, hdefect, replaced, ← h, List.length_nil]
  have hmap : ∀ map : Bytes → Option Bytes, substitute kind map value =
      (scan kind value).answer ((scan kind value).names.map map) :=
    fun map => Scan.substitute_eq map (scan kind value)
  refine ⟨(scan kind value).defect, Piece.spans 0 (scan kind value).pieces, ?_,
    Piece.spans_apart 0 _, ?_, ?_, ?_⟩
  · intro s hs
    have hinside := (Piece.spans_inside hs).2
    rw [hvalue, List.length_append]
    omega
  · intro map
    rw [hmap, hanswer, ← hslices, List.map_map]
    rfl
  · intro σ ask
    rw [substituteM_eq, hslices, map_eq_pure_bind]
    simp only [hanswer]
  · intro σ map
    rw [substituteM_eq, hmap, List.mapM_pure]
    rfl

end Symbol

end Retarget
