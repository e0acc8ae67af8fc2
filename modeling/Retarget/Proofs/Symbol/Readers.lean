import Retarget.Proofs.Symbol.ByPieces
import Retarget.Symbol

/-!
The readers of descriptors and of signatures, piece by piece. In a descriptor a
name stands between an `L` and a semicolon. In a signature the goals that are
still to come decide what may follow, wherever the names in them start.
-/

set_option autoImplicit false

namespace Retarget

namespace Descriptor

inductive Place where
  | between
  /-- Behind an `L`, where a name stands. -/
  | opened
  /-- Behind a name. -/
  | named
  deriving DecidableEq

def Place.advance : Place → Piece → Option Place
  | .between, .byte b =>
    if b = 'L'.toUInt8 then some .opened else if isPlain b then some .between else none
  | .opened, .name name => if ';'.toUInt8 ∈ name then none else some .named
  | .named, .byte b => if b = ';'.toUInt8 then some .between else none
  | _, _ => none

namespace State

def place : State → Place
  | between => .between
  | naming _ _ => .opened

def part : State → Bytes
  | between => []
  | naming _ read => read.reverse

end State

variable {p : Nat} {s s' : State} {b : UInt8} {ps : List Piece}

private theorem move_of_step (hs : ';'.toUInt8 ∉ s.part) (h : step p s b = .ok (s', ps)) :
    ';'.toUInt8 ∉ s'.part ∧ Scanner.Move Place.advance b s.part s'.part s.place s'.place ps := by
  cases s with
  | between =>
    simp only [step] at h
    split_ifs at h with hopen hplain
    · cases h
      exact ⟨by simp [State.part], .copied rfl rfl (by simp [State.place, Place.advance, hopen])⟩
    · cases h
      exact ⟨by simp [State.part],
        .copied rfl rfl (by simp [State.place, Place.advance, hopen, hplain])⟩
  | naming start read =>
    simp only [step] at h
    split_ifs at h with hend
    · cases h
      have hname : Place.advance .opened (.name read.reverse) = some .named := if_neg hs
      have hclose : Place.advance .named (.byte b) = some .between := if_pos hend
      exact ⟨by simp [State.part], .ended rfl hname hclose⟩
    · cases h
      have hpart : State.part (.naming start (b :: read)) =
          State.part (.naming start read) ++ [b] := List.reverse_cons
      refine ⟨?_, .kept hpart rfl⟩
      rw [hpart, List.mem_append, List.mem_singleton]
      exact not_or.mpr ⟨hs, Ne.symm hend⟩

def byPieces : scanner.ByPieces Place where
  outline := State.place
  part := State.part
  Settled s := ';'.toUInt8 ∉ s.part
  advance := Place.advance
  Accepts q := q = .between
  move := move_of_step
  copies p s b q _ hpart hq := by
    cases s with
    | between =>
      simp only [State.place, Place.advance] at hq
      simp only [scanner, step]
      split_ifs at hq ⊢
      · exact ⟨_, rfl⟩
      · exact ⟨_, rfl⟩
    | naming => cases hq
  keeps p s b more q _ hq := by
    cases s with
    | between => cases hq
    | naming start read =>
      simp only [State.place, Place.advance] at hq
      split_ifs at hq with hmem
      have hb : b ≠ ';'.toUInt8 := by
        rintro rfl
        exact hmem (List.mem_append_right _ List.mem_cons_self)
      exact ⟨.naming start (b :: read), if_neg hb⟩
  ends p s b q q' _ hname hq := by
    cases s with
    | between => cases hname
    | naming start read =>
      simp only [State.place, Place.advance] at hname
      split_ifs at hname
      cases hname
      simp only [Place.advance] at hq
      split_ifs at hq with hb
      exact ⟨.between, if_pos hb⟩
  finishes p s _ := by
    cases s <;> simp [scanner, finish, State.part, State.place]
  closes {q q' name} h := by
    cases q with
    | opened =>
      simp only [Place.advance] at h
      split_ifs at h
      cases h
      exact ⟨by simp, fun other => rfl⟩
    | _ => cases h

def Accepted (pieces : List Piece) : Prop :=
  pieces.foldlM Place.advance .between = some .between

theorem settled_start : byPieces.Settled .between := by
  simp [byPieces, State.part]

theorem scan_eq_iff {text : Bytes} :
    scan text = ⟨ps, none⟩ ↔ ps.flatMap Piece.text = text ∧ Accepted ps := by
  have h : scan text = ⟨ps, none⟩ ↔ _ := byPieces.run_eq_iff settled_start rfl
  simpa [Accepted, Scanner.ByPieces.Leads, byPieces, State.place] using h

end Descriptor

namespace Signature

def Goal.plain : Goal → Goal
  | parameterName _ filled => parameterName 0 filled
  | className _ _ depth => className 0 [] depth
  | innerName _ filled depth => innerName 0 filled depth
  | variableName _ filled => variableName 0 filled
  | goal => goal

def Goal.isName : Goal → Bool
  | className .. => true
  | _ => false

def outline (goals : List Goal) : List Goal := goals.map Goal.plain

def part : List Goal → Bytes
  | .className _ read _ :: _ => read.reverse
  | _ => []

/-- Only the top goal is the name of a class, and what was read of it does not end it. -/
structure Settled (goals : List Goal) : Prop where
  below : ∀ goal ∈ goals.tail, goal.isName = false
  part : ∀ b ∈ part goals, endsName b = false

def forget : Step → Option (List Goal × List Piece)
  | .ok (goals, pieces) => some (outline goals, pieces)
  | .error _ => none

def advanceByte (goals : List Goal) (b : UInt8) : Option (List Goal) :=
  (forget (step 0 goals b)).map Prod.fst

def advance : List Goal → Piece → Option (List Goal)
  | .className _ _ depth :: goals, .name name =>
    if name = [] ∨ name.any endsName then none else some (.classRest depth :: goals)
  | .className .. :: _, .byte _ => none
  | _, .name _ => none
  | goals, .byte b => advanceByte goals b

variable {p p' depth : Nat} {goals goals' : List Goal} {goal : Goal} {b : UInt8}
  {pieces : List Piece}

@[simp]
theorem plain_plain (goal : Goal) : goal.plain.plain = goal.plain := by
  cases goal <;> rfl

@[simp]
theorem isName_plain (goal : Goal) : goal.plain.isName = goal.isName := by
  cases goal <;> rfl

@[simp]
theorem outline_outline (goals : List Goal) : outline (outline goals) = outline goals := by
  simp [outline, Function.comp_def]

theorem outline_cons (goal : Goal) (goals : List Goal) :
    outline (goal :: goals) = goal.plain :: outline goals := rfl

private theorem forget_copy (b : UInt8) (goals : List Goal) :
    forget (copy b goals) = some (outline goals, [.byte b]) := rfl

private theorem forget_error (defect : Defect) : forget (.error defect) = none := rfl

section Positions

/-! What a byte does to the goals does not depend on positions. -/

private theorem forget_enter (p p' depth : Nat) (goals : List Goal) (b : UInt8) :
    forget (enter p depth goals b) = forget (enter p' depth (outline goals) b) := by
  unfold enter
  split_ifs <;> simp [forget_copy, forget_error, outline_cons, Goal.plain]

private theorem forget_enterAny (p p' depth : Nat) (goals : List Goal) (b : UInt8) :
    forget (enterAny p depth goals b) = forget (enterAny p' depth (outline goals) b) := by
  unfold enterAny
  split_ifs
  · simp [forget_copy]
  · exact forget_enter p p' depth goals b

private theorem forget_afterName (p p' depth : Nat) (goals : List Goal) (b : UInt8) :
    forget (afterName p depth goals b) = forget (afterName p' depth (outline goals) b) := by
  unfold afterName
  split_ifs <;> simp [forget_copy, forget_error, outline_cons, Goal.plain]

private theorem forget_afterBound (p p' : Nat) (goals : List Goal) (b : UInt8) :
    forget (afterBound p goals b) = forget (afterBound p' (outline goals) b) := by
  unfold afterBound
  split_ifs <;> simp [forget_copy, outline_cons, Goal.plain]

private theorem forget_enterBody (p p' : Nat) (goals : List Goal) (b : UInt8) :
    forget (enterBody p goals b) = forget (enterBody p' (outline goals) b) := by
  unfold enterBody
  split_ifs
  · simp [forget_copy, outline_cons, Goal.plain]
  · exact forget_enter p p' 0 (.more :: goals) b

private theorem forget_step (hgoal : goal.isName = false) (p p' : Nat) (goals : List Goal)
    (b : UInt8) :
    forget (step p (goal :: goals) b) = forget (step p' (goal.plain :: outline goals) b) := by
  cases goal with
  | className => cases hgoal
  | start =>
    simp only [step, Goal.plain]
    split_ifs
    · simp [forget_copy, outline_cons, Goal.plain]
    · exact forget_enterBody p p' goals b
  | body => exact forget_enterBody p p' goals b
  | parameters =>
    simp only [step, Goal.plain]
    split_ifs
    · simp [forget_copy, outline_cons, Goal.plain]
    · exact forget_enterAny p p' 0 (.parameters :: goals) b
  | result =>
    simp only [step, Goal.plain]
    split_ifs
    · simp [forget_copy, outline_cons, Goal.plain]
    · exact forget_enterAny p p' 0 (.throws :: goals) b
  | throws =>
    simp only [step, Goal.plain]
    split_ifs <;> simp [forget_copy, forget_error, outline_cons, Goal.plain]
  | more => exact forget_enter p p' 0 (.more :: goals) b
  | parameterName start filled =>
    simp only [step, Goal.plain]
    split_ifs <;> simp [forget_copy, forget_error, outline_cons, Goal.plain]
  | classBound =>
    simp only [step, Goal.plain]
    split_ifs
    · exact forget_enter p p' 0 (.bounds :: goals) b
    · exact forget_afterBound p p' goals b
  | bounds => exact forget_afterBound p p' goals b
  | reference depth => exact forget_enter p p' depth goals b
  | javaType depth => exact forget_enterAny p p' depth goals b
  | classRest depth => exact forget_afterName p p' depth goals b
  | innerName start filled depth =>
    simp only [step, Goal.plain]
    split_ifs
    · exact forget_afterName p p' depth goals b
    · simp [forget_error]
    · simp [forget_copy, outline_cons, Goal.plain]
  | typeArguments depth =>
    simp only [step, Goal.plain]
    split_ifs
    · simp [forget_copy, outline_cons, Goal.plain]
    · simp [forget_copy, outline_cons, Goal.plain]
    · simp [forget_copy]
    · exact forget_enter p p' depth (.typeArguments depth :: goals) b
  | variableName start filled =>
    simp only [step, Goal.plain]
    split_ifs <;> simp [forget_copy, forget_error, outline_cons, Goal.plain]

end Positions

section Copies

/-- A byte that stands for itself, and behind which no part of a name was read. -/
def Copies (b : UInt8) (x : Step) : Prop :=
  ∀ (goals : List Goal) (pieces : List Piece), x = .ok (goals, pieces) →
    pieces = [.byte b] ∧ part goals = [] ∧ ∀ goal ∈ goals.tail, goal.isName = false

private theorem part_of_not_isName (h : ∀ goal ∈ goals, goal.isName = false) : part goals = [] := by
  cases goals with
  | nil => rfl
  | cons goal goals =>
    have hgoal := h goal List.mem_cons_self
    cases goal with
    | className => cases hgoal
    | _ => rfl

private theorem copies_error (b : UInt8) (defect : Defect) : Copies b (.error defect) := by
  intro goals pieces h
  cases h

private theorem copies_pop (h : ∀ goal ∈ goals, goal.isName = false) : Copies b (copy b goals) := by
  intro goals' pieces hcopy
  cases hcopy
  exact ⟨rfl, part_of_not_isName h, fun goal hgoal => h goal (List.mem_of_mem_tail hgoal)⟩

private theorem copies_push (hgoal : part (goal :: goals) = [])
    (h : ∀ goal ∈ goals, goal.isName = false) : Copies b (copy b (goal :: goals)) := by
  intro goals' pieces hcopy
  cases hcopy
  exact ⟨rfl, hgoal, h⟩

private theorem not_isName_cons (hgoal : goal.isName = false)
    (h : ∀ goal ∈ goals, goal.isName = false) :
    ∀ g ∈ goal :: goals, g.isName = false :=
  List.forall_mem_cons.mpr ⟨hgoal, h⟩

private theorem copies_enter (p depth : Nat) (h : ∀ goal ∈ goals, goal.isName = false) :
    Copies b (enter p depth goals b) := by
  unfold enter
  split_ifs
  · exact copies_push rfl h
  · exact copies_push rfl h
  · exact copies_push rfl h
  · exact copies_error b _
  · exact copies_error b _

private theorem copies_enterAny (p depth : Nat) (h : ∀ goal ∈ goals, goal.isName = false) :
    Copies b (enterAny p depth goals b) := by
  unfold enterAny
  split_ifs
  · exact copies_pop h
  · exact copies_enter p depth h

private theorem copies_afterName (p depth : Nat) (h : ∀ goal ∈ goals, goal.isName = false) :
    Copies b (afterName p depth goals b) := by
  unfold afterName
  split_ifs
  · exact copies_push rfl (not_isName_cons rfl h)
  · exact copies_push rfl h
  · exact copies_pop h
  · exact copies_error b _

private theorem copies_afterBound (p : Nat) (h : ∀ goal ∈ goals, goal.isName = false) :
    Copies b (afterBound p goals b) := by
  unfold afterBound
  split_ifs
  · exact copies_push rfl (not_isName_cons rfl h)
  · exact copies_push rfl h
  · exact copies_push rfl h

private theorem copies_enterBody (p : Nat) (h : ∀ goal ∈ goals, goal.isName = false) :
    Copies b (enterBody p goals b) := by
  unfold enterBody
  split_ifs
  · exact copies_push rfl h
  · exact copies_enter p 0 (not_isName_cons rfl h)

private theorem copies_step (hgoal : goal.isName = false) (p : Nat)
    (h : ∀ goal ∈ goals, goal.isName = false) : Copies b (step p (goal :: goals) b) := by
  cases goal with
  | className => cases hgoal
  | start =>
    simp only [step]
    split_ifs
    · exact copies_push rfl h
    · exact copies_enterBody p h
  | body => exact copies_enterBody p h
  | parameters =>
    simp only [step]
    split_ifs
    · exact copies_push rfl h
    · exact copies_enterAny p 0 (not_isName_cons rfl h)
  | result =>
    simp only [step]
    split_ifs
    · exact copies_push rfl h
    · exact copies_enterAny p 0 (not_isName_cons rfl h)
  | throws =>
    simp only [step]
    split_ifs
    · exact copies_push rfl (not_isName_cons rfl h)
    · exact copies_error b _
  | more => exact copies_enter p 0 (not_isName_cons rfl h)
  | parameterName start filled =>
    simp only [step]
    split_ifs
    · exact copies_push rfl h
    · exact copies_error b _
    · exact copies_push rfl h
  | classBound =>
    simp only [step]
    split_ifs
    · exact copies_enter p 0 (not_isName_cons rfl h)
    · exact copies_afterBound p h
  | bounds => exact copies_afterBound p h
  | reference depth => exact copies_enter p depth h
  | javaType depth => exact copies_enterAny p depth h
  | classRest depth => exact copies_afterName p depth h
  | innerName start filled depth =>
    simp only [step]
    split_ifs
    · exact copies_afterName p depth h
    · exact copies_error b _
    · exact copies_push rfl h
  | typeArguments depth =>
    simp only [step]
    split_ifs
    · exact copies_push rfl h
    · exact copies_push rfl (not_isName_cons rfl h)
    · exact copies_pop h
    · exact copies_enter p depth (not_isName_cons rfl h)
  | variableName start filled =>
    simp only [step]
    split_ifs
    · exact copies_pop h
    · exact copies_error b _
    · exact copies_push rfl h

end Copies

theorem advance_byte (hgoal : goal.isName = false) (goals : List Goal) (b : UInt8) :
    advance (goal :: goals) (.byte b) = advanceByte (goal :: goals) b := by
  cases goal with
  | className => cases hgoal
  | _ => rfl

theorem advance_className (start depth : Nat) (read : Bytes) (goals : List Goal) {name : Bytes} :
    advance (.className start read depth :: goals) (.name name) =
      if name = [] ∨ name.any endsName then none else some (.classRest depth :: goals) := rfl

private theorem advanceByte_of_ok (hgoal : goal.isName = false)
    (h : step p (goal :: goals) b = .ok (goals', pieces)) :
    advanceByte (outline (goal :: goals)) b = some (outline goals') := by
  have hforget := forget_step hgoal p 0 goals b
  rw [h] at hforget
  rw [advanceByte, outline_cons, ← hforget]
  rfl

private theorem ok_of_advanceByte {q : List Goal} (hgoal : goal.isName = false) (p : Nat)
    (h : advanceByte (outline (goal :: goals)) b = some q) :
    ∃ goals' pieces, step p (goal :: goals) b = .ok (goals', pieces) := by
  have hforget := forget_step hgoal p 0 goals b
  rw [advanceByte, outline_cons, ← hforget] at h
  cases hstep : step p (goal :: goals) b with
  | error defect => simp [hstep, forget_error] at h
  | ok result => exact ⟨_, _, rfl⟩

private theorem endsName_of_afterName (h : afterName p depth goals b = .ok (goals', pieces)) :
    endsName b = true := by
  unfold afterName at h
  split_ifs at h with hopen hinner hclose
  · subst hopen; decide
  · subst hinner; decide
  · subst hclose; decide

private theorem step_className (p start depth : Nat) (read : Bytes) (goals : List Goal)
    (b : UInt8) :
    step p (.className start read depth :: goals) b =
      if endsName b then
        if read.isEmpty then .error (.emptyIdentifier start)
        else
          match afterName p depth goals b with
          | .ok (goals', pieces) => .ok (goals', .name read.reverse :: pieces)
          | .error defect => .error defect
      else .ok (.className start (b :: read) depth :: goals, []) := rfl

private theorem move_of_step (hs : Settled goals) (h : step p goals b = .ok (goals', pieces)) :
    Settled goals' ∧ Scanner.Move advance b (part goals) (part goals')
      (outline goals) (outline goals') pieces := by
  cases goals with
  | nil => cases h
  | cons goal goals =>
    have hbelow : ∀ goal ∈ goals, goal.isName = false := hs.below
    cases hgoal : goal.isName with
    | false =>
      obtain ⟨rfl, hpart', htail⟩ := copies_step hgoal p hbelow _ _ h
      have hpart : part (goal :: goals) = [] :=
        part_of_not_isName (not_isName_cons hgoal hbelow)
      have hadvance : advance (outline (goal :: goals)) (.byte b) = some (outline goals') := by
        rw [outline_cons, advance_byte ((isName_plain goal).trans hgoal), ← outline_cons]
        exact advanceByte_of_ok hgoal h
      exact ⟨⟨htail, by simp [hpart']⟩, .copied hpart hpart' hadvance⟩
    | true =>
      cases goal with
      | className start read depth =>
        rw [step_className] at h
        split_ifs at h with hends hempty
        · cases hafter : afterName p depth goals b with
          | error defect => simp [hafter] at h
          | ok result =>
            obtain ⟨goals₁, pieces₁⟩ := result
            simp only [hafter, Except.ok.injEq, Prod.mk.injEq] at h
            obtain ⟨rfl, rfl⟩ := h
            obtain ⟨rfl, hpart', htail⟩ := copies_afterName p depth hbelow _ _ hafter
            have hstep : step p (.classRest depth :: goals) b = .ok (goals₁, [.byte b]) := hafter
            have hclose : advance (.classRest depth :: outline goals) (.byte b) =
                some (outline goals₁) := advanceByte_of_ok rfl hstep
            refine ⟨⟨htail, by simp [hpart']⟩, .ended hpart' ?_ hclose⟩
            have hname : part (.className start read depth :: goals) = read.reverse := rfl
            rw [outline_cons, Goal.plain, advance_className, if_neg]
            rintro (hnil | hany)
            · exact hempty (by simpa [hname] using hnil)
            · obtain ⟨c, hc, hstop⟩ := List.any_eq_true.mp hany
              rw [hs.part c hc] at hstop
              cases hstop
        · cases h
          have hpart' : part (.className start (b :: read) depth :: goals) =
              part (.className start read depth :: goals) ++ [b] := List.reverse_cons
          refine ⟨⟨hbelow, ?_⟩, .kept hpart' rfl⟩
          rw [hpart']
          intro c hc
          rcases List.mem_append.mp hc with hc | hc
          · exact hs.part c hc
          · rw [List.mem_singleton.mp hc]
            simpa using hends
      | _ => cases hgoal

def byPieces : scanner.ByPieces (List Goal) where
  outline := outline
  part := part
  Settled := Settled
  advance := advance
  Accepts q := finish 0 q = none
  move := move_of_step
  copies p goals b q hs hpart hq := by
    cases goals with
    | nil => cases hq
    | cons goal goals =>
      cases hgoal : goal.isName with
      | false =>
        rw [outline_cons, advance_byte ((isName_plain goal).trans hgoal), ← outline_cons] at hq
        obtain ⟨goals', pieces, hstep⟩ := ok_of_advanceByte hgoal p hq
        obtain ⟨rfl, -, -⟩ := copies_step hgoal p hs.below _ _ hstep
        exact ⟨goals', hstep⟩
      | true =>
        cases goal with
        | className => cases hq
        | _ => cases hgoal
  keeps p goals b more q hs hq := by
    cases goals with
    | nil => cases hq
    | cons goal goals =>
      cases goal with
      | className start read depth =>
        rw [outline_cons, Goal.plain, advance_className] at hq
        split_ifs at hq with hbad
        have hb : endsName b = false := by
          by_contra hends
          refine hbad (.inr (List.any_eq_true.mpr ⟨b, ?_, by simpa using hends⟩))
          exact List.mem_append_right _ List.mem_cons_self
        have hstep := step_className p start depth read goals b
        rw [if_neg (by simp [hb])] at hstep
        exact ⟨_, hstep⟩
      | _ => cases hq
  ends p goals b q q' hs hname hq := by
    cases goals with
    | nil => cases hname
    | cons goal goals =>
      cases goal with
      | className start read depth =>
        rw [outline_cons, Goal.plain, advance_className] at hname
        split_ifs at hname with hbad
        cases hname
        have hread : read.isEmpty = false := by
          rw [← Bool.not_eq_true, List.isEmpty_iff]
          rintro rfl
          exact hbad (.inl rfl)
        have hrest : (Goal.classRest depth).isName = false := rfl
        obtain ⟨goals', pieces, hafter⟩ := ok_of_advanceByte hrest p hq
        have hafter : afterName p depth goals b = .ok (goals', pieces) := hafter
        obtain ⟨rfl, -, -⟩ := copies_afterName p depth hs.below _ _ hafter
        have hstep := step_className p start depth read goals b
        rw [if_pos (endsName_of_afterName hafter), hread, hafter] at hstep
        exact ⟨goals', hstep⟩
      | _ => cases hname
  finishes p goals hs := by
    cases goals with
    | nil => simp [scanner, finish, part, outline]
    | cons goal goals => cases goal <;> simp [scanner, finish, part, outline, Goal.plain]
  closes {q q' name} h := by
    cases q with
    | nil => cases h
    | cons goal goals =>
      cases goal with
      | className start read depth =>
        rw [advance_className] at h
        split_ifs at h
        cases h
        exact ⟨by simp [finish], fun other => rfl⟩
      | _ => cases h

def Accepted (pieces : List Piece) : Prop :=
  ∃ goals, pieces.foldlM advance [.start] = some goals ∧ finish 0 goals = none

theorem settled_start : byPieces.Settled [.start] := ⟨by simp, by simp [part]⟩

theorem scan_eq_iff {text : Bytes} :
    scan text = ⟨pieces, none⟩ ↔ pieces.flatMap Piece.text = text ∧ Accepted pieces :=
  byPieces.run_eq_iff settled_start rfl

end Signature

end Retarget
