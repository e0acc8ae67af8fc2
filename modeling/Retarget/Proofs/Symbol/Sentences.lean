import Retarget.Proofs.Symbol.Grammar
import Retarget.Proofs.Symbol.Substitution

/-!
Reading what the grammar writes. The tokens of a tree lead the reader from the
goal that stands for the tree to what is to come behind it, so the pieces the
reader finds are the tokens, and the names that are exchanged are the names of
the tree.
-/

set_option autoImplicit false

namespace Retarget

open Grammar

namespace Descriptor

/-- The tokens lead the reader of descriptors back to where they started. -/
def Stays (tokens : List Token) : Prop :=
  (tokens.map (Token.piece ClassName.text)).foldlM Place.advance .between = some .between

private theorem Stays.append {tokens others : List Token} (h : Stays tokens) (h' : Stays others) :
    Stays (tokens ++ others) := by
  rw [Stays, List.map_append, List.foldlM_append, show _ = some Place.between from h]
  exact h'

private theorem stays_mark : ∀ c ∈ "BCDFIJSZV[()".toList, Stays [mark c] := by
  unfold Stays
  exact List.all_iff_forall_prop.mp (by decide)

private theorem stays_fieldType (type : FieldType) : Stays type.tokens := by
  induction type with
  | base type => cases type <;> exact stays_mark _ (by decide)
  | ofClass name =>
    have hname : ';'.toUInt8 ∉ name.text := fun h => name.unmarked _ h (by decide)
    simp only [Stays, FieldType.tokens, mark, List.map_cons, List.map_nil, Token.piece,
      List.foldlM_cons, List.foldlM_nil]
    simp [Place.advance, hname]
  | array element ih => exact (stays_mark '[' (by decide)).append ih

private theorem stays_methodType (type : MethodType) : Stays type.tokens := by
  have hparameters : Stays (type.parameters.flatMap FieldType.tokens) := by
    induction type.parameters with
    | nil => rfl
    | cons parameter parameters ih => exact (stays_fieldType parameter).append ih
  have hresult : Stays ((type.result.map FieldType.tokens).getD [mark 'V']) := by
    cases type.result with
    | none => exact stays_mark _ (by decide)
    | some result => exact stays_fieldType result
  have hopen : Stays [mark '('] := stays_mark _ (by decide)
  have hclose : Stays [mark ')'] := stays_mark _ (by decide)
  exact (hopen.append hparameters).append (hclose.append hresult)

end Descriptor

namespace Signature

/-- The tokens lead the reader of signatures from some goals to others. -/
def Takes (goals : List Goal) (tokens : List Token) (goals' : List Goal) : Prop :=
  (tokens.map (Token.piece ClassName.text)).foldlM advance goals = some goals'

variable {goals goals' goals'' : List Goal} {tokens others : List Token} {depth : Nat}

private theorem Takes.append (h : Takes goals tokens goals') (h' : Takes goals' others goals'') :
    Takes goals (tokens ++ others) goals'' := by
  rw [Takes, List.map_append, List.foldlM_append, show _ = some goals' from h]
  exact h'

private theorem Takes.cons {token : Token}
    (h : advance goals (token.piece ClassName.text) = some goals')
    (h' : Takes goals' tokens goals'') : Takes goals (token :: tokens) goals'' := by
  rw [Takes, List.map_cons, List.foldlM_cons, h]
  exact h'

private theorem takes_nil (goals : List Goal) : Takes goals [] goals := rfl

private theorem takes_flatMap {α : Type} {items : List α} {itemTokens : α → List Token}
    (h : ∀ item ∈ items, Takes goals (itemTokens item) goals) :
    Takes goals (items.flatMap itemTokens) goals := by
  induction items with
  | nil => exact takes_nil goals
  | cons item items ih =>
    obtain ⟨hitem, hitems⟩ := List.forall_mem_cons.mp h
    exact hitem.append (ih hitems)

private theorem takes_bytes {word : Bytes} (h : ∀ b ∈ word, advance goals (.byte b) = some goals) :
    Takes goals (word.map Token.byte) goals := by
  induction word with
  | nil => exact takes_nil goals
  | cons b word ih =>
    obtain ⟨hb, hword⟩ := List.forall_mem_cons.mp h
    exact .cons hb (ih hword)

private theorem takes_word {word : Bytes} (hnil : word ≠ [])
    (hfirst : ∀ b ∈ word, advance goals (.byte b) = some goals')
    (hkeep : ∀ b ∈ word, advance goals' (.byte b) = some goals') :
    Takes goals (word.map Token.byte) goals' := by
  cases word with
  | nil => exact absurd rfl hnil
  | cons b word =>
    exact .cons (hfirst b List.mem_cons_self)
      (takes_bytes fun c hc => hkeep c (List.mem_cons_of_mem b hc))

private theorem forall_ne {c : Char} (name : Identifier) (hc : c.toUInt8 ∈ Bytes.ascii ".;[/<>:") :
    ∀ b ∈ name.text, b ≠ c.toUInt8 := by
  rintro b hb rfl
  exact name.unmarked _ hb hc

def Plain (goals : List Goal) : Prop := outline goals = goals

private theorem Plain.cons {goal : Goal} (hgoal : goal.plain = goal) (h : Plain goals) :
    Plain (goal :: goals) := by
  rw [Plain, outline_cons, hgoal, show outline goals = goals from h]

private theorem takes_mark {c : Char} (h : advance goals (.byte c.toUInt8) = some (outline goals'))
    (hplain : Plain goals') : Takes goals [mark c] goals' := by
  refine .cons (h.trans ?_) (takes_nil goals')
  rw [show outline goals' = goals' from hplain]

private theorem takes_name (name : ClassName) (goals : List Goal) (start : Nat) (read : Bytes) :
    Takes (.className start read depth :: goals) [.name name] (.classRest depth :: goals) := by
  refine .cons ?_ (takes_nil _)
  rw [Token.piece, advance_className, if_neg]
  rintro (hnil | hany)
  · exact name.ne_nil hnil
  · obtain ⟨b, hb, hends⟩ := List.any_eq_true.mp hany
    have hmarks : ∀ b ∈ Bytes.ascii "<.;", b ∈ Bytes.ascii ".;[<>:" :=
      List.all_iff_forall_prop.mp (by decide)
    exact name.unmarked b hb (hmarks b (of_decide_eq_true hends))

section Types

/-- The goals act on the first byte of a type as a type inside `depth` others does. -/
structure Opens (depth : Nat) (top goals : List Goal) : Prop where
  ofClass : advance top (.byte 'L'.toUInt8) =
    advance (.reference depth :: goals) (.byte 'L'.toUInt8)
  typeVariable : advance top (.byte 'T'.toUInt8) =
    advance (.reference depth :: goals) (.byte 'T'.toUInt8)
  array : advance top (.byte '['.toUInt8) =
    advance (.reference depth :: goals) (.byte '['.toUInt8)

private theorem Opens.takes {top : List Goal} {type : Reference} (hopens : Opens depth top goals)
    (h : Takes (.reference depth :: goals) type.tokens goals) : Takes top type.tokens goals := by
  have hsame : ∀ (c : Char) (rest : List Token),
      advance top (.byte c.toUInt8) = advance (.reference depth :: goals) (.byte c.toUInt8) →
      Takes (.reference depth :: goals) (mark c :: rest) goals →
      Takes top (mark c :: rest) goals := by
    intro c rest heq h
    have hpiece : (mark c).piece ClassName.text = .byte c.toUInt8 := rfl
    rw [Takes, List.map_cons, List.foldlM_cons, hpiece] at h ⊢
    rwa [heq]
  cases type with
  | ofClass type => cases type; exact hsame 'L' _ hopens.ofClass h
  | typeVariable name => exact hsame 'T' _ hopens.typeVariable h
  | array element => exact hsame '[' _ hopens.array h

/-- The goals act on the bytes that end a name as the rest of a class type does. -/
structure Behind (depth : Nat) (top goals : List Goal) : Prop where
  arguments : advance top (.byte '<'.toUInt8) =
    some (outline (.typeArguments depth :: .classRest depth :: goals))
  inner : advance top (.byte '.'.toUInt8) = some (outline (.innerName 0 false depth :: goals))
  close : advance top (.byte ';'.toUInt8) = some (outline goals)

private theorem behind_classRest (depth : Nat) (goals : List Goal) :
    Behind depth (.classRest depth :: goals) goals := ⟨rfl, rfl, rfl⟩

private theorem behind_innerName (depth : Nat) (goals : List Goal) :
    Behind depth (.innerName 0 true depth :: goals) goals := ⟨rfl, rfl, rfl⟩

private theorem advance_reference (hdepth : depth < depthLimit) (b : UInt8) :
    advance (.reference depth :: goals) (.byte b) = (forget (
      if b = 'L'.toUInt8 then copy b (.className 1 [] (depth + 1) :: goals)
      else if b = 'T'.toUInt8 then copy b (.variableName 1 false :: goals)
      else if b = '['.toUInt8 then copy b (.javaType (depth + 1) :: goals)
      else .error (.missingReference 0))).map Prod.fst := by
  rw [advance_byte rfl, advanceByte, step, enter, if_pos hdepth]

private theorem opens_typeArguments (depth : Nat) (goals : List Goal) :
    Opens depth (.typeArguments depth :: goals) (.typeArguments depth :: goals) := ⟨rfl, rfl, rfl⟩

/-- The goals act on the first byte of any type as such a type inside `depth` others does. -/
structure OpensAny (depth : Nat) (top goals : List Goal) : Prop extends Opens depth top goals where
  base : ∀ type : BaseType, advance top (.byte type.letter.toUInt8) = some (outline goals)

private theorem opensAny_javaType (depth : Nat) (goals : List Goal) :
    OpensAny depth (.javaType depth :: goals) goals :=
  ⟨⟨rfl, rfl, rfl⟩, fun type => by cases type <;> rfl⟩

private theorem takes_identifier_inner (name : Identifier) (hplain : Plain goals) :
    Takes (.innerName 0 false depth :: goals) name.tokens (.innerName 0 true depth :: goals) := by
  have hmarks : ∀ b ∈ Bytes.ascii "<.;", b ∈ Bytes.ascii ".;[/<>:" :=
    List.all_iff_forall_prop.mp (by decide)
  have hends : ∀ b ∈ name.text, endsName b = false := fun b hb =>
    decide_eq_false fun hmem => name.unmarked b hb (hmarks b hmem)
  have hcopy : ∀ filled, ∀ b ∈ name.text,
      advance (.innerName 0 filled depth :: goals) (.byte b) =
        some (.innerName 0 true depth :: goals) := by
    intro filled b hb
    rw [advance_byte rfl, advanceByte, step, if_neg (by simp [hends b hb])]
    exact congrArg some (hplain.cons rfl)
  exact takes_word name.ne_nil (hcopy false) (hcopy true)

private theorem takes_identifier_variable (name : Identifier) (hplain : Plain goals) :
    Takes (.variableName 0 false :: goals) name.tokens (.variableName 0 true :: goals) := by
  have hcopy : ∀ filled, ∀ b ∈ name.text,
      advance (.variableName 0 filled :: goals) (.byte b) =
        some (.variableName 0 true :: goals) := by
    intro filled b hb
    have hne : b ≠ ';'.toUInt8 := forall_ne name (by decide) b hb
    rw [advance_byte rfl, advanceByte, step, if_neg hne]
    exact congrArg some (hplain.cons rfl)
  exact takes_word name.ne_nil (hcopy false) (hcopy true)

private theorem takes_bracketed {α : Type} (items : List α) {top : List Goal} (hplain : Plain goals)
    (htop : Behind depth top goals)
    (h : Takes (.typeArguments depth :: .classRest depth :: goals) tokens
      (.typeArguments depth :: .classRest depth :: goals)) :
    ∃ top', Behind depth top' goals ∧ Takes top (bracketed items tokens) top' := by
  unfold bracketed
  split_ifs
  · exact ⟨top, htop, takes_nil top⟩
  · have hrest : Plain (.classRest depth :: goals) := hplain.cons rfl
    have hopen : Takes top [mark '<'] (.typeArguments depth :: .classRest depth :: goals) :=
      takes_mark htop.arguments (hrest.cons rfl)
    have hclose : Takes (.typeArguments depth :: .classRest depth :: goals) [mark '>']
        (.classRest depth :: goals) := takes_mark rfl hrest
    exact ⟨_, behind_classRest depth goals, (hopen.append h).append hclose⟩

mutual

private theorem takes_classType (type : ClassType) {depth : Nat} {goals : List Goal}
    (hdepth : depth + type.nesting ≤ depthLimit) (hplain : Plain goals) :
    Takes (.reference depth :: goals) type.tokens goals := by
  match type with
  | .mk name arguments inner =>
    rw [ClassType.nesting] at hdepth
    have hopen : Takes (.reference depth :: goals) [mark 'L']
        (.className 0 [] (depth + 1) :: goals) :=
      takes_mark (by rw [advance_reference (by omega)]; rfl) (hplain.cons rfl)
    have hrest : Plain (.classRest (depth + 1) :: goals) := hplain.cons rfl
    obtain ⟨top, htop, harguments⟩ := takes_bracketed arguments hplain
      (behind_classRest (depth + 1) goals) (takes_arguments arguments (by omega) hrest)
    obtain ⟨top', htop', hinner⟩ := takes_innerClasses inner (by omega) hplain htop
    have hclose : Takes top' [mark ';'] goals := takes_mark htop'.close hplain
    exact (hopen.append (takes_name name goals 0 [])).append harguments |>.append hinner
      |>.append hclose

private theorem takes_reference (type : Reference) {depth : Nat} {goals : List Goal}
    (hdepth : depth + type.nesting ≤ depthLimit) (hplain : Plain goals) :
    Takes (.reference depth :: goals) type.tokens goals := by
  match type with
  | .ofClass type => exact takes_classType type hdepth hplain
  | .typeVariable name =>
    rw [Reference.nesting] at hdepth
    have hopen : Takes (.reference depth :: goals) [mark 'T'] (.variableName 0 false :: goals) :=
      takes_mark (by rw [advance_reference (by omega)]; rfl) (hplain.cons rfl)
    have hclose : Takes (.variableName 0 true :: goals) [mark ';'] goals := takes_mark rfl hplain
    exact (hopen.append (takes_identifier_variable name hplain)).append hclose
  | .array element =>
    rw [Reference.nesting] at hdepth
    have hopen : Takes (.reference depth :: goals) [mark '['] (.javaType (depth + 1) :: goals) :=
      takes_mark (by rw [advance_reference (by omega)]; rfl) (hplain.cons rfl)
    have helement := opensAny_javaType (depth + 1) goals
    exact hopen.append (takes_javaType element (by omega) hplain helement)

private theorem takes_javaType (type : JavaType) {depth : Nat} {goals top : List Goal}
    (hdepth : depth + type.nesting ≤ depthLimit) (hplain : Plain goals)
    (htop : OpensAny depth top goals) : Takes top type.tokens goals := by
  match type with
  | .base type => exact takes_mark (htop.base type) hplain
  | .reference type => exact htop.toOpens.takes (takes_reference type hdepth hplain)

private theorem takes_argument (argument : Argument) {depth : Nat} {goals : List Goal}
    (hdepth : depth + argument.nesting ≤ depthLimit) (hplain : Plain goals) :
    Takes (.typeArguments depth :: goals) argument.tokens (.typeArguments depth :: goals) := by
  have hagain : Plain (.typeArguments depth :: goals) := hplain.cons rfl
  match argument with
  | .any => exact takes_mark rfl hagain
  | .of none type =>
    exact (opens_typeArguments depth goals).takes (takes_reference type hdepth hagain)
  | .of (some wildcard) type =>
    have hwildcard : Takes (.typeArguments depth :: goals) [mark wildcard.letter]
        (.reference depth :: .typeArguments depth :: goals) := by
      cases wildcard <;> exact takes_mark rfl (hagain.cons rfl)
    exact hwildcard.append (takes_reference type hdepth hagain)

private theorem takes_arguments (arguments : List Argument) {depth : Nat} {goals : List Goal}
    (hdepth : depth + argumentNesting arguments ≤ depthLimit) (hplain : Plain goals) :
    Takes (.typeArguments depth :: goals) (argumentTokens arguments)
      (.typeArguments depth :: goals) := by
  match arguments with
  | [] => exact takes_nil _
  | argument :: arguments =>
    rw [argumentNesting] at hdepth
    exact (takes_argument argument (by omega) hplain).append
      (takes_arguments arguments (by omega) hplain)

private theorem takes_innerClass (inner : InnerClass) {depth : Nat} {goals top : List Goal}
    (hdepth : depth + inner.nesting ≤ depthLimit) (hplain : Plain goals)
    (htop : Behind depth top goals) :
    ∃ top', Behind depth top' goals ∧ Takes top inner.tokens top' := by
  match inner with
  | .mk name arguments =>
    have hopen : Takes top [mark '.'] (.innerName 0 false depth :: goals) :=
      takes_mark htop.inner (hplain.cons rfl)
    have hrest : Plain (.classRest depth :: goals) := hplain.cons rfl
    obtain ⟨top', htop', harguments⟩ := takes_bracketed arguments hplain
      (behind_innerName depth goals) (takes_arguments arguments hdepth hrest)
    exact ⟨top', htop', (hopen.append (takes_identifier_inner name hplain)).append harguments⟩

private theorem takes_innerClasses (inner : List InnerClass) {depth : Nat} {goals top : List Goal}
    (hdepth : depth + innerNesting inner ≤ depthLimit) (hplain : Plain goals)
    (htop : Behind depth top goals) :
    ∃ top', Behind depth top' goals ∧ Takes top (innerTokens inner) top' := by
  match inner with
  | [] => exact ⟨top, htop, takes_nil top⟩
  | first :: more =>
    rw [innerNesting] at hdepth
    obtain ⟨top', htop', hfirst⟩ := takes_innerClass first (by omega) hplain htop
    obtain ⟨top'', htop'', hmore⟩ := takes_innerClasses more (by omega) hplain htop'
    exact ⟨top'', htop'', hfirst.append hmore⟩

end

end Types

section Parts

private theorem takes_interfaces {bounds : List Reference}
    (hdepth : largest Reference.nesting bounds ≤ depthLimit) :
    Takes [.bounds] (interfaceTokens bounds) [.bounds] := by
  refine takes_flatMap fun bound hbound => ?_
  have hcolon : Takes [.bounds] [mark ':'] [.reference 0, .bounds] := takes_mark rfl rfl
  have hnesting := le_of_largest hdepth bound hbound
  exact hcolon.append (takes_reference bound (by omega) rfl)

private theorem takes_bounds (bounds : Bounds) (hdepth : bounds.nesting ≤ depthLimit) :
    Takes [.parameterName 0 true] bounds.tokens [.bounds] := by
  have hcolon : Takes [.parameterName 0 true] [mark ':'] [.classBound] := takes_mark rfl rfl
  cases bounds with
  | ofClass bound interfaces =>
    have hall : max bound.nesting (largest Reference.nesting interfaces) ≤ depthLimit := hdepth
    have hopens : Opens 0 [.classBound] [.bounds] := ⟨rfl, rfl, rfl⟩
    have hbound := hopens.takes (takes_reference bound (by omega) rfl)
    exact (hcolon.append hbound).append (takes_interfaces (by omega))
  | ofInterfaces first more =>
    have hall : max first.nesting (largest Reference.nesting more) ≤ depthLimit := hdepth
    have hempty : Takes [.classBound] [mark ':'] [.reference 0, .bounds] := takes_mark rfl rfl
    have hfirst := hempty.append (takes_reference first (by omega) rfl)
    exact hcolon.append (hfirst.append (takes_interfaces (by omega)))

/-- Where the name of a type parameter starts: at the first one, or behind the bounds of one. -/
def Between (goals : List Goal) : Prop := goals = [.parameterName 0 false] ∨ goals = [.bounds]

private theorem takes_typeParameter (parameter : TypeParameter)
    (hdepth : parameter.bounds.nesting ≤ depthLimit) (hgoals : Between goals) :
    Takes goals parameter.tokens [.bounds] := by
  have hname : ∀ b ∈ parameter.name.text, b ≠ ':'.toUInt8 ∧ b ≠ '>'.toUInt8 := fun b hb =>
    ⟨forall_ne parameter.name (by decide) b hb, forall_ne parameter.name (by decide) b hb⟩
  have hcopy : ∀ filled, ∀ b ∈ parameter.name.text,
      advance [.parameterName 0 filled] (.byte b) = some [.parameterName 0 true] := by
    intro filled b hb
    rw [advance_byte rfl, advanceByte, step, if_neg (hname b hb).1]
    rfl
  have hfirst : ∀ b ∈ parameter.name.text,
      advance goals (.byte b) = some [.parameterName 0 true] := by
    intro b hb
    rcases hgoals with rfl | rfl
    · exact hcopy false b hb
    · rw [advance_byte rfl, advanceByte, step, afterBound, if_neg (hname b hb).1,
        if_neg (hname b hb).2]
      rfl
  exact (takes_word parameter.name.ne_nil hfirst (hcopy true)).append
    (takes_bounds parameter.bounds hdepth)

private theorem takes_typeParameters {parameters : List TypeParameter} (hnil : parameters ≠ [])
    (hdepth : ∀ parameter ∈ parameters, parameter.bounds.nesting ≤ depthLimit)
    (hgoals : Between goals) : Takes goals (parameters.flatMap TypeParameter.tokens) [.bounds] := by
  cases parameters with
  | nil => exact absurd rfl hnil
  | cons parameter parameters =>
    obtain ⟨hfirst, hmore⟩ := List.forall_mem_cons.mp hdepth
    exact (takes_typeParameter parameter hfirst hgoals).append
      (takes_flatMap fun other hother => takes_typeParameter other (hmore other hother) (.inr rfl))

def Ahead (goals : List Goal) : Prop := goals = [.start] ∨ goals = [.body]

private theorem takes_parameterTokens (parameters : List TypeParameter)
    (hdepth : largest (fun parameter => parameter.bounds.nesting) parameters ≤ depthLimit) :
    ∃ goals, Ahead goals ∧ Takes [.start] (parameterTokens parameters) goals := by
  unfold parameterTokens bracketed
  split_ifs with hempty
  · exact ⟨[.start], .inl rfl, takes_nil _⟩
  · have hnil : parameters ≠ [] := by simpa using hempty
    have hall := le_of_largest hdepth
    have hopen : Takes [.start] [mark '<'] [.parameterName 0 false] := takes_mark rfl rfl
    have hclose : Takes [.bounds] [mark '>'] [.body] := takes_mark rfl rfl
    exact ⟨[.body], .inr rfl,
      (hopen.append (takes_typeParameters hnil hall (.inl rfl))).append hclose⟩

private theorem takes_body (hgoals : Ahead goals) (type : Reference)
    (hdepth : type.nesting ≤ depthLimit) :
    Takes goals type.tokens [.more] := by
  have hopens : Opens 0 goals [.more] := by
    rcases hgoals with rfl | rfl <;> exact ⟨rfl, rfl, rfl⟩
  exact hopens.takes (takes_reference type (by omega) rfl)

private theorem takes_classSignature (signature : ClassSignature)
    (hdepth : signature.nesting ≤ depthLimit) : Takes [.start] signature.tokens [.more] := by
  rw [ClassSignature.nesting] at hdepth
  have htypes : largest ClassType.nesting (signature.superclass :: signature.interfaces) ≤
      depthLimit := by omega
  obtain ⟨hsuper, hinterfaces⟩ := List.forall_mem_cons.mp (le_of_largest htypes)
  obtain ⟨goals, hgoals, hparameters⟩ :=
    takes_parameterTokens signature.typeParameters (by omega)
  have hsuperclass : Takes goals signature.superclass.tokens [.more] :=
    takes_body hgoals (.ofClass signature.superclass) hsuper
  have hopens : Opens 0 [.more] [.more] := ⟨rfl, rfl, rfl⟩
  refine (hparameters.append hsuperclass).append (takes_flatMap fun type htype => ?_)
  have hinterface : Takes [.reference 0, .more] (Reference.ofClass type).tokens [.more] :=
    takes_classType type (by have h := hinterfaces type htype; omega) rfl
  exact hopens.takes hinterface

private theorem takes_parameters {types : List JavaType}
    (hdepth : ∀ type ∈ types, type.nesting ≤ depthLimit) :
    Takes [.parameters] (types.flatMap JavaType.tokens) [.parameters] := by
  have htop : OpensAny 0 [.parameters] [.parameters] :=
    ⟨⟨rfl, rfl, rfl⟩, fun type => by cases type <;> rfl⟩
  refine takes_flatMap fun type htype => takes_javaType type ?_ rfl htop
  have h := hdepth type htype
  omega

private theorem takes_result {result : Option JavaType}
    (hdepth : ∀ type ∈ result.toList, type.nesting ≤ depthLimit) :
    Takes [.result] ((result.map JavaType.tokens).getD [mark 'V']) [.throws] := by
  cases result with
  | none => exact takes_mark rfl rfl
  | some type =>
    have htop : OpensAny 0 [.result] [.throws] :=
      ⟨⟨rfl, rfl, rfl⟩, fun type => by cases type <;> rfl⟩
    have h := hdepth type List.mem_cons_self
    exact takes_javaType type (by omega) rfl htop

private theorem takes_throws {throws : List Thrown}
    (hdepth : ∀ thrown ∈ throws, thrown.type.nesting ≤ depthLimit) :
    Takes [.throws] (throws.flatMap fun thrown => mark '^' :: thrown.type.tokens) [.throws] := by
  refine takes_flatMap fun thrown hthrown => ?_
  have hcaret : Takes [.throws] [mark '^'] [.reference 0, .throws] := takes_mark rfl rfl
  have h := hdepth thrown hthrown
  exact hcaret.append (takes_reference thrown.type (by omega) rfl)

private theorem takes_methodSignature (signature : MethodSignature)
    (hdepth : signature.nesting ≤ depthLimit) : Takes [.start] signature.tokens [.throws] := by
  rw [MethodSignature.nesting] at hdepth
  have htypes : largest JavaType.nesting (signature.parameters ++ signature.result.toList) ≤
      depthLimit := by omega
  have hthrown : largest (fun thrown => thrown.type.nesting) signature.throws ≤ depthLimit := by
    omega
  obtain ⟨hparameters, hresult⟩ := List.forall_mem_append.mp (le_of_largest htypes)
  obtain ⟨goals, hgoals, htypeParameters⟩ :=
    takes_parameterTokens signature.typeParameters (by omega)
  have hopen : Takes goals [mark '('] [.parameters] := by
    rcases hgoals with rfl | rfl <;> exact takes_mark rfl rfl
  have hclose : Takes [.parameters] [mark ')'] [.result] := takes_mark rfl rfl
  have hfront := htypeParameters.append (hopen.append (takes_parameters hparameters))
  have hback := hclose.append ((takes_result hresult).append (takes_throws (le_of_largest hthrown)))
  have htokens : signature.tokens = parameterTokens signature.typeParameters ++
      ([mark '('] ++ signature.parameters.flatMap JavaType.tokens) ++ ([mark ')'] ++
        ((signature.result.map JavaType.tokens).getD [mark 'V'] ++
          signature.throws.flatMap fun thrown => mark '^' :: thrown.type.tokens)) := by
    simp [MethodSignature.tokens]
  rw [htokens]
  exact hfront.append hback

end Parts

end Signature

namespace Grammar.Sentence

open Retarget.Symbol

variable (s : Sentence)

def pieces : List Piece := s.tokens.map (Token.piece ClassName.text)

private theorem flatMap_pieces : s.pieces.flatMap Piece.text = s.print ClassName.text := by
  rw [pieces, List.flatMap_map]
  rfl

private theorem names_pieces : s.pieces.filterMap Piece.name? = s.names.map ClassName.text := by
  rw [pieces, names]
  induction s.tokens with
  | nil => rfl
  | cons token tokens ih =>
    cases token with
    | byte b => exact ih
    | name ofClass => exact congrArg (ofClass.text :: ·) ih

private theorem exchange_pieces (map : Bytes → Option Bytes) :
    s.pieces.flatMap (Piece.exchange map) = s.print fun name => (map name.text).getD name.text := by
  rw [pieces, print]
  induction s.tokens with
  | nil => rfl
  | cons token tokens ih => cases token <;> exact congrArg (_ ++ ·) ih

private theorem scan_print (hdepth : s.nesting ≤ Signature.depthLimit) :
    scan s.form (s.print ClassName.text) = ⟨s.pieces, none⟩ := by
  have hdescriptor : ∀ {s : Sentence}, Descriptor.Stays s.tokens →
      Descriptor.scan (s.print ClassName.text) = ⟨s.pieces, none⟩ := by
    intro s h
    exact Descriptor.scan_eq_iff.mpr ⟨s.flatMap_pieces, h⟩
  have hsignature : ∀ {s : Sentence} {goals : List Signature.Goal},
      Signature.Takes [.start] s.tokens goals → Signature.finish 0 goals = none →
      Signature.scan (s.print ClassName.text) = ⟨s.pieces, none⟩ := by
    intro s goals h hfinish
    exact Signature.scan_eq_iff.mpr ⟨s.flatMap_pieces, goals, h, hfinish⟩
  cases s with
  | field type => exact hdescriptor (Descriptor.stays_fieldType type)
  | method type => exact hdescriptor (Descriptor.stays_methodType type)
  | genericClass signature =>
    exact hsignature (Signature.takes_classSignature signature hdepth) rfl
  | genericMethod signature =>
    exact hsignature (Signature.takes_methodSignature signature hdepth) rfl
  | genericField type => exact hsignature (Signature.takes_body (.inl rfl) type hdepth) rfl

/-- Exchanging the names in what the grammar writes exchanges the names of the tree: these are asked
for, in the order of the text, and the answers stand in their places. -/
theorem substitute_print (hdepth : s.nesting ≤ 256) :
    (∀ map : Bytes → Option Bytes, substitute s.form map (s.print ClassName.text) =
      .ok (if ∀ name ∈ s.names, map name.text = none then none
        else some (s.print fun name => (map name.text).getD name.text))) ∧
    ∀ {σ : Type} (ask : Bytes → StateM σ (Option Bytes)),
      substituteM s.form ask (s.print ClassName.text) = do
        let answers ← (s.names.map ClassName.text).mapM ask
        return .ok (if answers.all Option.isNone then none
          else some (Piece.fill s.pieces answers)) := by
  have hscan := s.scan_print hdepth
  constructor
  · intro map
    have hanswers : ((s.pieces.filterMap Piece.name?).map map).all Option.isNone ↔
        ∀ name ∈ s.names, map name.text = none := by
      simp [names_pieces]
    have hfill := (Piece.fill_map map s.pieces).trans (s.exchange_pieces map)
    rw [substitute, hscan, Scan.substitute_eq, Scan.answer, Scan.names, hfill]
    simp only [hanswers]
  · intro σ ask
    rw [substituteM_eq, hscan, Scan.names, names_pieces, map_eq_pure_bind]
    rfl

/-- A method with type parameters called `LX` and `T`, the second one without a class bound; an
inner class in it is called like a package. -/
def sampleMethod : Sentence :=
  let outer : ClassType := .mk ⟨Bytes.ascii "a/A", by decide, List.all_iff_forall_prop.mp (by decide)⟩ [] []
  let first : Identifier := ⟨Bytes.ascii "LX", by decide, List.all_iff_forall_prop.mp (by decide)⟩
  let second : Identifier := ⟨Bytes.ascii "T", by decide, List.all_iff_forall_prop.mp (by decide)⟩
  let bound : ClassType := .mk ⟨Bytes.ascii "b/B", by decide, List.all_iff_forall_prop.mp (by decide)⟩
    [.of (some .upper) (.typeVariable first), .any]
    [.mk ⟨Bytes.ascii "a", by decide, List.all_iff_forall_prop.mp (by decide)⟩
      [.of none (.ofClass outer)]]
  .genericMethod
    { typeParameters := [⟨first, .ofClass (.ofClass outer) []⟩,
        ⟨second, .ofInterfaces (.ofClass bound) []⟩]
      parameters := [.reference (.array (.reference (.typeVariable first))), .base .int]
      result := none
      throws := [.ofClass outer, .typeVariable second] }

theorem substitute_sampleMethod :
    sampleMethod.nesting ≤ 256 ∧
      substitute .signature
        (fun name => if name = Bytes.ascii "a/A" then some (Bytes.ascii "r/a/A") else none)
        (Bytes.ascii "<LX:La/A;T::Lb/B<+TLX;*>.a<La/A;>;>([TLX;I)V^La/A;^TT;") =
      .ok (some (Bytes.ascii "<LX:Lr/a/A;T::Lb/B<+TLX;*>.a<Lr/a/A;>;>([TLX;I)V^Lr/a/A;^TT;")) :=
  ⟨by decide, (substitute_print sampleMethod (by decide)).1
    fun name => if name = Bytes.ascii "a/A" then some (Bytes.ascii "r/a/A") else none⟩

end Grammar.Sentence

end Retarget
