import Mathlib.Data.Bool.AllAny
import Retarget.Proofs.Symbol.Stable

/-!
Descriptors by their grammar, and what the reader of descriptors accepts. The
reader takes a text for a run of marks and class types in any order. The grammar
asks for an order: a field type is one type behind any number of brackets, and a
method type is a list of field types in parentheses with a result behind it. So
each descriptor is accepted, and what else is accepted is out of order.
-/

set_option autoImplicit false

namespace Retarget.Descriptor

section Grammar

/-- The texts of field types. `Name` says which texts are names of classes. -/
inductive FieldText (Name : Bytes → Prop) : Bytes → Prop where
  | base {b : UInt8} (h : b ∈ Bytes.ascii "BCDFIJSZ") : FieldText Name [b]
  | ofClass {name : Bytes} (h : Name name) :
    FieldText Name ('L'.toUInt8 :: name ++ [';'.toUInt8])
  | array {element : Bytes} (h : FieldText Name element) :
    FieldText Name ('['.toUInt8 :: element)

/-- The texts of descriptors, which are field types and method types. -/
inductive DescriptorText (Name : Bytes → Prop) : Bytes → Prop where
  | field {type : Bytes} (h : FieldText Name type) : DescriptorText Name type
  | method {parameters : List Bytes} {result : Bytes}
    (hparameters : ∀ type ∈ parameters, FieldText Name type)
    (hresult : FieldText Name result ∨ result = Bytes.ascii "V") :
    DescriptorText Name
      ('('.toUInt8 :: parameters.flatten ++ ')'.toUInt8 :: result)

end Grammar

/-- What the reader of descriptors takes at once. -/
inductive Item where
  /-- A letter or a bracket. -/
  | mark (b : UInt8)
  | ofClass (name : Bytes)
  deriving DecidableEq

namespace Item

def text : Item → Bytes
  | mark b => [b]
  | ofClass name => 'L'.toUInt8 :: name ++ [';'.toUInt8]

def pieces : Item → List Piece
  | mark b => [.byte b]
  | ofClass name => [.byte 'L'.toUInt8, .name name, .byte ';'.toUInt8]

def Sound : Item → Prop
  | mark b => isPlain b = true
  | ofClass name => ';'.toUInt8 ∉ name

def Named (Name : Bytes → Prop) : Item → Prop
  | mark _ => True
  | ofClass name => Name name

def isType : Item → Bool
  | mark b => Signature.isBase b
  | ofClass _ => true

end Item

/-- The text is what the items spell, and they are read from it again. -/
structure Spells (items : List Item) (value : Bytes) : Prop where
  joined : items.flatMap Item.text = value
  sound : ∀ item ∈ items, item.Sound

/-- What of a descriptor is still to come. -/
inductive Stage where
  /-- A field type or a method type. -/
  | start
  /-- The type an array has as elements, at the end of the descriptor. -/
  | element
  /-- Parameters, up to the closing parenthesis. -/
  | parameters
  /-- The type an array has as elements, and then more parameters. -/
  | parameterElement
  | result
  | done
  deriving DecidableEq

def bracket : Item := .mark '['.toUInt8

def Stage.advance : Stage → Item → Option Stage
  | start, item =>
    if item.isType then some done else if item = bracket then some element
    else if item = .mark '('.toUInt8 then some parameters else none
  | element, item =>
    if item.isType then some done else if item = bracket then some element else none
  | parameters, item =>
    if item.isType then some parameters else if item = bracket then some parameterElement
    else if item = .mark ')'.toUInt8 then some result else none
  | parameterElement, item =>
    if item.isType then some parameters else if item = bracket then some parameterElement
    else none
  | result, item =>
    if item.isType then some done else if item = bracket then some element
    else if item = .mark 'V'.toUInt8 then some done else none
  | done, _ => none

def Ordered (items : List Item) : Prop := items.foldlM Stage.advance .start = some .done

instance (items : List Item) : Decidable (Ordered items) := inferInstanceAs (Decidable (_ = _))

section Items

variable {items items' : List Item} {item : Item} {value : Bytes}

private theorem flatMap_text_pieces (items : List Item) :
    (items.flatMap Item.pieces).flatMap Piece.text = items.flatMap Item.text := by
  rw [List.flatMap_assoc]
  refine congrArg (items.flatMap ·) (funext fun item => ?_)
  cases item <;> simp [Item.pieces, Item.text, Piece.text]

private theorem ne_open_of_isPlain {b : UInt8} (h : isPlain b = true) : b ≠ 'L'.toUInt8 := by
  rintro rfl
  revert h
  decide

private theorem foldlM_pieces (h : item.Sound) :
    item.pieces.foldlM Place.advance .between = some .between := by
  cases item with
  | mark b =>
    have hstep : Place.advance .between (.byte b) = some .between :=
      (if_neg (ne_open_of_isPlain h)).trans (if_pos h)
    simp [Item.pieces, hstep]
  | ofClass name =>
    have hname : Place.advance .opened (.name name) = some .named := if_neg h
    have hopen : Place.advance .between (.byte 'L'.toUInt8) = some .opened := rfl
    have hclose : Place.advance .named (.byte ';'.toUInt8) = some .between := rfl
    simp [Item.pieces, hopen, hname, hclose]

private theorem accepted_of_items (h : ∀ item ∈ items, item.Sound) :
    Accepted (items.flatMap Item.pieces) := by
  induction items with
  | nil => rfl
  | cons item items ih =>
    obtain ⟨hitem, hitems⟩ := List.forall_mem_cons.mp h
    rw [Accepted, List.flatMap_cons, List.foldlM_append, foldlM_pieces hitem]
    exact ih hitems

private theorem exists_items (pieces : List Piece) (h : Accepted pieces) :
    ∃ items : List Item, (∀ item ∈ items, item.Sound) ∧ items.flatMap Item.pieces = pieces := by
  match pieces with
  | [] => exact ⟨[], by simp, rfl⟩
  | .name name :: rest => cases h
  | .byte b :: rest =>
    obtain ⟨place, hplace, hrest⟩ := Option.bind_eq_some_iff.mp h
    simp only [Place.advance] at hplace
    split_ifs at hplace with hopen hplain
    · cases hplace
      match rest with
      | [] => cases hrest
      | .byte c :: rest => cases hrest
      | .name name :: rest =>
        obtain ⟨place, hplace, hrest⟩ := Option.bind_eq_some_iff.mp hrest
        simp only [Place.advance] at hplace
        split_ifs at hplace with hmem
        cases hplace
        match rest with
        | [] => cases hrest
        | .name other :: rest => cases hrest
        | .byte c :: rest =>
          obtain ⟨place, hplace, hrest⟩ := Option.bind_eq_some_iff.mp hrest
          simp only [Place.advance] at hplace
          split_ifs at hplace with hclose
          cases hplace
          obtain ⟨items, hitems, hpieces⟩ := exists_items rest hrest
          refine ⟨.ofClass name :: items, List.forall_mem_cons.mpr ⟨hmem, hitems⟩, ?_⟩
          rw [List.flatMap_cons, hpieces, hopen, hclose]
          rfl
    · cases hplace
      obtain ⟨items, hitems, hpieces⟩ := exists_items rest hrest
      refine ⟨.mark b :: items, List.forall_mem_cons.mpr ⟨hplain, hitems⟩, ?_⟩
      rw [List.flatMap_cons, hpieces]
      rfl
termination_by pieces.length

private theorem scan_of_spells (h : Spells items value) :
    scan value = ⟨items.flatMap Item.pieces, none⟩ :=
  scan_eq_iff.mpr ⟨(flatMap_text_pieces items).trans h.joined, accepted_of_items h.sound⟩

private theorem eq_of_pieces (h : ∀ item ∈ items, item.Sound) (h' : ∀ item ∈ items', item.Sound)
    (hsame : items.flatMap Item.pieces = items'.flatMap Item.pieces) : items = items' := by
  induction items generalizing items' with
  | nil =>
    cases items' with
    | nil => rfl
    | cons item' items' => cases item' <;> simp [Item.pieces] at hsame
  | cons item items ih =>
    obtain ⟨hitem, hitems⟩ := List.forall_mem_cons.mp h
    cases items' with
    | nil => cases item <;> simp [Item.pieces] at hsame
    | cons item' items' =>
      obtain ⟨hitem', hitems'⟩ := List.forall_mem_cons.mp h'
      rw [List.flatMap_cons, List.flatMap_cons] at hsame
      cases item with
      | mark b =>
        cases item' with
        | mark b' =>
          obtain ⟨hb, hrest⟩ := List.cons.inj hsame
          cases hb
          rw [ih hitems hitems' hrest]
        | ofClass name' =>
          obtain ⟨hb, -⟩ := List.cons.inj hsame
          cases hb
          exact absurd rfl (ne_open_of_isPlain hitem)
      | ofClass name =>
        cases item' with
        | mark b' =>
          obtain ⟨hb, -⟩ := List.cons.inj hsame
          cases hb
          exact absurd rfl (ne_open_of_isPlain hitem')
        | ofClass name' =>
          obtain ⟨hname, hrest⟩ := List.append_inj hsame rfl
          cases hname
          rw [ih hitems hitems' hrest]

private theorem Spells.unique (h : Spells items value) (h' : Spells items' value) :
    items = items' :=
  eq_of_pieces h.sound h'.sound
    (congrArg Scan.pieces ((scan_of_spells h).symm.trans (scan_of_spells h')))

private theorem defect_eq_none_iff : (scan value).defect = none ↔ ∃ items, Spells items value := by
  constructor
  · intro h
    have hscan : scan value = ⟨(scan value).pieces, none⟩ := by rw [← h]
    obtain ⟨htext, haccepted⟩ := scan_eq_iff.mp hscan
    obtain ⟨items, hitems, hpieces⟩ := exists_items _ haccepted
    rw [← hpieces, flatMap_text_pieces] at htext
    exact ⟨items, htext, hitems⟩
  · rintro ⟨items, h⟩
    rw [scan_of_spells h]

end Items

section Orders

inductive FieldItems : List Item → Prop where
  | type {item : Item} (h : item.isType = true) : FieldItems [item]
  | array {items : List Item} (h : FieldItems items) : FieldItems (bracket :: items)

def ResultItems (items : List Item) : Prop := FieldItems items ∨ items = [.mark 'V'.toUInt8]

def ParameterItems (items : List Item) : Prop :=
  ∃ (types : List (List Item)) (result : List Item), (∀ type ∈ types, FieldItems type) ∧
    ResultItems result ∧ items = types.flatten ++ .mark ')'.toUInt8 :: result

def Stage.Completes : Stage → List Item → Prop
  | start, items =>
    FieldItems items ∨ ∃ rest, ParameterItems rest ∧ items = .mark '('.toUInt8 :: rest
  | element, items => FieldItems items
  | parameters, items => ParameterItems items
  | parameterElement, items =>
    ∃ type rest, FieldItems type ∧ ParameterItems rest ∧ items = type ++ rest
  | result, items => ResultItems items
  | done, items => items = []

variable {item : Item} {items : List Item} {q q' : Stage}

private theorem fieldItems_cons_iff : FieldItems (item :: items) ↔
    item.isType = true ∧ items = [] ∨ item = bracket ∧ FieldItems items := by
  constructor
  · intro h
    cases h with
    | type h => exact .inl ⟨h, rfl⟩
    | array h => exact .inr ⟨rfl, h⟩
  · rintro (⟨h, rfl⟩ | ⟨rfl, h⟩)
    · exact .type h
    · exact .array h

private theorem not_fieldItems_nil : ¬ FieldItems [] := nofun

private theorem resultItems_cons_iff : ResultItems (item :: items) ↔
    item.isType = true ∧ items = [] ∨ item = bracket ∧ FieldItems items ∨
      item = .mark 'V'.toUInt8 ∧ items = [] := by
  rw [ResultItems, fieldItems_cons_iff, List.cons.injEq, or_assoc]

private theorem parameterItems_cons_iff : ParameterItems (item :: items) ↔
    item.isType = true ∧ ParameterItems items ∨
      item = bracket ∧ Stage.parameterElement.Completes items ∨
      item = .mark ')'.toUInt8 ∧ ResultItems items := by
  constructor
  · rintro ⟨types, result, htypes, hresult, hitems⟩
    cases types with
    | nil =>
      obtain ⟨rfl, rfl⟩ := List.cons.inj hitems
      exact .inr (.inr ⟨rfl, hresult⟩)
    | cons type types =>
      obtain ⟨htype, hrest⟩ := List.forall_mem_cons.mp htypes
      cases htype with
      | type h =>
        obtain ⟨rfl, rfl⟩ := List.cons.inj hitems
        exact .inl ⟨h, types, result, hrest, hresult, rfl⟩
      | @array element h =>
        rw [List.flatten_cons, List.cons_append, List.cons_append, List.append_assoc] at hitems
        obtain ⟨rfl, rfl⟩ := List.cons.inj hitems
        exact .inr (.inl ⟨rfl, element, _, h, ⟨types, result, hrest, hresult, rfl⟩, rfl⟩)
  · rintro (⟨h, types, result, htypes, hresult, rfl⟩ |
      ⟨rfl, type, rest, htype, ⟨types, result, htypes, hresult, rfl⟩, rfl⟩ | ⟨rfl, h⟩)
    · exact ⟨[item] :: types, result, List.forall_mem_cons.mpr ⟨.type h, htypes⟩, hresult, rfl⟩
    · refine ⟨(bracket :: type) :: types, result,
        List.forall_mem_cons.mpr ⟨.array htype, htypes⟩, hresult, ?_⟩
      rw [List.flatten_cons, List.cons_append, List.cons_append, List.append_assoc]
    · exact ⟨[], items, by simp, h, rfl⟩

private theorem completes_cons_iff :
    q.Completes (item :: items) ↔ ∃ q', q.advance item = some q' ∧ q'.Completes items := by
  cases q with
  | start =>
    rw [Stage.Completes, fieldItems_cons_iff]
    constructor
    · rintro ((⟨h, rfl⟩ | ⟨rfl, h⟩) | ⟨rest, h, hitems⟩)
      · exact ⟨.done, if_pos h, rfl⟩
      · exact ⟨.element, rfl, h⟩
      · obtain ⟨rfl, rfl⟩ := List.cons.inj hitems
        exact ⟨.parameters, rfl, h⟩
    · rintro ⟨q', hstep, h⟩
      simp only [Stage.advance] at hstep
      split_ifs at hstep with htype hbracket hopen <;> cases hstep
      · exact .inl (.inl ⟨htype, h⟩)
      · exact .inl (.inr ⟨hbracket, h⟩)
      · exact .inr ⟨items, h, congrArg (· :: items) hopen⟩
  | element =>
    rw [Stage.Completes, fieldItems_cons_iff]
    constructor
    · rintro (⟨h, rfl⟩ | ⟨rfl, h⟩)
      · exact ⟨.done, if_pos h, rfl⟩
      · exact ⟨.element, rfl, h⟩
    · rintro ⟨q', hstep, h⟩
      simp only [Stage.advance] at hstep
      split_ifs at hstep with htype hbracket <;> cases hstep
      · exact .inl ⟨htype, h⟩
      · exact .inr ⟨hbracket, h⟩
  | parameters =>
    rw [Stage.Completes, parameterItems_cons_iff]
    constructor
    · rintro (⟨h, hrest⟩ | ⟨rfl, h⟩ | ⟨rfl, h⟩)
      · exact ⟨.parameters, if_pos h, hrest⟩
      · exact ⟨.parameterElement, rfl, h⟩
      · exact ⟨.result, rfl, h⟩
    · rintro ⟨q', hstep, h⟩
      simp only [Stage.advance] at hstep
      split_ifs at hstep with htype hbracket hclose <;> cases hstep
      · exact .inl ⟨htype, h⟩
      · exact .inr (.inl ⟨hbracket, h⟩)
      · exact .inr (.inr ⟨hclose, h⟩)
  | parameterElement =>
    -- behind a bracket a type of its own is still to come, which ends somewhere in the items
    rw [Stage.Completes]
    constructor
    · rintro ⟨type, rest, htype, hrest, hitems⟩
      cases htype with
      | type h =>
        obtain ⟨rfl, rfl⟩ := List.cons.inj hitems
        exact ⟨.parameters, if_pos h, hrest⟩
      | @array element h =>
        obtain ⟨rfl, rfl⟩ := List.cons.inj hitems
        exact ⟨.parameterElement, rfl, element, rest, h, hrest, rfl⟩
    · rintro ⟨q', hstep, h⟩
      simp only [Stage.advance] at hstep
      split_ifs at hstep with htype hbracket <;> cases hstep
      · exact ⟨[item], items, .type htype, h, rfl⟩
      · obtain ⟨type, rest, htype, hrest, rfl⟩ := h
        exact ⟨bracket :: type, rest, .array htype, hrest, congrArg (· :: _) hbracket⟩
  | result =>
    rw [Stage.Completes, resultItems_cons_iff]
    constructor
    · rintro (⟨h, rfl⟩ | ⟨rfl, h⟩ | ⟨rfl, rfl⟩)
      · exact ⟨.done, if_pos h, rfl⟩
      · exact ⟨.element, rfl, h⟩
      · exact ⟨.done, rfl, rfl⟩
    · rintro ⟨q', hstep, h⟩
      simp only [Stage.advance] at hstep
      split_ifs at hstep with htype hbracket hvoid <;> cases hstep
      · exact .inl ⟨htype, h⟩
      · exact .inr (.inl ⟨hbracket, h⟩)
      · exact .inr (.inr ⟨hvoid, h⟩)
  | done => simp [Stage.Completes, Stage.advance]

private theorem completes_nil_iff : q.Completes [] ↔ q = .done := by
  cases q with
  | done => simp [Stage.Completes]
  | start => simp [Stage.Completes, not_fieldItems_nil]
  | element => simp [Stage.Completes, not_fieldItems_nil]
  | result => simp [Stage.Completes, ResultItems, not_fieldItems_nil]
  | parameters => simp [Stage.Completes, ParameterItems]
  | parameterElement =>
    simp only [Stage.Completes, reduceCtorEq, iff_false]
    rintro ⟨type, rest, htype, -, hnil⟩
    rw [(List.append_eq_nil_iff.mp hnil.symm).1] at htype
    exact not_fieldItems_nil htype

private theorem foldlM_advance_iff :
    items.foldlM Stage.advance q = some .done ↔ q.Completes items := by
  induction items generalizing q with
  | nil =>
    rw [completes_nil_iff]
    exact Option.some_inj
  | cons item items ih =>
    rw [List.foldlM_cons, completes_cons_iff, Option.bind_eq_bind, Option.bind_eq_some_iff]
    exact exists_congr fun q' => and_congr_right fun _ => ih

private theorem isPlain_of_isBase {b : UInt8} (h : Signature.isBase b = true) :
    isPlain b = true := by
  have hall : ∀ b ∈ Bytes.ascii "BCDFIJSZ", isPlain b = true :=
    List.all_iff_forall_prop.mp (by decide)
  exact hall b (of_decide_eq_true h)

private theorem isPlain_of_advance {b : UInt8} (h : q.advance (.mark b) = some q') :
    isPlain b = true := by
  have hmarks : ∀ {c : UInt8}, isPlain c = true → Item.mark b = .mark c → isPlain b = true := by
    rintro c hc hsame
    cases hsame
    exact hc
  cases q with
  | done => cases h
  | element | parameterElement =>
    simp only [Stage.advance] at h
    split_ifs at h with htype hbracket
    · exact isPlain_of_isBase htype
    · exact hmarks (by decide) hbracket
  | start | parameters | result =>
    simp only [Stage.advance] at h
    split_ifs at h with htype hbracket hlast
    · exact isPlain_of_isBase htype
    · exact hmarks (by decide) hbracket
    · exact hmarks (by decide) hlast

private theorem sound_of_foldlM (h : items.foldlM Stage.advance q = some q')
    (hnames : ∀ item ∈ items, item.Named (';'.toUInt8 ∉ ·)) : ∀ item ∈ items, item.Sound := by
  induction items generalizing q with
  | nil => simp
  | cons item items ih =>
    obtain ⟨middle, hstep, hrest⟩ := Option.bind_eq_some_iff.mp h
    obtain ⟨hname, hnames⟩ := List.forall_mem_cons.mp hnames
    refine List.forall_mem_cons.mpr ⟨?_, ih hrest hnames⟩
    cases item with
    | mark b => exact isPlain_of_advance hstep
    | ofClass name => exact hname

end Orders

section Texts

variable {Name : Bytes → Prop} {value : Bytes} {map : Bytes → Option Bytes}

private theorem fieldText_iff : FieldText Name value ↔ ∃ items, FieldItems items ∧
    (∀ item ∈ items, item.Named Name) ∧ items.flatMap Item.text = value := by
  constructor
  · intro h
    induction h with
    | @base b h =>
      have htype : (Item.mark b).isType = true := decide_eq_true h
      exact ⟨[.mark b], .type htype, by simp [Item.Named], rfl⟩
    | @ofClass name h =>
      exact ⟨[.ofClass name], .type rfl, List.forall_mem_singleton.mpr h, by simp [Item.text]⟩
    | array _ ih =>
      obtain ⟨items, hitems, hnamed, rfl⟩ := ih
      exact ⟨bracket :: items, .array hitems, List.forall_mem_cons.mpr ⟨trivial, hnamed⟩, rfl⟩
  · rintro ⟨items, hitems, hnamed, rfl⟩
    induction hitems with
    | @type item h =>
      cases item with
      | mark b => exact .base (of_decide_eq_true h)
      | ofClass name =>
        have hname : Name name := hnamed _ List.mem_cons_self
        simpa [Item.text] using FieldText.ofClass hname
    | array _ ih => exact .array (ih (List.forall_mem_cons.mp hnamed).2)

private theorem exists_types {parameters : List Bytes}
    (h : ∀ type ∈ parameters, FieldText Name type) :
    ∃ types : List (List Item), (∀ type ∈ types, FieldItems type) ∧
      (∀ item ∈ types.flatten, item.Named Name) ∧
      types.flatten.flatMap Item.text = parameters.flatten := by
  induction parameters with
  | nil => exact ⟨[], by simp, by simp, rfl⟩
  | cons parameter parameters ih =>
    obtain ⟨hfirst, hrest⟩ := List.forall_mem_cons.mp h
    obtain ⟨items, hitems, hnamed, hspelled⟩ := fieldText_iff.mp hfirst
    obtain ⟨types, htypes, hnamed', hspelled'⟩ := ih hrest
    refine ⟨items :: types, List.forall_mem_cons.mpr ⟨hitems, htypes⟩, ?_, ?_⟩
    · rw [List.flatten_cons]
      exact List.forall_mem_append.mpr ⟨hnamed, hnamed'⟩
    · rw [List.flatten_cons, List.flatMap_append, hspelled, hspelled', List.flatten_cons]

private theorem descriptorText_iff : DescriptorText Name value ↔ ∃ items, Ordered items ∧
    (∀ item ∈ items, item.Named Name) ∧ items.flatMap Item.text = value := by
  have hordered : ∀ items, Ordered items ↔ Stage.start.Completes items :=
    fun items => foldlM_advance_iff
  constructor
  · intro h
    cases h with
    | field h =>
      obtain ⟨items, hitems, hrest⟩ := fieldText_iff.mp h
      exact ⟨items, (hordered items).mpr (.inl hitems), hrest⟩
    | @method parameters result hparameters hresult =>
      obtain ⟨types, htypes, hnamed, hspelled⟩ := exists_types hparameters
      obtain ⟨last, hlast, hlastNamed, rfl⟩ : ∃ items, ResultItems items ∧
          (∀ item ∈ items, item.Named Name) ∧ items.flatMap Item.text = result := by
        rcases hresult with h | rfl
        · obtain ⟨items, hitems, hrest⟩ := fieldText_iff.mp h
          exact ⟨items, .inl hitems, hrest⟩
        · exact ⟨[.mark 'V'.toUInt8], .inr rfl, by simp [Item.Named], rfl⟩
      refine ⟨.mark '('.toUInt8 :: (types.flatten ++ .mark ')'.toUInt8 :: last),
        (hordered _).mpr (.inr ⟨_, ⟨types, last, htypes, hlast, rfl⟩, rfl⟩), ?_, ?_⟩
      · refine List.forall_mem_cons.mpr ⟨trivial, List.forall_mem_append.mpr ⟨hnamed, ?_⟩⟩
        exact List.forall_mem_cons.mpr ⟨trivial, hlastNamed⟩
      · simp [Item.text, hspelled]
  · rintro ⟨items, hitems, hnamed, rfl⟩
    rcases (hordered items).mp hitems with hfield |
      ⟨rest, ⟨types, result, htypes, hresult, rfl⟩, rfl⟩
    · exact .field (fieldText_iff.mpr ⟨items, hfield, hnamed, rfl⟩)
    · obtain ⟨-, hnamed⟩ := List.forall_mem_cons.mp hnamed
      obtain ⟨htypesNamed, hlastNamed⟩ := List.forall_mem_append.mp hnamed
      obtain ⟨-, hlastNamed⟩ := List.forall_mem_cons.mp hlastNamed
      have hparameters : ∀ type ∈ types.map (List.flatMap Item.text), FieldText Name type := by
        intro text htext
        obtain ⟨type, htype, rfl⟩ := List.mem_map.mp htext
        refine fieldText_iff.mpr ⟨type, htypes type htype, fun item hitem => ?_, rfl⟩
        exact htypesNamed item (List.mem_flatten.mpr ⟨type, htype, hitem⟩)
      have hlast : FieldText Name (result.flatMap Item.text) ∨
          result.flatMap Item.text = Bytes.ascii "V" := by
        rcases hresult with hresult | rfl
        · exact .inl (fieldText_iff.mpr ⟨result, hresult, hlastNamed, rfl⟩)
        · exact .inr rfl
      have htext := DescriptorText.method hparameters hlast
      have hflatten : (types.map (List.flatMap Item.text)).flatten =
          types.flatten.flatMap Item.text := by
        rw [← List.flatMap_def, ← List.flatMap_id, List.flatMap_assoc]
        rfl
      rw [hflatten] at htext
      simpa [Item.text] using htext

private theorem substitute_ok_iff :
    (∃ new, Symbol.substitute .descriptor map value = .ok new) ↔ ∃ items, Spells items value := by
  rw [← defect_eq_none_iff]
  constructor
  · rintro ⟨new, h⟩
    exact Symbol.defect_of_substitute h
  · intro h
    rw [Symbol.substitute, Symbol.scan, Scan.substitute, h]
    simp only
    split_ifs
    · exact ⟨_, rfl⟩
    · exact ⟨_, rfl⟩

/-- The names in a text are exchanged exactly if it is a run of items in any order, whatever the
new names are. A descriptor is such a run in order in which each name is the name of a class. So all
descriptors pass, and nothing else does at a text exactly if its items, if it has any, are in order
and named. -/
theorem passed_iff_ordered (hname : ∀ name, Name name → ';'.toUInt8 ∉ name)
    (map : Bytes → Option Bytes) (value : Bytes) :
    ((∃ new, Symbol.substitute .descriptor map value = .ok new) ↔ ∃ items, Spells items value) ∧
    (DescriptorText Name value ↔ ∃ items, Spells items value ∧ Ordered items ∧
      ∀ item ∈ items, item.Named Name) ∧
    (((∃ new, Symbol.substitute .descriptor map value = .ok new) ↔ DescriptorText Name value) ↔
      ∀ items, Spells items value → Ordered items ∧ ∀ item ∈ items, item.Named Name) := by
  have hdescriptor : DescriptorText Name value ↔ ∃ items, Spells items value ∧ Ordered items ∧
      ∀ item ∈ items, item.Named Name := by
    rw [descriptorText_iff]
    refine exists_congr fun items => ⟨?_, fun ⟨hspells, hordered, hnamed⟩ =>
      ⟨hordered, hnamed, hspells.joined⟩⟩
    rintro ⟨hordered, hnamed, hjoined⟩
    refine ⟨⟨hjoined, sound_of_foldlM hordered fun item hitem => ?_⟩, hordered, hnamed⟩
    have hitemNamed := hnamed item hitem
    cases item with
    | mark b => trivial
    | ofClass name => exact hname name hitemNamed
  refine ⟨substitute_ok_iff, hdescriptor, ?_⟩
  rw [substitute_ok_iff, hdescriptor]
  constructor
  · intro hsame items hspells
    obtain ⟨items', hspells', hordered⟩ := hsame.mp ⟨items, hspells⟩
    rwa [hspells.unique hspells']
  · intro hall
    exact ⟨fun ⟨items, hspells⟩ => ⟨items, hspells, hall items hspells⟩,
      fun ⟨items, hspells, _⟩ => ⟨items, hspells⟩⟩

/-- Two base types in a row pass, and they are not a descriptor. -/
theorem passed_iff_ordered_twoBases :
    (∀ name : Bytes, ';'.toUInt8 ∉ name → ';'.toUInt8 ∉ name) ∧
    (∃ new, Symbol.substitute .descriptor (fun _ => none) (Bytes.ascii "II") = .ok new) ∧
    ¬ DescriptorText (';'.toUInt8 ∉ ·) (Bytes.ascii "II") := by
  have hspells : Spells [.mark 'I'.toUInt8, .mark 'I'.toUInt8] (Bytes.ascii "II") :=
    ⟨by decide, by simp [Item.Sound]; decide⟩
  have hunordered : ¬ Ordered [.mark 'I'.toUInt8, .mark 'I'.toUInt8] := by decide
  obtain ⟨hpassed, -, hsame⟩ := passed_iff_ordered (fun _ h => h) (fun _ => none) (Bytes.ascii "II")
  have haccepted := hpassed.mpr ⟨_, hspells⟩
  refine ⟨fun _ h => h, haccepted, fun hdescriptor => hunordered ?_⟩
  exact (hsame.mp (iff_of_true haccepted hdescriptor) _ hspells).1

end Texts

end Retarget.Descriptor
