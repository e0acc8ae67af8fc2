import Retarget.Proofs.ClassFile.AnnotationWalk

/-!
Walking attributes. A walk over the layout of a tree finds the indices of the
tree and passes over the annotations in it that are laid out as none. The other
way round, an attribute whose walk succeeds is the layout of such a tree.
-/

set_option autoImplicit false

namespace Retarget

open Chunk

namespace Walk

variable {step : Step} {chunks : List Chunk} {k : Nat} {pool : Pool}

section Layouts

private theorem walks_localVariables {entries : List LocalVariable} (kind : SymbolForm)
    (hlength : entries.length < 0x10000) :
    Walks (localVariables kind)
      (.number 2 entries.length :: entries.flatMap (LocalVariable.chunks kind)) := by
  refine passes_counted hlength (walks_times fun v _ => ?_)
  have hfront : Walks (skip 6) [word v.first, word v.length, word v.name] :=
    walks_skip (by simp [word, text, Bytes.length_ofUInt16]) fun _ => rfl
  exact hfront.andThen ((walks_slot kind v.type).andThen (walks_word v.slot))

private theorem slots_handlers (handlers : List Handler) (position : Nat) :
    slots position (handlers.flatMap Handler.chunks) = [] := by
  induction handlers generalizing position with
  | nil => rfl
  | cons h handlers ih => exact ih _

private theorem length_handlers (handlers : List Handler) :
    (spell (handlers.flatMap Handler.chunks)).length = handlers.length * 8 := by
  induction handlers with
  | nil => rfl
  | cons h handlers ih =>
    simp only [List.flatMap_cons, spell_append, List.length_append, ih, Handler.chunks]
    simp [word, text, Bytes.length_ofUInt16]
    omega

private theorem passes_code {stack locals : UInt16} {instructions : Bytes} {handlers : List Handler}
    (hinstructions : instructions.length < 0x100000000) (hhandlers : handlers.length < 0x10000)
    (h : Passes step chunks k) :
    Passes (code step) ([.word stack, .word locals, .number 4 instructions.length,
      .bytes instructions, .number 2 handlers.length] ++ handlers.flatMap Handler.chunks ++
      chunks) k := by
  have hsizes : Walks (skip 4) [word stack, word locals] :=
    walks_skip (by simp [word, text, Bytes.length_ofUInt16]) fun _ => rfl
  have hbody : Walks (skip instructions.length) [.bytes instructions] :=
    walks_skip (by simp [text]) fun _ => rfl
  have htable : Walks (skip (handlers.length * 8)) (handlers.flatMap Handler.chunks) :=
    walks_skip (length_handlers handlers) (slots_handlers handlers)
  have hhandled : Passes (withNumber 2 fun n => andThen (skip (n * 8)) step)
      (.number 2 handlers.length :: (handlers.flatMap Handler.chunks ++ chunks)) k :=
    passes_withNumber hhandlers (htable.andThen h)
  have hcode : Passes (withNumber 4 fun n => andThen (skip n)
      (withNumber 2 fun n => andThen (skip (n * 8)) step))
      (.number 4 instructions.length :: ([.bytes instructions] ++
        .number 2 handlers.length :: (handlers.flatMap Handler.chunks ++ chunks))) k :=
    passes_withNumber hinstructions (hbody.andThen hhandled)
  have hwhole := hsizes.andThen hcode
  simpa [code] using hwhole

def oneNested (pool : Pool) (inner : Bytes → Nat → Step) : Step :=
  withNumber 2 fun name => withNumber 4 fun length => fun w =>
    match pool.text (UInt16.ofNat name) with
    | .ok text => inner text length w
    | .error fault => .error fault

private theorem passes_oneNested {name : UInt16} {text : Bytes} {inner : Bytes → Nat → Step}
    (htext : pool.text name = .ok text) (hlength : (spell chunks).length < 0x100000000)
    (h : Passes (inner text (spell chunks).length) chunks k) :
    Passes (oneNested pool inner) (.word name :: .number 4 (spell chunks).length :: chunks) k := by
  have hname : name.toNat < Bytes.span 2 := name.toNat_lt
  refine passes_withNumber hname (passes_withNumber hlength ?_)
  simpa [htext] using h

private theorem passes_ofAttribute {room : Nat} {name : Bytes} {formName : String}
    {form : ContentForm}
    (hform : ContentForm.ofName? name = some (formName, form))
    (h : Passes (content pool form (spell chunks).length room (ofAttribute pool room)) chunks k) :
    Passes (ofAttribute pool (room + 1) name (spell chunks).length) chunks k := by
  intro w rest hrest
  have hlength : (spell chunks).length ≤ w.reader.rest.length := by
    rw [hrest, List.length_append]
    omega
  rw [ofAttribute, Reader.skip_eq, if_pos hlength]
  simp [hform, h w rest hrest, ahead]

private theorem walks_ofAttribute_other {room : Nat} {name bytes : Bytes}
    (hform : ContentForm.ofName? name = none) :
    Walks (ofAttribute pool (room + 1) name (spell [.bytes bytes]).length) [.bytes bytes] := by
  intro w rest hrest
  have hlength : (spell [.bytes bytes]).length ≤ w.reader.rest.length := by
    rw [hrest, List.length_append]
    omega
  rw [ofAttribute, Reader.skip_eq, if_pos hlength]
  simp [hform, ahead, slots]

private theorem ofName?_eq_none_iff {name : Bytes} :
    ContentForm.ofName? name = none ↔ name ∉ structuredNames.map Bytes.ascii := by
  have hnames : ContentForm.byText.map Prod.fst = structuredNames.map Bytes.ascii := by decide
  rw [← hnames, ContentForm.ofName?, List.lookup_eq_none_iff]
  simp only [bne_iff_ne, ne_eq, List.mem_map, not_exists, not_and]
  exact forall_congr' fun entry => imp_congr_right fun _ => ne_comm

theorem annotation_structured {name : Bytes} (h : name ∈ annotationNames.map Bytes.ascii) :
    name ∈ structuredNames.map Bytes.ascii := by
  have hall : ∀ other ∈ annotationNames, other ∈ structuredNames := by decide
  obtain ⟨other, hother, rfl⟩ := List.mem_map.mp h
  exact List.mem_map_of_mem (hall other hother)

private theorem passes_shapeless {room : Nat} {name bytes : Bytes}
    (hname : name ∈ annotationNames.map Bytes.ascii) (h : Shapeless pool room name bytes) :
    Passes (ofAttribute pool (room + 1) name (spell [.bytes bytes]).length) [.bytes bytes] 1 := by
  have hlength : (spell [.bytes bytes]).length = bytes.length := by simp [text]
  simp only [annotationNames, List.map_cons, List.map_nil, List.mem_cons, List.not_mem_nil,
    or_false] at hname
  rcases hname with rfl | rfl | rfl | rfl | rfl
  all_goals refine passes_ofAttribute rfl ?_
  all_goals rw [hlength]
  · exact passes_forgiving (takes_annotations room) fun annotations ha =>
      h (.annotations true annotations) rfl ha.2 ha.1
  · exact passes_forgiving (takes_annotations room) fun annotations ha =>
      h (.annotations false annotations) rfl ha.2 ha.1
  · exact passes_forgiving (takes_parameterAnnotations room) fun parameters ha =>
      h (.parameterAnnotations true parameters) rfl ha.2 ha.1
  · exact passes_forgiving (takes_parameterAnnotations room) fun parameters ha =>
      h (.parameterAnnotations false parameters) rfl ha.2 ha.1
  · exact passes_forgiving (takes_elementValue room) fun value ha =>
      h (.annotationDefault value) rfl ha.2 ha.1

mutual

private theorem passes_content (content : Content) {room : Nat} (hsound : content.Sound pool room) :
    Passes (ofAttribute pool (room + 1) content.name (spell content.chunks).length)
      content.chunks content.dropped := by
  match content with
  | .signature signature =>
    exact passes_ofAttribute rfl (walks_slot .signature signature)
  | .code stack locals instructions handlers attributes =>
    obtain ⟨hinstructions, hhandlers, hlength, hattributes⟩ := hsound
    have hnested := passes_counted hlength (passes_attributes attributes hattributes)
    exact passes_ofAttribute rfl (passes_code hinstructions hhandlers hnested)
  | .localVariables entries =>
    exact passes_ofAttribute rfl (walks_localVariables .descriptor hsound.1)
  | .localVariableTypes entries =>
    exact passes_ofAttribute rfl (walks_localVariables .signature hsound.1)
  | .record components =>
    have hcomponents := passes_components components hsound.2
    exact passes_ofAttribute rfl (passes_counted hsound.1 hcomponents)
  | .annotations visible annotations =>
    have hwalk := walks_forgiving (walks_annotations (le_of_largest hsound.2) hsound.1)
    cases visible <;> exact passes_ofAttribute rfl hwalk
  | .parameterAnnotations visible parameters =>
    have hwalk := walks_forgiving
      (walks_parameterAnnotations (le_of_largest hsound.2) hsound.1.1 hsound.1.2)
    cases visible <;> exact passes_ofAttribute rfl hwalk
  | .annotationDefault value =>
    exact passes_ofAttribute rfl (walks_forgiving (walks_elementValue value hsound.2 hsound.1))
  | .other name raw =>
    rcases hsound with hother | ⟨hname, hshapeless⟩
    · have hdropped : (Content.other name raw).dropped = 0 :=
        if_neg fun hname => hother (annotation_structured hname)
      rw [hdropped]
      exact walks_ofAttribute_other (ofName?_eq_none_iff.mpr hother)
    · have hdropped : (Content.other name raw).dropped = 1 := if_pos hname
      rw [hdropped]
      exact passes_shapeless hname hshapeless

private theorem passes_attributes (trees : List AttributeTree) {room : Nat}
    (hsound : AttributesSound pool room trees) :
    Passes (times (oneNested pool (ofAttribute pool room)) trees.length)
      (attributeChunks trees) (attributesDropped trees) := by
  match trees with
  | [] => exact walks_times_zero _
  | .mk name content :: trees =>
    obtain ⟨⟨hroom, hname, hlength, hcontent⟩, hrest⟩ := hsound
    match room with
    | 0 => omega
    | room + 1 =>
      have hfirst := passes_oneNested hname hlength (passes_content content hcontent)
      exact hfirst.times_succ (passes_attributes trees hrest)

private theorem passes_components (components : List RecordComponent) {room : Nat}
    (hsound : ComponentsSound pool room components) :
    Passes (times (andThen (skip 2) (andThen (slot .descriptor)
      (nested pool (ofAttribute pool room)))) components.length) (componentChunks components)
      (componentsDropped components) := by
  match components with
  | [] => exact walks_times_zero _
  | .mk name descriptor attributes :: components =>
    obtain ⟨⟨hlength, hattributes⟩, hrest⟩ := hsound
    have hnested := passes_counted hlength (passes_attributes attributes hattributes)
    have hfirst := (walks_word name).andThen ((walks_slot .descriptor descriptor).andThen hnested)
    exact hfirst.times_succ (passes_components components hrest)

end

mutual

theorem sound_of_fits (content : Content) {room : Nat} (hdepth : content.depth ≤ room)
    (hfits : content.Fits pool) : content.Sound pool room ∧ content.dropped = 0 := by
  match content with
  | .code stack locals instructions handlers attributes =>
    obtain ⟨hinstructions, hhandlers, hlength, hattributes⟩ := hfits
    obtain ⟨hsound, hdropped⟩ := attributesSound_of_fits attributes hdepth hattributes
    exact ⟨⟨hinstructions, hhandlers, hlength, hsound⟩, hdropped⟩
  | .record components =>
    obtain ⟨hsound, hdropped⟩ := componentsSound_of_fits components hdepth hfits.2
    exact ⟨⟨hfits.1, hsound⟩, hdropped⟩
  | .other name raw =>
    exact ⟨.inl hfits, if_neg fun hname => hfits (annotation_structured hname)⟩
  | .signature _ | .localVariables _ | .localVariableTypes _ | .annotations .. |
    .parameterAnnotations .. | .annotationDefault _ => exact ⟨⟨hfits, hdepth⟩, rfl⟩

private theorem attributesSound_of_fits (trees : List AttributeTree) {room : Nat}
    (hdepth : attributesDepth trees ≤ room) (hfits : AttributesFit pool trees) :
    AttributesSound pool room trees ∧ attributesDropped trees = 0 := by
  match trees with
  | [] => exact ⟨trivial, rfl⟩
  | .mk name content :: trees =>
    rw [attributesDepth, AttributeTree.depth] at hdepth
    obtain ⟨⟨hname, hlength, hcontent⟩, hrest⟩ := hfits
    have hinside : content.depth ≤ room - 1 := by omega
    obtain ⟨hsound, hdropped⟩ := sound_of_fits content hinside hcontent
    have hdepths : attributesDepth trees ≤ room := by omega
    obtain ⟨hsounds, hdroppeds⟩ := attributesSound_of_fits trees hdepths hrest
    refine ⟨⟨⟨by omega, hname, hlength, hsound⟩, hsounds⟩, ?_⟩
    rw [attributesDropped, AttributeTree.dropped, hdropped, hdroppeds]

private theorem componentsSound_of_fits (components : List RecordComponent) {room : Nat}
    (hdepth : componentsDepth components ≤ room) (hfits : ComponentsFit pool components) :
    ComponentsSound pool room components ∧ componentsDropped components = 0 := by
  match components with
  | [] => exact ⟨trivial, rfl⟩
  | .mk name descriptor attributes :: components =>
    rw [componentsDepth, RecordComponent.depth] at hdepth
    obtain ⟨⟨hlength, hattributes⟩, hrest⟩ := hfits
    have hinside : attributesDepth attributes ≤ room := by omega
    have hdepths : componentsDepth components ≤ room := by omega
    obtain ⟨hsound, hdropped⟩ := attributesSound_of_fits attributes hinside hattributes
    obtain ⟨hsounds, hdroppeds⟩ := componentsSound_of_fits components hdepths hrest
    refine ⟨⟨⟨hlength, hsound⟩, hsounds⟩, ?_⟩
    rw [componentsDropped, RecordComponent.dropped, hdropped, hdroppeds]

end

private theorem walks_content (content : Content) {room : Nat}
    (hdepth : content.depth ≤ room) (hfits : content.Fits pool) :
    Walks (ofAttribute pool (room + 1) content.name (spell content.chunks).length)
      content.chunks := by
  obtain ⟨hsound, hdropped⟩ := sound_of_fits content hdepth hfits
  have hpasses := passes_content content hsound
  rwa [hdropped] at hpasses

end Layouts

section Taken

private theorem attributeChunks_eq (trees : List AttributeTree) :
    attributeChunks trees = trees.flatMap AttributeTree.chunks := by
  induction trees with
  | nil => rfl
  | cons tree trees ih => rw [attributeChunks, ih, List.flatMap_cons]

private theorem componentChunks_eq (components : List RecordComponent) :
    componentChunks components = components.flatMap RecordComponent.chunks := by
  induction components with
  | nil => rfl
  | cons component components ih => rw [componentChunks, ih, List.flatMap_cons]

private theorem attributesDropped_eq (trees : List AttributeTree) :
    attributesDropped trees = total AttributeTree.dropped trees := by
  induction trees with
  | nil => rfl
  | cons tree trees ih => rw [attributesDropped, ih, total_cons]

private theorem componentsDropped_eq (components : List RecordComponent) :
    componentsDropped components = total RecordComponent.dropped components := by
  induction components with
  | nil => rfl
  | cons component components ih => rw [componentsDropped, ih, total_cons]

private theorem attributesSound {trees : List AttributeTree} {room : Nat}
    (h : ∀ tree ∈ trees, tree.Sound pool room) : AttributesSound pool room trees := by
  induction trees with
  | nil => trivial
  | cons tree trees ih =>
    obtain ⟨htree, htrees⟩ := List.forall_mem_cons.mp h
    exact ⟨htree, ih htrees⟩

private theorem componentsSound {components : List RecordComponent} {room : Nat}
    (h : ∀ component ∈ components, component.Sound pool room) :
    ComponentsSound pool room components := by
  induction components with
  | nil => trivial
  | cons component components ih =>
    obtain ⟨hcomponent, hcomponents⟩ := List.forall_mem_cons.mp h
    exact ⟨hcomponent, ih hcomponents⟩

private theorem exists_words {n : Nat} {content : Bytes} (h : content.length = n * 2) :
    ∃ words : List UInt16, words.length = n ∧ spell (words.map word) = content := by
  induction n generalizing content with
  | zero => exact ⟨[], rfl, (List.length_eq_zero_iff.mp (by omega)).symm⟩
  | succ n ih =>
    obtain ⟨w, hw⟩ := exists_word (List.length_take_of_le (show 2 ≤ content.length by omega))
    obtain ⟨words, hlength, hspell⟩ := @ih (content.drop 2) (by rw [List.length_drop]; omega)
    refine ⟨w :: words, congrArg Nat.succ hlength, ?_⟩
    rw [List.map_cons, spell_cons, hspell, word, text, hw, List.take_append_drop]

private theorem slots_words (words : List UInt16) (position : Nat) :
    slots position (words.map word) = [] := by
  induction words generalizing position with
  | nil => rfl
  | cons w words ih => exact ih _

private theorem takes_words (n : Nat) : Takes (skip (n * 2)) fun chunks k =>
    ∃ words : List UInt16, words.length = n ∧ words.map word = chunks ∧ k = 0 := by
  refine takes_skip fun content hlength => ?_
  obtain ⟨words, hwords, hspell⟩ := exists_words hlength
  exact ⟨words.map word, ⟨words, hwords, rfl, rfl⟩, hspell, slots_words words⟩

private theorem exists_handlers {n : Nat} {content : Bytes} (h : content.length = n * 8) :
    ∃ handlers : List Handler, handlers.length = n ∧
      spell (handlers.flatMap Handler.chunks) = content := by
  induction n generalizing content with
  | zero => exact ⟨[], rfl, (List.length_eq_zero_iff.mp (by omega)).symm⟩
  | succ n ih =>
    obtain ⟨words, hwords, hfirst⟩ :=
      @exists_words 4 _ (List.length_take_of_le (show 8 ≤ content.length by omega))
    obtain ⟨handlers, hlength, hrest⟩ := @ih (content.drop 8) (by rw [List.length_drop]; omega)
    match words, hwords with
    | [first, last, target, caught], _ =>
      refine ⟨⟨first, last, target, caught⟩ :: handlers, congrArg Nat.succ hlength, ?_⟩
      have hspell : spell (Handler.mk first last target caught).chunks = content.take 8 := hfirst
      rw [List.flatMap_cons, spell_append, hspell, hrest, List.take_append_drop]

private theorem takes_handlers (n : Nat) : Takes (skip (n * 8)) fun chunks k =>
    ∃ handlers : List Handler, handlers.length = n ∧ handlers.flatMap Handler.chunks = chunks ∧
      k = 0 := by
  refine takes_skip fun content hlength => ?_
  obtain ⟨handlers, hhandlers, hspell⟩ := exists_handlers hlength
  exact ⟨_, ⟨handlers, hhandlers, rfl, rfl⟩, hspell, slots_handlers handlers⟩

private theorem takes_bytes (n : Nat) : Takes (skip n) fun chunks k =>
    ∃ raw : Bytes, raw.length = n ∧ [.bytes raw] = chunks ∧ k = 0 :=
  takes_skip fun raw hlength =>
    ⟨[.bytes raw], ⟨raw, hlength, rfl, rfl⟩, List.append_nil raw, fun _ => rfl⟩

private theorem takes_localVariables (kind : SymbolForm) : Takes (localVariables kind)
    (Laid (fun entries : List LocalVariable => entries.length < 0x10000)
      (fun entries : List LocalVariable =>
        .number 2 entries.length :: entries.flatMap (LocalVariable.chunks kind))
      fun _ => 0) := by
  have hentry : Takes (andThen (skip 6) (andThen (slot kind) (skip 2)))
      (Laid (fun _ => True) (LocalVariable.chunks kind) fun _ => 0) := by
    refine takes_andThen ((takes_words 3).imp ?_)
    rintro _ _ ⟨words, hwords, rfl, rfl⟩
    refine takes_andThen ((takes_slot kind).imp ?_)
    rintro _ _ ⟨type, rfl, rfl⟩
    refine takes_word.imp ?_
    rintro _ _ ⟨slot, rfl, rfl⟩
    match words, hwords with
    | [first, length, name], _ => exact ⟨⟨first, length, name, type, slot⟩, trivial, rfl, rfl⟩
  refine (takes_counted hentry).imp ?_
  rintro _ _ ⟨entries, ⟨hlength, -⟩, rfl, rfl⟩
  exact ⟨entries, hlength, rfl, by simp [total_const]⟩

/-- What a walk in an attribute takes: the layout of sound content with that name and length. -/
def Filled (pool : Pool) (room : Nat) (name : Bytes) (length : Nat) : List Chunk → Nat → Prop :=
  Laid (fun content : Content => (0 < room ∧ content.name = name ∧
    (spell content.chunks).length = length) ∧ content.Sound pool (room - 1))
    Content.chunks Content.dropped

variable {room : Nat} {inner : Bytes → Nat → Step}

private theorem takes_nested
    (h : ∀ name length, Takes (inner name length) (Filled pool room name length)) :
    Takes (nested pool inner) (Laid (fun trees : List AttributeTree => trees.length < 0x10000 ∧
      AttributesSound pool room trees)
      (fun trees => .number 2 trees.length :: attributeChunks trees) attributesDropped) := by
  have hone : Takes (oneNested pool inner)
      (Laid (fun tree => tree.Sound pool room) AttributeTree.chunks AttributeTree.dropped) := by
    refine takes_withNumber fun name hname => takes_withNumber fun length hlength => ?_
    cases htext : pool.text (UInt16.ofNat name) with
    | error fault => exact takes_of_fails (by simp)
    | ok text =>
      refine (h text length).imp ?_
      rintro _ _ ⟨content, ⟨⟨hroom, rfl, rfl⟩, hcontent⟩, rfl, rfl⟩
      refine ⟨.mk (UInt16.ofNat name) content, ⟨hroom, htext, hlength, hcontent⟩, ?_, rfl⟩
      rw [AttributeTree.chunks, word, Bytes.ofUInt16, UInt16.toNat_ofNat_of_lt' hname]
      rfl
  refine (takes_counted hone).imp ?_
  rintro _ _ ⟨trees, ⟨hlength, htrees⟩, rfl, rfl⟩
  refine ⟨trees, ⟨hlength, attributesSound htrees⟩, ?_, attributesDropped_eq trees⟩
  simp only [attributeChunks_eq]

private theorem takes_code
    (h : ∀ name length, Takes (inner name length) (Filled pool room name length)) :
    Takes (code (nested pool inner))
      (Laid (fun content => content.name = Bytes.ascii "Code" ∧ content.Sound pool room)
        Content.chunks Content.dropped) := by
  refine takes_andThen ((takes_words 2).imp ?_)
  rintro _ _ ⟨words, hwords, rfl, rfl⟩
  refine takes_withNumber fun length hlength => takes_andThen ((takes_bytes length).imp ?_)
  rintro _ _ ⟨instructions, rfl, rfl, rfl⟩
  refine takes_withNumber fun count hcount => takes_andThen ((takes_handlers count).imp ?_)
  rintro _ _ ⟨handlers, rfl, rfl, rfl⟩
  refine (takes_nested h).imp ?_
  rintro _ _ ⟨attributes, ⟨hattributes, hsound⟩, rfl, rfl⟩
  match words, hwords with
  | [stack, locals], _ =>
    refine ⟨.code stack locals instructions handlers attributes,
      ⟨rfl, hlength, hcount, hattributes, hsound⟩, ?_, ?_⟩
    · simp [Content.chunks]
    · simp [Content.dropped]

private theorem takes_components
    (h : ∀ name length, Takes (inner name length) (Filled pool room name length)) :
    Takes (components (nested pool inner))
      (Laid (fun content => content.name = Bytes.ascii "Record" ∧ content.Sound pool room)
        Content.chunks Content.dropped) := by
  have hcomponent : Takes (andThen (skip 2) (andThen (slot .descriptor) (nested pool inner)))
      (Laid (fun component => component.Sound pool room) RecordComponent.chunks
        RecordComponent.dropped) := by
    refine takes_andThen (takes_word.imp ?_)
    rintro _ _ ⟨name, rfl, rfl⟩
    refine takes_andThen ((takes_slot .descriptor).imp ?_)
    rintro _ _ ⟨descriptor, rfl, rfl⟩
    refine (takes_nested h).imp ?_
    rintro _ _ ⟨attributes, hattributes, rfl, rfl⟩
    exact ⟨.mk name descriptor attributes, hattributes, rfl, by simp [RecordComponent.dropped]⟩
  refine (takes_counted hcomponent).imp ?_
  rintro _ _ ⟨components, ⟨hlength, hcomponents⟩, rfl, rfl⟩
  refine ⟨.record components, ⟨rfl, hlength, componentsSound hcomponents⟩, ?_,
    componentsDropped_eq components⟩
  rw [Content.chunks, componentChunks_eq]

private theorem mem_byText {name : Bytes} {formName : String} {form : ContentForm}
    (h : ContentForm.ofName? name = some (formName, form)) :
    (name, formName, form) ∈ ContentForm.byText := by
  obtain ⟨front, back, hsplit, -⟩ := List.lookup_eq_some_iff.mp h
  rw [hsplit]
  exact List.mem_append_right _ List.mem_cons_self

private theorem takes_content {name : Bytes} {formName : String} {form : ContentForm} {length : Nat}
    (hform : ContentForm.ofName? name = some (formName, form))
    (h : ∀ name length, Takes (inner name length) (Filled pool room name length)) :
    Takes (content pool form length room inner) fun chunks k =>
      Laid (fun content => content.name = name ∧ content.Sound pool room) Content.chunks
        Content.dropped chunks k ∨
      name ∈ annotationNames.map Bytes.ascii ∧ ∃ raw, chunks = [.bytes raw] ∧ k = 1 := by
  have hmem := mem_byText hform
  simp only [ContentForm.byText, ContentForm.named, List.map_cons, List.map_nil, List.mem_cons,
    Prod.mk.injEq, List.not_mem_nil, or_false] at hmem
  rcases hmem with ⟨rfl, rfl, rfl⟩ | ⟨rfl, rfl, rfl⟩ | ⟨rfl, rfl, rfl⟩ | ⟨rfl, rfl, rfl⟩ |
    ⟨rfl, rfl, rfl⟩ | ⟨rfl, rfl, rfl⟩ | ⟨rfl, rfl, rfl⟩ | ⟨rfl, rfl, rfl⟩ | ⟨rfl, rfl, rfl⟩ |
    ⟨rfl, rfl, rfl⟩
  · refine (takes_slot .signature).imp ?_
    rintro _ _ ⟨target, rfl, rfl⟩
    exact .inl ⟨.signature target, ⟨rfl, trivial, Nat.zero_le _⟩, rfl, rfl⟩
  · exact (takes_code h).imp fun _ _ => .inl
  · refine (takes_localVariables .descriptor).imp ?_
    rintro _ _ ⟨entries, hlength, rfl, rfl⟩
    exact .inl ⟨.localVariables entries, ⟨rfl, hlength, Nat.zero_le _⟩, rfl, rfl⟩
  · refine (takes_localVariables .signature).imp ?_
    rintro _ _ ⟨entries, hlength, rfl, rfl⟩
    exact .inl ⟨.localVariableTypes entries, ⟨rfl, hlength, Nat.zero_le _⟩, rfl, rfl⟩
  · exact (takes_components h).imp fun _ _ => .inl
  · refine (takes_forgiving (takes_annotations room) length).imp ?_
    rintro _ _ (⟨annotations, ⟨hdepth, hfits⟩, rfl, rfl⟩ | hraw)
    · exact .inl ⟨.annotations true annotations, ⟨rfl, hfits, hdepth⟩, rfl, rfl⟩
    · exact .inr ⟨by decide, hraw⟩
  · refine (takes_forgiving (takes_annotations room) length).imp ?_
    rintro _ _ (⟨annotations, ⟨hdepth, hfits⟩, rfl, rfl⟩ | hraw)
    · exact .inl ⟨.annotations false annotations, ⟨rfl, hfits, hdepth⟩, rfl, rfl⟩
    · exact .inr ⟨by decide, hraw⟩
  · refine (takes_forgiving (takes_parameterAnnotations room) length).imp ?_
    rintro _ _ (⟨parameters, ⟨hdepth, hfits⟩, rfl, rfl⟩ | hraw)
    · exact .inl ⟨.parameterAnnotations true parameters, ⟨rfl, hfits, hdepth⟩, rfl, rfl⟩
    · exact .inr ⟨by decide, hraw⟩
  · refine (takes_forgiving (takes_parameterAnnotations room) length).imp ?_
    rintro _ _ (⟨parameters, ⟨hdepth, hfits⟩, rfl, rfl⟩ | hraw)
    · exact .inl ⟨.parameterAnnotations false parameters, ⟨rfl, hfits, hdepth⟩, rfl, rfl⟩
    · exact .inr ⟨by decide, hraw⟩
  · refine (takes_forgiving (takes_elementValue room) length).imp ?_
    rintro _ _ (⟨value, ⟨hdepth, hfits⟩, rfl, rfl⟩ | hraw)
    · exact .inl ⟨.annotationDefault value, ⟨rfl, hfits, hdepth⟩, rfl, rfl⟩
    · exact .inr ⟨by decide, hraw⟩

private theorem ofAttribute_cases {name : Bytes} {length : Nat} {w w' : Walk}
    (h : ofAttribute pool (room + 1) name length w = .ok w') :
    ContentForm.ofName? name = none ∧ skip length w = .ok w' ∨
    ∃ formName form, ContentForm.ofName? name = some (formName, form) ∧
      content pool form length room (ofAttribute pool room) w = .ok w' ∧
      w'.reader.position = w.reader.position + length := by
  rw [ofAttribute, Reader.skip_eq] at h
  by_cases hle : length ≤ w.reader.rest.length
  · rw [if_pos hle] at h
    simp only at h
    cases hform : ContentForm.ofName? name with
    | none =>
      simp only [hform] at h
      refine .inl ⟨rfl, ?_⟩
      rw [skip, Reader.skip_eq, if_pos hle]
      exact h
    | some form =>
      simp only [hform] at h
      split at h
      · cases h
      · next u hu =>
        split at h
        · next hend =>
          cases h
          exact .inr ⟨form.1, form.2, rfl, hu, hend⟩
        · cases h
  · simp [if_neg hle] at h

private theorem takes_ofAttribute (pool : Pool) (room : Nat) (name : Bytes) (length : Nat) :
    Takes (ofAttribute pool room name length) (Filled pool room name length) := by
  induction room generalizing name length with
  | zero =>
    refine takes_of_fails fun w w' hw => ?_
    rw [ofAttribute] at hw
    split at hw <;> simp [tooDeep] at hw
  | succ room ih =>
    intro w w' hw
    rcases ofAttribute_cases hw with ⟨hnone, hskip⟩ | ⟨formName, form, hform, hcontent, hend⟩
    · obtain ⟨_, _, rest, ⟨raw, rfl, rfl, rfl⟩, hrest, rfl⟩ := takes_bytes length hskip
      have hother := ofName?_eq_none_iff.mp hnone
      have hdropped : (Content.other name raw).dropped = 0 :=
        if_neg fun hname => hother (annotation_structured hname)
      refine ⟨_, 0, rest, ⟨.other name raw, ⟨⟨Nat.succ_pos room, rfl, ?_⟩, .inl hother⟩, rfl,
        hdropped⟩, hrest, rfl⟩
      simp [Content.chunks, text]
    · obtain ⟨chunks, k, rest, hchunks, hrest, rfl⟩ := takes_content hform ih hcontent
      have hlength : (spell chunks).length = length := Nat.add_left_cancel hend
      refine ⟨chunks, k, rest, ?_, hrest, rfl⟩
      rcases hchunks with ⟨content, ⟨hname, hsound⟩, rfl, rfl⟩ | ⟨hname, raw, rfl, rfl⟩
      · exact ⟨content, ⟨⟨Nat.succ_pos room, hname, hlength⟩, hsound⟩, rfl, rfl⟩
      · have hshapeless : Shapeless pool room name raw := by
          -- walking the layout of annotations leaves no warning, but this walk left one
          rintro intact rfl hfits hdepth rfl
          have hspell : spell [.bytes (spell intact.chunks)] = spell intact.chunks :=
            List.append_nil _
          rw [hspell] at hrest hlength
          have hwalk := walks_content intact hdepth hfits w rest hrest
          rw [hlength] at hwalk
          have hsame := congrArg Walk.warnings (Except.ok.inj (hwalk.symm.trans hw))
          simp [ahead] at hsame
        exact ⟨.other name raw, ⟨⟨Nat.succ_pos room, rfl, hlength⟩, .inr ⟨hname, hshapeless⟩⟩,
          rfl, if_pos hname⟩

end Taken

end Walk

namespace AttributeTree

open Walk

/-- The slots of an attribute are the indices in its tree that lead to names of classes, in the
order of its content. Nothing in the tree is passed over. -/
theorem slots_attribute (pool : Pool) (tree : AttributeTree) (hfits : tree.Fits pool)
    (hdepth : tree.depth ≤ 64) : tree.attribute.slots pool = .ok (tree.slots, 0) := by
  obtain ⟨name, content⟩ := tree
  obtain ⟨hname, -, hcontent⟩ := hfits
  have hroom : content.depth ≤ 63 := Nat.le_of_succ_le_succ hdepth
  let start : Walk := ⟨Reader.ofBytes (Chunk.spell content.chunks), [], 0⟩
  have hwalk := Walk.walks_content content hroom hcontent start [] (List.append_nil _).symm
  have hname' : pool.text (mk name content).attribute.name = .ok content.name := hname
  have hcontent' : (mk name content).attribute.content.toList = Chunk.spell content.chunks := rfl
  have hsize : (mk name content).attribute.content.size = (Chunk.spell content.chunks).length := rfl
  rw [Attribute.slots, hname', hcontent', hsize]
  simp only [bind, Except.bind, Walk.depthLimit, start] at hwalk ⊢
  rw [hwalk]
  simp [Walk.ahead, slots, Reader.ofBytes, pure, Except.pure]

def samplePool : Pool :=
  ["Code", "LocalVariableTable", "StackMapTable", "RuntimeVisibleAnnotations"].foldl
    (fun pool name => pool.append (.utf8 (Bytes.ascii name))) .empty

/-- Code with three instructions, a handler, a local variable, an attribute of another name, and an
annotation whose value is an array of an annotation, a constant and a class. -/
def sampleTree : AttributeTree :=
  .mk 1 <| .code 2 3 [0x2a, 0xb1, 0x00] [⟨0, 1, 2, 0⟩]
    [.mk 2 (.localVariables [⟨0, 3, 5, 6, 1⟩]),
      .mk 3 (.other (Bytes.ascii "StackMapTable") [0, 0]),
      .mk 4 (.annotations true
        [.mk 7 [.mk 8 (.array
          [.nested (.mk 9 [.mk 8 (.enumerated 10 11)]), .constant .int 12, .ofClass 13])]])]

theorem slots_sampleTree :
    sampleTree.Fits samplePool ∧ sampleTree.depth ≤ 64 ∧
      sampleTree.attribute.slots samplePool = .ok ([⟨37, .descriptor⟩, ⟨57, .descriptor⟩,
        ⟨67, .descriptor⟩, ⟨74, .descriptor⟩, ⟨82, .descriptor⟩], 0) := by
  have hvariables : (Content.localVariables [⟨0, 3, 5, 6, 1⟩]).Fits samplePool := by
    simp only [Content.Fits]
    decide
  have hother : (Content.other (Bytes.ascii "StackMapTable") [0, 0]).Fits samplePool := by
    simp only [Content.Fits]
    decide
  have hnote : (AnnotationTree.mk 7 [.mk 8 (.array
      [.nested (.mk 9 [.mk 8 (.enumerated 10 11)]), .constant .int 12, .ofClass 13])]).Fits := by
    simp [AnnotationTree.Fits, ElementsFit, Element.Fits, ElementValue.Fits, ValuesFit]
  have hfits : sampleTree.Fits samplePool :=
    ⟨rfl, by decide, by decide, by decide, by decide,
      ⟨rfl, by decide, hvariables⟩, ⟨rfl, by decide, hother⟩,
      ⟨rfl, by decide, by decide, List.forall_mem_singleton.mpr hnote⟩, trivial⟩
  have hdepth : sampleTree.depth ≤ 64 := by decide
  exact ⟨hfits, hdepth, slots_attribute samplePool sampleTree hfits hdepth⟩

theorem slots_of_sound {pool : Pool} {tree : AttributeTree}
    (hsound : tree.Sound pool Walk.depthLimit) :
    tree.attribute.slots pool = .ok (tree.slots, tree.dropped) := by
  obtain ⟨name, content⟩ := tree
  obtain ⟨-, hname, -, hcontent⟩ := hsound
  have hwalk := passes_content content hcontent ⟨Reader.ofBytes (Chunk.spell content.chunks), [], 0⟩
    [] (List.append_nil _).symm
  refine bind_eq_ok_iff.mpr ⟨content.name, hname, bind_eq_ok_iff.mpr ⟨_, hwalk, ?_⟩⟩
  simp [Walk.ahead, slots, dropped, Reader.ofBytes, pure, Except.pure]

/-- An attribute is walked without a fault exactly if it is the layout of a sound tree. Its slots
are the indices in the tree, and what the tree drops is passed over. -/
theorem slots_eq_ok_iff {pool : Pool} {a : Attribute} {found : List Slot} {warnings : Nat}
    (hsize : a.content.size < 0x100000000) : a.slots pool = .ok (found, warnings) ↔
      ∃ tree : AttributeTree, tree.attribute = a ∧ tree.Sound pool Walk.depthLimit ∧
        tree.slots = found ∧ tree.dropped = warnings := by
  constructor
  · intro h
    obtain ⟨name, hname, hwalk⟩ := bind_eq_ok_iff.mp h
    obtain ⟨w, hw, -⟩ := bind_eq_ok_iff.mp hwalk
    obtain ⟨_, _, rest, ⟨content, ⟨⟨-, rfl, hlength⟩, hsound⟩, rfl, rfl⟩, hrest, -⟩ :=
      takes_ofAttribute pool Walk.depthLimit name a.content.size hw
    have hcontent : Chunk.spell content.chunks = a.content.toList := by
      have hall : a.content.toList = Chunk.spell content.chunks ++ rest := hrest
      exact (List.append_inj_left ((List.append_nil _).trans hall) hlength.symm).symm
    have htree : (AttributeTree.mk a.name content).attribute = a := by
      simp only [AttributeTree.attribute, hcontent, Array.toArray_toList]
    have htreeSound : (AttributeTree.mk a.name content).Sound pool Walk.depthLimit :=
      ⟨by decide, hname, hlength ▸ hsize, hsound⟩
    -- the slots found are those of the tree, since its walk gives the same result
    have hslots := slots_of_sound htreeSound
    rw [htree, h] at hslots
    cases hslots
    exact ⟨_, htree, htreeSound, rfl, rfl⟩
  · rintro ⟨tree, rfl, hsound, rfl, rfl⟩
    exact slots_of_sound hsound

end AttributeTree

end Retarget
