import Retarget.Proofs.ClassFile.ChunkWalk

/-!
Walking annotations. A walk over the layout of annotations takes all of it, and
what a walk took that came to its end is such a layout. So annotations are
passed over exactly if their content is no layout of any.
-/

set_option autoImplicit false

namespace Retarget

open Chunk

namespace Walk

section Layouts

mutual

theorem walks_elementValue (value : ElementValue) {room : Nat} (hdepth : value.depth ≤ room)
    (hfits : value.Fits) : Walks (elementValue room) value.chunks := by
  rw [elementValue.eq_def]
  match value, room with
  | .constant tag target, _ =>
    cases tag <;> exact passes_withNumber (by decide) (walks_word target)
  | .enumerated type constant, _ =>
    have htype := (walks_slot .descriptor type).andThen (walks_word constant)
    exact passes_withNumber (by decide) htype
  | .ofClass result, _ => exact passes_withNumber (by decide) (walks_slot .descriptor result)
  | .nested (.mk type elements), 0 =>
    rw [ElementValue.depth, AnnotationTree.depth] at hdepth
    omega
  | .nested note, room + 1 =>
    exact passes_withNumber (by decide) (walks_annotationTree note hdepth hfits)
  | .array values, 0 =>
    rw [ElementValue.depth] at hdepth
    omega
  | .array values, room + 1 =>
    have hvalues := walks_values values (Nat.le_of_succ_le_succ hdepth) hfits.2
    exact passes_withNumber (by decide) (passes_counted hfits.1 hvalues)

private theorem walks_annotationTree (note : AnnotationTree) {room : Nat}
    (hdepth : note.depth ≤ room + 1) (hfits : note.Fits) :
    Walks (annotationOf (elementValue room)) note.chunks := by
  match note with
  | .mk type elements =>
    have helements := walks_elements elements (Nat.le_of_succ_le_succ hdepth) hfits.2
    exact (walks_slot .descriptor type).andThen (passes_counted hfits.1 helements)

private theorem walks_values (values : List ElementValue) {room : Nat}
    (hdepth : valuesDepth values ≤ room)
    (hfits : ValuesFit values) :
    Walks (times (elementValue room) values.length) (valueChunks values) := by
  match values with
  | [] => exact walks_times_zero _
  | value :: values =>
    rw [valuesDepth] at hdepth
    have hvalue : Walks (elementValue room) value.chunks :=
      walks_elementValue value (by omega) hfits.1
    exact hvalue.times_succ (walks_values values (by omega) hfits.2)

private theorem walks_elements (elements : List Element) {room : Nat}
    (hdepth : elementsDepth elements ≤ room) (hfits : ElementsFit elements) :
    Walks (times (andThen (skip 2) (elementValue room)) elements.length)
      (elementChunks elements) := by
  match elements with
  | [] => exact walks_times_zero _
  | .mk name value :: elements =>
    rw [elementsDepth, Element.depth] at hdepth
    have hvalue : Walks (elementValue room) value.chunks :=
      walks_elementValue value (by omega) hfits.1
    exact ((walks_word name).andThen hvalue).times_succ (walks_elements elements (by omega) hfits.2)

end

theorem walks_annotations {annotations : List AnnotationTree} {room : Nat}
    (hdepth : ∀ note ∈ annotations, note.depth ≤ room)
    (hfits : AnnotationsFit annotations) :
    Walks (Walk.annotations room) (annotationChunks annotations) := by
  refine passes_counted hfits.1 (walks_times fun note hmem => ?_)
  have hdepth := hdepth note hmem
  match room with
  | 0 =>
    cases note
    rw [AnnotationTree.depth] at hdepth
    omega
  | room + 1 => exact walks_annotationTree note hdepth (hfits.2 note hmem)

theorem walks_parameterAnnotations {parameters : List (List AnnotationTree)} {room : Nat}
    (hdepth : ∀ annotations ∈ parameters, largest AnnotationTree.depth annotations ≤ room)
    (hlength : parameters.length < 0x100)
    (hfits : ∀ annotations ∈ parameters, AnnotationsFit annotations) :
    Walks (Walk.parameterAnnotations room)
      (.number 1 parameters.length :: parameters.flatMap annotationChunks) := by
  refine passes_withNumber hlength (walks_times fun annotations hmem => ?_)
  exact walks_annotations (le_of_largest (hdepth annotations hmem)) (hfits annotations hmem)

end Layouts

section Taken

private theorem valueChunks_eq (values : List ElementValue) :
    valueChunks values = values.flatMap ElementValue.chunks := by
  induction values with
  | nil => rfl
  | cons value values ih => rw [valueChunks, ih, List.flatMap_cons]

private theorem elementChunks_eq (elements : List Element) :
    elementChunks elements = elements.flatMap Element.chunks := by
  induction elements with
  | nil => rfl
  | cons element elements ih => rw [elementChunks, ih, List.flatMap_cons]

private theorem valuesDepth_le {values : List ElementValue} {room : Nat}
    (h : ∀ value ∈ values, value.depth ≤ room ∧ value.Fits) :
    valuesDepth values ≤ room ∧ ValuesFit values := by
  induction values with
  | nil => exact ⟨Nat.zero_le room, trivial⟩
  | cons value values ih =>
    obtain ⟨⟨hdepth, hfits⟩, hrest⟩ := List.forall_mem_cons.mp h
    obtain ⟨hdepths, hfit⟩ := ih hrest
    exact ⟨Nat.max_le.mpr ⟨hdepth, hdepths⟩, hfits, hfit⟩

private theorem elementsDepth_le {elements : List Element} {room : Nat}
    (h : ∀ element ∈ elements, element.depth ≤ room ∧ element.Fits) :
    elementsDepth elements ≤ room ∧ ElementsFit elements := by
  induction elements with
  | nil => exact ⟨Nat.zero_le room, trivial⟩
  | cons element elements ih =>
    obtain ⟨⟨hdepth, hfits⟩, hrest⟩ := List.forall_mem_cons.mp h
    obtain ⟨hdepths, hfit⟩ := ih hrest
    exact ⟨Nat.max_le.mpr ⟨hdepth, hdepths⟩, hfits, hfit⟩

private theorem exists_constantTag {n : Nat} (hn : n < Bytes.span 1)
    (h : UInt8.ofNat n ∈ Bytes.ascii "BCDFIJSZs") : ∃ tag : ConstantTag, tag.letter.toNat = n := by
  have hletters : Bytes.ascii "BCDFIJSZs" =
      [.byte, .char, .double, .float, .int, .long, .short, .boolean, .string].map
        fun tag : ConstantTag => UInt8.ofNat tag.letter.toNat := by decide
  rw [hletters] at h
  obtain ⟨tag, -, htag⟩ := List.mem_map.mp h
  have hletter : tag.letter.toNat < UInt8.size := by cases tag <;> decide
  have hsame := congrArg UInt8.toNat htag
  rw [UInt8.toNat_ofNat_of_lt' hletter, UInt8.toNat_ofNat_of_lt' hn] at hsame
  exact ⟨tag, hsame⟩

private theorem takes_annotationOf {room : Nat} (h : Takes (elementValue room)
    (Laid (fun value => value.depth ≤ room ∧ value.Fits) ElementValue.chunks fun _ => 0)) :
    Takes (annotationOf (elementValue room))
      (Laid (fun note => note.depth ≤ room + 1 ∧ note.Fits) AnnotationTree.chunks fun _ => 0) := by
  have helement : Takes (andThen (skip 2) (elementValue room))
      (Laid (fun element => element.depth ≤ room ∧ element.Fits) Element.chunks fun _ => 0) := by
    refine takes_andThen (takes_word.imp ?_)
    rintro _ _ ⟨name, rfl, rfl⟩
    refine h.imp ?_
    rintro _ _ ⟨value, hvalue, rfl, rfl⟩
    exact ⟨.mk name value, hvalue, rfl, rfl⟩
  refine takes_andThen ((takes_slot .descriptor).imp ?_)
  rintro _ _ ⟨type, rfl, rfl⟩
  refine (takes_counted helement).imp ?_
  rintro _ _ ⟨elements, ⟨hlength, helements⟩, rfl, rfl⟩
  obtain ⟨hdepth, hfit⟩ := elementsDepth_le helements
  refine ⟨.mk type elements, ⟨Nat.succ_le_succ hdepth, hlength, hfit⟩, ?_, ?_⟩
  · rw [AnnotationTree.chunks, elementChunks_eq]
    rfl
  · simp [total_const]

theorem takes_elementValue (room : Nat) : Takes (elementValue room)
    (Laid (fun value => value.depth ≤ room ∧ value.Fits) ElementValue.chunks fun _ => 0) := by
  rw [elementValue.eq_def]
  refine takes_withNumber fun tag htag => ?_
  split_ifs with hconstant henumerated hclass hnote harray
  · obtain ⟨tag, rfl⟩ := exists_constantTag htag hconstant
    refine takes_word.imp ?_
    rintro _ _ ⟨value, rfl, rfl⟩
    exact ⟨.constant tag value, ⟨Nat.zero_le _, trivial⟩, rfl, rfl⟩
  · subst henumerated
    refine takes_andThen ((takes_slot .descriptor).imp ?_)
    rintro _ _ ⟨type, rfl, rfl⟩
    refine takes_word.imp ?_
    rintro _ _ ⟨constant, rfl, rfl⟩
    exact ⟨.enumerated type constant, ⟨Nat.zero_le _, trivial⟩, rfl, rfl⟩
  · subst hclass
    refine (takes_slot .descriptor).imp ?_
    rintro _ _ ⟨result, rfl, rfl⟩
    exact ⟨.ofClass result, ⟨Nat.zero_le _, trivial⟩, rfl, rfl⟩
  · subst hnote
    match room with
    | 0 => exact takes_tooDeep
    | room + 1 =>
      refine (takes_annotationOf (takes_elementValue room)).imp ?_
      rintro _ _ ⟨note, hnote, rfl, rfl⟩
      exact ⟨.nested note, hnote, rfl, rfl⟩
  · subst harray
    match room with
    | 0 => exact takes_tooDeep
    | room + 1 =>
      refine (takes_counted (takes_elementValue room)).imp ?_
      rintro _ _ ⟨values, ⟨hlength, hvalues⟩, rfl, rfl⟩
      obtain ⟨hdepth, hfit⟩ := valuesDepth_le hvalues
      refine ⟨.array values, ⟨Nat.succ_le_succ hdepth, hlength, hfit⟩, ?_, ?_⟩
      · rw [ElementValue.chunks, valueChunks_eq]
        rfl
      · simp [total_const]
  · exact takes_of_fails (by simp)

theorem takes_annotations (room : Nat) : Takes (Walk.annotations room)
    (Laid (fun annotations => largest AnnotationTree.depth annotations ≤ room ∧
      AnnotationsFit annotations) annotationChunks fun _ => 0) := by
  unfold Walk.annotations
  refine (takes_counted (?_ : Takes _ (Laid (fun note => note.depth ≤ room ∧ note.Fits)
    AnnotationTree.chunks fun _ => 0))).imp ?_
  · cases room with
    | zero => exact takes_tooDeep
    | succ room => exact takes_annotationOf (takes_elementValue room)
  rintro _ _ ⟨annotations, ⟨hlength, hnotes⟩, rfl, rfl⟩
  refine ⟨annotations, ⟨?_, hlength, fun note hmem => (hnotes note hmem).2⟩, rfl, ?_⟩
  · exact largest_le fun note hmem => (hnotes note hmem).1
  · simp [total_const]

theorem takes_parameterAnnotations (room : Nat) : Takes (Walk.parameterAnnotations room)
    (Laid (fun parameters => largest (largest AnnotationTree.depth) parameters ≤ room ∧
      parameters.length < 0x100 ∧ ∀ annotations ∈ parameters, AnnotationsFit annotations)
      (fun parameters => .number 1 parameters.length :: parameters.flatMap annotationChunks)
      fun _ => 0) := by
  refine takes_withNumber fun n hn => (takes_times (takes_annotations room) n).imp ?_
  rintro _ _ ⟨parameters, ⟨rfl, hall⟩, rfl, rfl⟩
  refine ⟨parameters, ⟨?_, hn, fun annotations hmem => (hall annotations hmem).2⟩, rfl, ?_⟩
  · exact largest_le fun annotations hmem => (hall annotations hmem).1
  · simp [total_const]

end Taken

section Broken

variable {α : Type} {A : α → Prop} {layout : α → List Chunk} {content : Step} {bytes : Bytes}

private theorem layout_of_ends (htakes : Takes content (Laid A layout fun _ => 0)) {length : Nat}
    {w : Walk} (h : Ends content length w) : ∃ a rest, A a ∧
      w.reader.rest = spell (layout a) ++ rest ∧ (spell (layout a)).length = length := by
  obtain ⟨u, hu, hend⟩ := h
  obtain ⟨_, _, rest, ⟨a, ha, rfl, rfl⟩, hrest, rfl⟩ := htakes hu
  exact ⟨a, rest, ha, hrest, Nat.add_left_cancel hend⟩

theorem passes_forgiving (htakes : Takes content (Laid A layout fun _ => 0))
    (h : ∀ a, A a → spell (layout a) ≠ bytes) :
    Passes (forgiving bytes.length content) [.bytes bytes] 1 := by
  intro w rest hrest
  have hspell : spell [.bytes bytes] = bytes := List.append_nil bytes
  rw [hspell] at hrest ⊢
  have hnot : ¬ Ends content bytes.length w := by
    intro hends
    obtain ⟨a, rest', ha, hlayout, hlength⟩ := layout_of_ends htakes hends
    exact h a ha (List.append_inj_left (hlayout.symm.trans hrest) hlength)
  have hle : bytes.length ≤ w.reader.rest.length := by
    rw [hrest, List.length_append]
    omega
  rw [forgiving_of_not_ends hnot, if_pos hle]
  rfl

theorem takes_forgiving {P : List Chunk → Nat → Prop} (h : Takes content P) (length : Nat) :
    Takes (forgiving length content) fun chunks k =>
      P chunks k ∨ ∃ raw, chunks = [.bytes raw] ∧ k = 1 := by
  intro w w' hw
  by_cases hends : Ends content length w
  · rw [forgiving_of_ends hends] at hw
    obtain ⟨chunks, k, rest, hchunks, htaken⟩ := h hw
    exact ⟨chunks, k, rest, .inl hchunks, htaken⟩
  · rw [forgiving_of_not_ends hends] at hw
    split_ifs at hw with hle
    cases hw
    have hlength : (w.reader.rest.take length).length = length := List.length_take_of_le hle
    have hspell : spell [.bytes (w.reader.rest.take length)] = w.reader.rest.take length :=
      List.append_nil _
    refine ⟨[.bytes (w.reader.rest.take length)], 1, w.reader.rest.drop length,
      .inr ⟨_, rfl, rfl⟩, ?_, ?_⟩
    · rw [hspell, List.take_append_drop]
    · rw [hspell, hlength]
      rfl

end Broken

end Walk

end Retarget
