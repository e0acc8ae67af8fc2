import Retarget.Proofs.ClassFile.TreeWalk

/-!
Annotations that make no sense inside attributes that do. While annotations are
walked nothing marks their end, so a count in them that is wrong leads into what
follows. All the same each attribute that holds annotations is read as if its
bytes stood alone. Either they are annotations up to their end and their slots
are found, or they are passed over with one warning. Nothing else in the
attribute is read in another way because of them.
-/

set_option autoImplicit false

namespace Retarget

def Slot.shift (distance : Nat) (slot : Slot) : Slot :=
  { slot with offset := distance + slot.offset }

private theorem Chunk.slots_shift (distance position : Nat) (chunks : List Chunk) :
    slots (distance + position) chunks = (slots position chunks).map (Slot.shift distance) := by
  induction chunks generalizing position with
  | nil => rfl
  | cons chunk chunks ih =>
    cases chunk with
    | bytes content =>
      rw [slots, slots, Nat.add_assoc]
      exact ih _
    | index kind target =>
      rw [slots, slots, Nat.add_assoc, List.map_cons, ih]
      rfl

namespace Walk

def notes (room : Nat) (name : Bytes) : Step :=
  match ContentForm.ofName? name with
  | some (_, .elementValue) => elementValue room
  | some (_, .parameterAnnotations) => parameterAnnotations room
  | _ => annotations room

def slotsIn (step : Step) (bytes : Bytes) : Option (List Slot) :=
  match step ⟨Reader.ofBytes bytes, [], 0⟩ with
  | .ok w => if w.reader.rest = [] then some w.found.reverse else none
  | .error _ => none

end Walk

inductive Part where
  /-- What is laid out as the attribute says. -/
  | laid (chunk : Chunk)
  /-- The content of an attribute that is named as one that holds annotations. `room` is how many
  annotations and arrays may lie inside each other in it. -/
  | notes (name : Bytes) (room : Nat) (bytes : Bytes)

namespace Part

def text : Part → Bytes
  | laid chunk => chunk.text
  | notes _ _ bytes => bytes

def found (position : Nat) : Part → List Slot
  | laid chunk => Chunk.slots position [chunk]
  | notes name room bytes =>
    ((Walk.slotsIn (Walk.notes room name) bytes).getD []).map (Slot.shift position)

def broken : Part → Nat
  | laid _ => 0
  | notes name room bytes => if (Walk.slotsIn (Walk.notes room name) bytes).isSome then 0 else 1

def slots (position : Nat) : List Part → List Slot
  | [] => []
  | part :: parts => part.found position ++ slots (position + part.text.length) parts

/-- The part with zeros for what is laid out in it, and without the bytes of annotations. -/
def bare : Part → Part
  | laid (.bytes content) => laid (.bytes (List.replicate content.length 0))
  | laid (.index kind _) => laid (.index kind 0)
  | notes name room _ => notes name room []

/-- The parts differ in the bytes of annotations at most: what is laid out has the same length and
the same slots, wherever it stands, and annotations are walked in the same way. -/
def Alike : Part → Part → Prop
  | laid chunk, laid chunk' => chunk.text.length = chunk'.text.length ∧
      ∀ position, Chunk.slots position [chunk] = Chunk.slots position [chunk']
  | notes name room _, notes name' room' _ => name = name' ∧ room = room'
  | _, _ => False

end Part

section Trees

def holdsNotes (name : Bytes) : Bool := annotationNames.any fun other => Bytes.ascii other == name

private theorem holdsNotes_iff {name : Bytes} :
    holdsNotes name = true ↔ name ∈ annotationNames.map Bytes.ascii := by
  simp [holdsNotes]

mutual

/-- The tree is laid out as it says, at most `room` deep, up to the content of attributes that are
named as ones that hold annotations. -/
def Content.Loose (pool : Pool) (room : Nat) : Content → Prop
  | .code _ _ instructions handlers attributes =>
    instructions.length < 0x100000000 ∧ handlers.length < 0x10000 ∧
      attributes.length < 0x10000 ∧ AttributesLoose pool room attributes
  | .record components => components.length < 0x10000 ∧ ComponentsLoose pool room components
  | leaf => leaf.name ∈ annotationNames.map Bytes.ascii ∨ leaf.Fits pool

def RecordComponent.Loose (pool : Pool) (room : Nat) : RecordComponent → Prop
  | .mk _ _ attributes => attributes.length < 0x10000 ∧ AttributesLoose pool room attributes

def AttributeTree.Loose (pool : Pool) (room : Nat) : AttributeTree → Prop
  | .mk name content =>
    0 < room ∧ pool.text name = .ok content.name ∧
      (Chunk.spell content.chunks).length < 0x100000000 ∧ content.Loose pool (room - 1)

def ComponentsLoose (pool : Pool) (room : Nat) : List RecordComponent → Prop
  | [] => True
  | component :: components => component.Loose pool room ∧ ComponentsLoose pool room components

def AttributesLoose (pool : Pool) (room : Nat) : List AttributeTree → Prop
  | [] => True
  | first :: attributes => first.Loose pool room ∧ AttributesLoose pool room attributes

end

def Content.leafParts (room : Nat) (leaf : Content) : List Part :=
  if holdsNotes leaf.name then [.notes leaf.name room (Chunk.spell leaf.chunks)]
  else leaf.chunks.map .laid

mutual

/-- The parts of content in which attributes, annotations and arrays may lie `room` deep. -/
def Content.parts (room : Nat) : Content → List Part
  | .code stack locals instructions handlers attributes =>
    List.map Part.laid ([.word stack, .word locals, .number 4 instructions.length,
      .bytes instructions, .number 2 handlers.length] ++ handlers.flatMap Handler.chunks ++
      [.number 2 attributes.length]) ++ attributeParts room attributes
  | .record components => .laid (.number 2 components.length) :: componentParts room components
  | leaf => leaf.leafParts room

def RecordComponent.parts (room : Nat) : RecordComponent → List Part
  | .mk name descriptor attributes =>
    List.map Part.laid [.word name, .index .descriptor descriptor,
      .number 2 attributes.length] ++ attributeParts room attributes

def AttributeTree.parts (room : Nat) : AttributeTree → List Part
  | .mk name content =>
    List.map Part.laid [.word name, .number 4 (Chunk.spell content.chunks).length] ++
      content.parts (room - 1)

def componentParts (room : Nat) : List RecordComponent → List Part
  | [] => []
  | component :: components => component.parts room ++ componentParts room components

def attributeParts (room : Nat) : List AttributeTree → List Part
  | [] => []
  | first :: attributes => first.parts room ++ attributeParts room attributes

end

def AttributeTree.inside : AttributeTree → List Part
  | .mk _ content => content.parts (Walk.depthLimit - 1)

def Content.leafBare (leaf : Content) : Content :=
  if holdsNotes leaf.name then .other leaf.name [] else leaf

mutual

def Content.bare : Content → Content
  | .code stack locals instructions handlers attributes =>
    .code stack locals instructions handlers (attributesBare attributes)
  | .record components => .record (componentsBare components)
  | leaf => leaf.leafBare

def RecordComponent.bare : RecordComponent → RecordComponent
  | .mk name descriptor attributes => .mk name descriptor (attributesBare attributes)

def AttributeTree.bare : AttributeTree → AttributeTree
  | .mk name content => .mk name content.bare

def componentsBare : List RecordComponent → List RecordComponent
  | [] => []
  | component :: components => component.bare :: componentsBare components

def attributesBare : List AttributeTree → List AttributeTree
  | [] => []
  | first :: attributes => first.bare :: attributesBare attributes

end

end Trees

namespace Walk

open Chunk

variable {step : Step} {P : List Chunk → Nat → Prop} {chunks : List Chunk} {bytes name : Bytes}
  {found : List Slot} {pool : Pool} {room : Nat}

private theorem slotsIn_eq_some_iff : slotsIn step bytes = some found ↔
    ∃ w, step ⟨Reader.ofBytes bytes, [], 0⟩ = .ok w ∧ w.reader.rest = [] ∧
      w.found.reverse = found := by
  rw [slotsIn]
  cases step ⟨Reader.ofBytes bytes, [], 0⟩ with
  | error fault => simp
  | ok w => simp

private theorem slotsIn_of_walks (h : Walks step chunks) :
    slotsIn step (spell chunks) = some (slots 0 chunks) := by
  have hwalk := h ⟨Reader.ofBytes (spell chunks), [], 0⟩ [] (List.append_nil _).symm
  refine slotsIn_eq_some_iff.mpr ⟨_, hwalk, ?_, ?_⟩
  · simp [ahead, Reader.ofBytes]
  · simp [ahead, Reader.ofBytes]

private theorem exists_chunks (htakes : Takes step P) (h : slotsIn step bytes = some found) :
    ∃ chunks k, P chunks k ∧ spell chunks = bytes ∧ slots 0 chunks = found := by
  obtain ⟨w, hw, hend, hfound⟩ := slotsIn_eq_some_iff.mp h
  obtain ⟨chunks, k, rest, hchunks, hrest, rfl⟩ := htakes hw
  have hdrop : (spell chunks ++ rest).drop (spell chunks).length = [] := hrest ▸ hend
  rw [List.drop_left] at hdrop
  refine ⟨chunks, k, hchunks, ?_, ?_⟩
  · rw [hdrop, List.append_nil] at hrest
    exact hrest.symm
  · simpa [ahead, Reader.ofBytes] using hfound

private theorem notes_annotations (visible : Bool) (list : List AnnotationTree) :
    notes room (Content.annotations visible list).name = annotations room := by
  cases visible <;> rfl

private theorem notes_parameterAnnotations (visible : Bool)
    (parameters : List (List AnnotationTree)) :
    notes room (Content.parameterAnnotations visible parameters).name =
      parameterAnnotations room := by
  cases visible <;> rfl

private theorem walks_notes (content : Content)
    (hname : content.name ∈ annotationNames.map Bytes.ascii)
    (hdepth : content.depth ≤ room) (hfits : content.Fits pool) :
    Walks (notes room content.name) content.chunks := by
  match content with
  | .signature _ | .code .. | .localVariables _ | .localVariableTypes _ | .record _ =>
    exact absurd hname (by simp only [Content.name]; decide)
  | .annotations visible annotations =>
    rw [notes_annotations]
    exact walks_annotations (le_of_largest hdepth) hfits
  | .parameterAnnotations visible parameters =>
    rw [notes_parameterAnnotations]
    exact walks_parameterAnnotations (le_of_largest hdepth) hfits.1 hfits.2
  | .annotationDefault value => exact walks_elementValue value hdepth hfits
  | .other name raw => exact absurd (annotation_structured hname) hfits

private theorem takes_notes (hname : name ∈ annotationNames.map Bytes.ascii) :
    Takes (notes room name) (Laid (fun content : Content =>
      content.name = name ∧ content.depth ≤ room ∧ content.Fits pool) Content.chunks
      fun _ => 0) := by
  simp only [annotationNames, List.map_cons, List.map_nil, List.mem_cons, List.not_mem_nil,
    or_false] at hname
  rcases hname with rfl | rfl | rfl | rfl | rfl
  · refine (takes_annotations room).imp ?_
    rintro _ _ ⟨annotations, hnotes, rfl, rfl⟩
    exact ⟨.annotations true annotations, ⟨rfl, hnotes⟩, rfl, rfl⟩
  · refine (takes_annotations room).imp ?_
    rintro _ _ ⟨annotations, hnotes, rfl, rfl⟩
    exact ⟨.annotations false annotations, ⟨rfl, hnotes⟩, rfl, rfl⟩
  · refine (takes_parameterAnnotations room).imp ?_
    rintro _ _ ⟨parameters, hnotes, rfl, rfl⟩
    exact ⟨.parameterAnnotations true parameters, ⟨rfl, hnotes⟩, rfl, rfl⟩
  · refine (takes_parameterAnnotations room).imp ?_
    rintro _ _ ⟨parameters, hnotes, rfl, rfl⟩
    exact ⟨.parameterAnnotations false parameters, ⟨rfl, hnotes⟩, rfl, rfl⟩
  · refine (takes_elementValue room).imp ?_
    rintro _ _ ⟨value, hvalue, rfl, rfl⟩
    exact ⟨.annotationDefault value, ⟨rfl, hvalue⟩, rfl, rfl⟩

private theorem shapeless_of_slotsIn (hname : name ∈ annotationNames.map Bytes.ascii)
    (h : slotsIn (notes room name) bytes = none) : Shapeless pool room name bytes := by
  rintro intact rfl hfits hdepth rfl
  rw [slotsIn_of_walks (walks_notes intact hname hdepth hfits)] at h
  cases h

end Walk

section Read

open Chunk

/-- The parts and the chunks make up the bytes, and a walk over the chunks finds what is in the
parts. -/
structure Reads (bytes : Bytes) (parts : List Part) (chunks : List Chunk) (dropped : Nat) :
    Prop where
  spelled : spell chunks = bytes
  parted : parts.flatMap Part.text = bytes
  found : ∀ position, Chunk.slots position chunks = Part.slots position parts
  broken : dropped = total Part.broken parts

variable {pool : Pool} {bytes bytes' name : Bytes} {parts parts' : List Part}
  {chunks chunks' : List Chunk} {j k : Nat}

private theorem Part.slots_append (position : Nat) (front back : List Part) :
    Part.slots position (front ++ back) = Part.slots position front ++
      Part.slots (position + (front.flatMap Part.text).length) back := by
  induction front generalizing position with
  | nil => rfl
  | cons part front ih => simp [Part.slots, ih, Nat.add_assoc]

private theorem Reads.append (h : Reads bytes parts chunks j) (h' : Reads bytes' parts' chunks' k) :
    Reads (bytes ++ bytes') (parts ++ parts') (chunks ++ chunks') (j + k) where
  spelled := by rw [spell_append, h.spelled, h'.spelled]
  parted := by rw [List.flatMap_append, h.parted, h'.parted]
  found position := by
    rw [Chunk.slots_append, Part.slots_append, h.found, h'.found, h.spelled, h.parted]
  broken := by rw [h.broken, h'.broken, total_append]

private theorem reads_nil : Reads [] [] [] 0 := ⟨rfl, rfl, fun _ => rfl, rfl⟩

private theorem reads_laid (chunks : List Chunk) :
    Reads (spell chunks) (chunks.map .laid) chunks 0 := by
  induction chunks with
  | nil => exact reads_nil
  | cons chunk chunks ih =>
    have hfirst : Reads chunk.text [.laid chunk] [chunk] 0 := by
      refine ⟨List.append_nil _, List.append_nil _, fun position => ?_, rfl⟩
      exact (List.append_nil _).symm
    exact hfirst.append ih

private theorem Reads.behind (front : List Chunk) (h : Reads bytes parts chunks k) :
    Reads (spell front ++ bytes) (front.map .laid ++ parts) (front ++ chunks) k := by
  have hwhole := (reads_laid front).append h
  rwa [Nat.zero_add] at hwhole

private theorem exists_notes (room : Nat) (hname : name ∈ annotationNames.map Bytes.ascii) :
    ∃ intact : Content, intact.name = name ∧ intact.Sound pool room ∧
      Reads bytes [.notes name room bytes] intact.chunks intact.dropped := by
  have hparted : [Part.notes name room bytes].flatMap Part.text = bytes := List.append_nil bytes
  cases hslots : Walk.slotsIn (Walk.notes room name) bytes with
  | none =>
    have hshapeless : Shapeless pool room name bytes := Walk.shapeless_of_slotsIn hname hslots
    refine ⟨.other name bytes, rfl, .inr ⟨hname, hshapeless⟩, List.append_nil bytes, hparted,
      fun position => ?_, ?_⟩
    · simp [Content.chunks, Chunk.slots, Part.slots, Part.found, hslots]
    · simp [Content.dropped, hname, Part.broken, hslots]
  | some found =>
    have htakes : Walk.Takes (Walk.notes room name) (Walk.Laid (fun content : Content =>
        content.name = name ∧ content.depth ≤ room ∧ content.Fits pool) Content.chunks
        fun _ => 0) := Walk.takes_notes hname
    obtain ⟨_, _, ⟨intact, ⟨hsame, hdepth, hfits⟩, rfl, -⟩, hspelled, hfound⟩ :=
      Walk.exists_chunks htakes hslots
    obtain ⟨hsound, hdropped⟩ := Walk.sound_of_fits intact hdepth hfits
    refine ⟨intact, hsame, hsound, hspelled, hparted, fun position => ?_, ?_⟩
    · have hshift := Chunk.slots_shift position 0 intact.chunks
      rw [hfound] at hshift
      simpa [Part.slots, Part.found, hslots] using hshift
    · rw [hdropped]
      simp [Part.broken, hslots]

private theorem exists_leaf (leaf : Content) {room : Nat}
    (h : leaf.name ∈ annotationNames.map Bytes.ascii ∨ leaf.Fits pool)
    (hdepth : leaf.name ∉ annotationNames.map Bytes.ascii → leaf.depth = 0) :
    ∃ intact : Content, intact.name = leaf.name ∧ intact.Sound pool room ∧
      Reads (spell leaf.chunks) (leaf.leafParts room) intact.chunks intact.dropped := by
  rw [Content.leafParts]
  split_ifs with hnotes
  · exact exists_notes room (holdsNotes_iff.mp hnotes)
  · have hname : leaf.name ∉ annotationNames.map Bytes.ascii := mt holdsNotes_iff.mpr hnotes
    have hroom : leaf.depth ≤ room := by
      rw [hdepth hname]
      exact Nat.zero_le room
    obtain ⟨hsound, hdropped⟩ := Walk.sound_of_fits leaf hroom (h.resolve_left hname)
    exact ⟨leaf, rfl, hsound, hdropped ▸ reads_laid leaf.chunks⟩

-- By induction on the tree. Only its leaves change, so the lengths and counts around them hold for
-- the sound tree, too.
mutual

private theorem exists_content (content : Content) {room : Nat} (h : content.Loose pool room) :
    ∃ intact : Content, intact.name = content.name ∧ intact.Sound pool room ∧
      Reads (spell content.chunks) (content.parts room) intact.chunks intact.dropped := by
  match content with
  | .code stack locals instructions handlers attributes =>
    obtain ⟨hinstructions, hhandlers, hlength, hattributes⟩ := h
    obtain ⟨intact, hsame, hsound, hreads⟩ := exists_attributes attributes hattributes
    refine ⟨.code stack locals instructions handlers intact, rfl,
      ⟨hinstructions, hhandlers, hsame ▸ hlength, hsound⟩, ?_⟩
    have hwhole := hreads.behind ([.word stack, .word locals, .number 4 instructions.length,
      .bytes instructions, .number 2 handlers.length] ++ handlers.flatMap Handler.chunks ++
      [.number 2 attributes.length])
    simpa [Content.chunks, Content.parts, Content.dropped, hsame] using hwhole
  | .record components =>
    obtain ⟨intact, hsame, hsound, hreads⟩ := exists_components components h.2
    refine ⟨.record intact, rfl, ⟨hsame ▸ h.1, hsound⟩, ?_⟩
    have hwhole := hreads.behind [.number 2 components.length]
    simpa [Content.chunks, Content.parts, Content.dropped, hsame] using hwhole
  | .signature _ | .localVariables _ | .localVariableTypes _ | .other .. =>
    exact exists_leaf _ h fun _ => rfl
  | .annotations visible _ | .parameterAnnotations visible _ =>
    refine exists_leaf _ h fun hname => absurd ?_ hname
    cases visible <;> simp [Content.name, annotationNames]
  | .annotationDefault _ =>
    refine exists_leaf _ h fun hname => absurd ?_ hname
    simp [Content.name, annotationNames]

private theorem exists_attributes (trees : List AttributeTree) {room : Nat}
    (h : AttributesLoose pool room trees) :
    ∃ intact : List AttributeTree, intact.length = trees.length ∧
      AttributesSound pool room intact ∧ Reads (spell (attributeChunks trees))
        (attributeParts room trees) (attributeChunks intact) (attributesDropped intact) := by
  match trees with
  | [] => exact ⟨[], rfl, trivial, reads_nil⟩
  | .mk name content :: trees =>
    obtain ⟨⟨hroom, hname, hlength, hcontent⟩, hrest⟩ := h
    obtain ⟨intact, hsame, hsound, hreads⟩ := exists_content content hcontent
    obtain ⟨others, hcount, hsounds, hothers⟩ := exists_attributes trees hrest
    have hspelled := hreads.spelled
    refine ⟨.mk name intact :: others, congrArg Nat.succ hcount,
      ⟨⟨hroom, hsame ▸ hname, hspelled ▸ hlength, hsound⟩, hsounds⟩, ?_⟩
    have hfirst := hreads.behind [.word name, .number 4 (spell content.chunks).length]
    have hwhole := hfirst.append hothers
    simpa [attributeChunks, AttributeTree.chunks, attributeParts, AttributeTree.parts,
      attributesDropped, AttributeTree.dropped, hspelled] using hwhole

private theorem exists_components (components : List RecordComponent) {room : Nat}
    (h : ComponentsLoose pool room components) :
    ∃ intact : List RecordComponent, intact.length = components.length ∧
      ComponentsSound pool room intact ∧ Reads (spell (componentChunks components))
        (componentParts room components) (componentChunks intact) (componentsDropped intact) := by
  match components with
  | [] => exact ⟨[], rfl, trivial, reads_nil⟩
  | .mk name descriptor attributes :: components =>
    obtain ⟨⟨hlength, hattributes⟩, hrest⟩ := h
    obtain ⟨intact, hsame, hsound, hreads⟩ := exists_attributes attributes hattributes
    obtain ⟨others, hcount, hsounds, hothers⟩ := exists_components components hrest
    refine ⟨.mk name descriptor intact :: others, congrArg Nat.succ hcount,
      ⟨⟨hsame ▸ hlength, hsound⟩, hsounds⟩, ?_⟩
    have hfirst := hreads.behind
      [.word name, .index .descriptor descriptor, .number 2 attributes.length]
    have hwhole := hfirst.append hothers
    simpa [componentChunks, RecordComponent.chunks, componentParts, RecordComponent.parts,
      componentsDropped, RecordComponent.dropped, hsame] using hwhole

end

mutual

private theorem loose_of_sound (content : Content) {room : Nat} (h : content.Sound pool room) :
    content.Loose pool room := by
  match content with
  | .code stack locals instructions handlers attributes =>
    exact ⟨h.1, h.2.1, h.2.2.1, attributesLoose_of_sound attributes h.2.2.2⟩
  | .record components => exact ⟨h.1, componentsLoose_of_sound components h.2⟩
  | .signature _ | .localVariables _ | .localVariableTypes _ | .annotations .. |
    .parameterAnnotations .. | .annotationDefault _ => exact .inr h.1
  | .other name raw => exact h.elim .inr fun hnotes => .inl hnotes.1

private theorem attributesLoose_of_sound (trees : List AttributeTree) {room : Nat}
    (h : AttributesSound pool room trees) : AttributesLoose pool room trees := by
  match trees with
  | [] => trivial
  | .mk name content :: trees =>
    obtain ⟨⟨hroom, hname, hlength, hcontent⟩, hrest⟩ := h
    exact ⟨⟨hroom, hname, hlength, loose_of_sound content hcontent⟩,
      attributesLoose_of_sound trees hrest⟩

private theorem componentsLoose_of_sound (components : List RecordComponent) {room : Nat}
    (h : ComponentsSound pool room components) : ComponentsLoose pool room components := by
  match components with
  | [] => trivial
  | .mk name descriptor attributes :: components =>
    obtain ⟨⟨hlength, hattributes⟩, hrest⟩ := h
    exact ⟨⟨hlength, attributesLoose_of_sound attributes hattributes⟩,
      componentsLoose_of_sound components hrest⟩

end

end Read

section Bare

private theorem Part.alike_of_bare {part part' : Part} (h : part.bare = part'.bare) :
    part.Alike part' := by
  cases part with
  | notes name room bytes =>
    cases part' with
    | notes name' room' bytes' =>
      simp only [Part.bare, Part.notes.injEq, and_true] at h
      exact h
    | laid chunk' => cases chunk' <;> simp [Part.bare] at h
  | laid chunk =>
    cases part' with
    | notes name' room' bytes' => cases chunk <;> simp [Part.bare] at h
    | laid chunk' =>
      cases chunk with
      | bytes content =>
        cases chunk' with
        | bytes content' =>
          have hlength := congrArg (fun part => part.text.length) h
          simp only [Part.bare, Part.text, Chunk.text, List.length_replicate] at hlength
          exact ⟨hlength, fun _ => rfl⟩
        | index kind' target' => simp [Part.bare] at h
      | index kind target =>
        cases chunk' with
        | bytes content' => simp [Part.bare] at h
        | index kind' target' =>
          simp only [Part.bare, Part.laid.injEq, Chunk.index.injEq, and_true] at h
          refine ⟨?_, fun position => by rw [h, Chunk.slots, Chunk.slots, Chunk.slots, Chunk.slots]⟩
          rw [Chunk.text, Chunk.text, Bytes.length_ofUInt16, Bytes.length_ofUInt16]

private theorem Part.forall₂_alike {parts parts' : List Part}
    (h : parts.map Part.bare = parts'.map Part.bare) : List.Forall₂ Part.Alike parts parts' := by
  have hall : List.Forall₂ (· = ·) (parts.map Part.bare) (parts'.map Part.bare) := by
    rw [List.forall₂_eq_eq_eq]
    exact h
  rw [List.forall₂_map_left_iff, List.forall₂_map_right_iff] at hall
  exact hall.imp fun _ _ => Part.alike_of_bare

private theorem length_attributesBare (trees : List AttributeTree) :
    (attributesBare trees).length = trees.length := by
  induction trees with
  | nil => rfl
  | cons tree trees ih => rw [attributesBare, List.length_cons, List.length_cons, ih]

private theorem length_componentsBare (components : List RecordComponent) :
    (componentsBare components).length = components.length := by
  induction components with
  | nil => rfl
  | cons component components ih => rw [componentsBare, List.length_cons, List.length_cons, ih]

private theorem bare_number (width m n : Nat) :
    (Part.laid (.number width m)).bare = (Part.laid (.number width n)).bare := by
  simp [Part.bare, Chunk.number, Bytes.length_ofNat]

private theorem bare_leaf {leaf : Content} {room : Nat}
    (hparts : leaf.parts room = leaf.leafParts room) :
    (leaf.leafBare.parts room).map Part.bare = (leaf.parts room).map Part.bare := by
  rw [Content.leafBare]
  split_ifs with hname
  · have hbare : (Content.other leaf.name []).parts room = [.notes leaf.name room []] :=
      if_pos hname
    have hleaf : leaf.leafParts room = [.notes leaf.name room (Chunk.spell leaf.chunks)] :=
      if_pos hname
    rw [hparts, hbare, hleaf]
    rfl
  · rfl

mutual

private theorem bare_content (content : Content) (room : Nat) :
    (content.bare.parts room).map Part.bare = (content.parts room).map Part.bare := by
  match content with
  | .code stack locals instructions handlers attributes =>
    simp only [Content.bare, Content.parts, length_attributesBare, List.map_append,
      bare_attributes attributes room]
  | .record components =>
    simp only [Content.bare, Content.parts, length_componentsBare, List.map_cons,
      bare_components components room]
  | .signature _ | .localVariables _ | .localVariableTypes _ | .other .. | .annotations .. |
    .parameterAnnotations .. | .annotationDefault _ => exact bare_leaf rfl

private theorem bare_attributes (trees : List AttributeTree) (room : Nat) :
    (attributeParts room (attributesBare trees)).map Part.bare =
      (attributeParts room trees).map Part.bare := by
  match trees with
  | [] => rfl
  | .mk name content :: trees =>
    have hnumber := bare_number 4 (Chunk.spell content.bare.chunks).length
      (Chunk.spell content.chunks).length
    simp only [attributesBare, AttributeTree.bare, attributeParts, AttributeTree.parts,
      List.map_append, List.map_cons, List.map_nil, hnumber, bare_content content (room - 1),
      bare_attributes trees room]

private theorem bare_components (components : List RecordComponent) (room : Nat) :
    (componentParts room (componentsBare components)).map Part.bare =
      (componentParts room components).map Part.bare := by
  match components with
  | [] => rfl
  | .mk name descriptor attributes :: components =>
    simp only [componentsBare, RecordComponent.bare, componentParts, RecordComponent.parts,
      List.map_append, length_attributesBare, bare_attributes attributes room,
      bare_components components room]

end

end Bare

namespace AttributeTree

private theorem exists_sound {pool : Pool} {tree : AttributeTree}
    (h : tree.Loose pool Walk.depthLimit) :
    ∃ intact : AttributeTree, intact.attribute = tree.attribute ∧
      intact.Sound pool Walk.depthLimit ∧ intact.slots = Part.slots 0 tree.inside ∧
      intact.dropped = total Part.broken tree.inside ∧
      tree.inside.flatMap Part.text = tree.attribute.content.toList := by
  obtain ⟨name, content⟩ := tree
  obtain ⟨hroom, hname, hlength, hcontent⟩ := h
  obtain ⟨intact, hsame, hsound, hreads⟩ := exists_content content hcontent
  refine ⟨mk name intact, ?_, ?_, hreads.found 0, hreads.broken, hreads.parted⟩
  · simp only [AttributeTree.attribute, hreads.spelled]
  · exact ⟨hroom, hsame ▸ hname, hreads.spelled ▸ hlength, hsound⟩

/-- The slots of an attribute that is laid out as it says, up to annotations in it, are found part
by part. What is laid out has its indices as slots. An attribute that holds annotations has the
slots that are found in its bytes alone, moved to where it stands, or it has none and leaves one
warning. The parts of attributes that differ in the bytes of annotations are the same up to these
bytes. -/
theorem slots_isolated {pool : Pool} {tree : AttributeTree}
    (h : tree.Loose pool Walk.depthLimit) :
    tree.inside.flatMap Part.text = tree.attribute.content.toList ∧
    tree.attribute.slots pool =
      .ok (Part.slots 0 tree.inside, total Part.broken tree.inside) ∧
    ∀ other : AttributeTree, other.bare = tree.bare →
      List.Forall₂ Part.Alike other.inside tree.inside := by
  obtain ⟨intact, hattribute, hsound, hfound, hdropped, hparted⟩ := exists_sound h
  refine ⟨hparted, ?_, ?_⟩
  · rw [← hattribute, slots_of_sound hsound, hfound, hdropped]
  · obtain ⟨name, content⟩ := tree
    rintro ⟨name', content'⟩ hbare
    have hcontents : content'.bare = content.bare := (mk.inj hbare).2
    apply Part.forall₂_alike
    rw [inside, inside, ← bare_content content', ← bare_content content, hcontents]

def noted (notes : Content) : AttributeTree :=
  .mk 1 (.code 0 1 [0xb1] [] [.mk 2 notes, .mk 3 (.localVariables [⟨0, 1, 5, 6, 0⟩]),
    .mk 4 (.annotations false [.mk 7 []])])

def notedPool : Pool :=
  ["Code", "RuntimeVisibleAnnotations", "LocalVariableTable", "RuntimeInvisibleAnnotations"].foldl
    (fun pool name => pool.append (.utf8 (Bytes.ascii name))) .empty

def cutOff : Content :=
  .other (Bytes.ascii "RuntimeVisibleAnnotations") [0, 1, 0, 7, 0, 1, 0, 8, 0x5b, 0, 9]

/-- The walk over the array leads into the local variables. Their slot is found all the same, and so
is that of the annotation behind them. -/
theorem slots_isolated_cutOff :
    (noted cutOff).Loose notedPool Walk.depthLimit ∧
    (noted cutOff).attribute.slots notedPool =
      .ok ([⟨44, .descriptor⟩, ⟨56, .descriptor⟩], 1) ∧
    List.Forall₂ Part.Alike (noted (.annotations true [.mk 7 []])).inside
      (noted cutOff).inside := by
  have hcutOff : cutOff.Loose notedPool 62 := .inl (by decide)
  have hnotes : (Content.annotations false [.mk 7 []]).Loose notedPool 62 := .inl (by decide)
  have hvariables : (Content.localVariables [⟨0, 1, 5, 6, 0⟩]).Loose notedPool 62 :=
    .inr (by simp [Content.Fits])
  have hloose : (noted cutOff).Loose notedPool Walk.depthLimit :=
    ⟨by decide, rfl, by decide, by decide, by decide, by decide,
      ⟨by decide, rfl, by decide, hcutOff⟩, ⟨by decide, rfl, by decide, hvariables⟩,
      ⟨by decide, rfl, by decide, hnotes⟩, trivial⟩
  obtain ⟨-, hslots, halike⟩ := slots_isolated hloose
  refine ⟨hloose, ?_, halike _ ?_⟩
  · rw [hslots]
    decide
  · rfl

/-- The content of annotations is all that may be amiss: an attribute is walked without a fault
exactly if it is laid out as a tree says, up to that. -/
theorem slots_ok_iff_loose {pool : Pool} {a : Attribute} (hsize : a.content.size < 0x100000000) :
    (∃ found, a.slots pool = .ok found) ↔
      ∃ tree : AttributeTree, tree.attribute = a ∧ tree.Loose pool Walk.depthLimit := by
  constructor
  · rintro ⟨⟨found, warnings⟩, h⟩
    obtain ⟨⟨name, content⟩, hattribute, ⟨hroom, hname, hlength, hsound⟩, -⟩ :=
      (slots_eq_ok_iff hsize).mp h
    exact ⟨.mk name content, hattribute, hroom, hname, hlength, loose_of_sound content hsound⟩
  · rintro ⟨tree, rfl, h⟩
    obtain ⟨intact, hattribute, hsound, -⟩ := exists_sound h
    rw [← hattribute]
    exact ⟨_, slots_of_sound hsound⟩

end AttributeTree

end Retarget
