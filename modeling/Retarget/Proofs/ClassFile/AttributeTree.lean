import Retarget.ClassFile.Slots
import Retarget.Proofs.Listing

/-!
Attributes as trees: code with its attributes, records with the attributes of
their components, annotations with their values. A tree is laid out in chunks,
which are bytes that name nothing and indices that lead to names of classes.
-/

set_option autoImplicit false

namespace Retarget

/-- A stretch of the content of an attribute. -/
inductive Chunk where
  | bytes (content : Bytes)
  /-- An index that leads to names of classes. -/
  | index (kind : SymbolForm) (target : UInt16)

namespace Chunk

def text : Chunk → Bytes
  | bytes content => content
  | index _ target => Bytes.ofUInt16 target

def word (w : UInt16) : Chunk := bytes (Bytes.ofUInt16 w)

def number (width n : Nat) : Chunk := bytes (Bytes.ofNat width n)

def tag (c : Char) : Chunk := number 1 c.toNat

def spell (chunks : List Chunk) : Bytes := chunks.flatMap text

def slots (position : Nat) : List Chunk → List Slot
  | [] => []
  | bytes content :: chunks => slots (position + content.length) chunks
  | index kind _ :: chunks => ⟨position, kind⟩ :: slots (position + 2) chunks

end Chunk

section Annotations

inductive ConstantTag where
  | byte
  | char
  | double
  | float
  | int
  | long
  | short
  | boolean
  | string
  deriving DecidableEq

def ConstantTag.letter : ConstantTag → Char
  | byte => 'B'
  | char => 'C'
  | double => 'D'
  | float => 'F'
  | int => 'I'
  | long => 'J'
  | short => 'S'
  | boolean => 'Z'
  | string => 's'

mutual

inductive ElementValue where
  | constant (tag : ConstantTag) (value : UInt16)
  | enumerated (type constant : UInt16)
  | ofClass (result : UInt16)
  | nested (note : AnnotationTree)
  | array (values : List ElementValue)

inductive AnnotationTree where
  | mk (type : UInt16) (elements : List Element)

inductive Element where
  | mk (name : UInt16) (value : ElementValue)

end

mutual

def ElementValue.chunks : ElementValue → List Chunk
  | .constant tag value => [.tag tag.letter, .word value]
  | .enumerated type constant => [.tag 'e', .index .descriptor type, .word constant]
  | .ofClass result => [.tag 'c', .index .descriptor result]
  | .nested note => .tag '@' :: note.chunks
  | .array values => .tag '[' :: .number 2 values.length :: valueChunks values

def AnnotationTree.chunks : AnnotationTree → List Chunk
  | .mk type elements =>
    .index .descriptor type :: .number 2 elements.length :: elementChunks elements

def Element.chunks : Element → List Chunk
  | .mk name value => .word name :: value.chunks

def valueChunks : List ElementValue → List Chunk
  | [] => []
  | value :: values => value.chunks ++ valueChunks values

def elementChunks : List Element → List Chunk
  | [] => []
  | element :: elements => element.chunks ++ elementChunks elements

end

mutual

def ElementValue.depth : ElementValue → Nat
  | .constant .. | .enumerated .. | .ofClass _ => 0
  | .nested note => note.depth
  | .array values => valuesDepth values + 1

def AnnotationTree.depth : AnnotationTree → Nat
  | .mk _ elements => elementsDepth elements + 1

def Element.depth : Element → Nat
  | .mk _ value => value.depth

def valuesDepth : List ElementValue → Nat
  | [] => 0
  | value :: values => max value.depth (valuesDepth values)

def elementsDepth : List Element → Nat
  | [] => 0
  | element :: elements => max element.depth (elementsDepth elements)

end

mutual

def ElementValue.Fits : ElementValue → Prop
  | .constant .. | .enumerated .. | .ofClass _ => True
  | .nested note => note.Fits
  | .array values => values.length < 0x10000 ∧ ValuesFit values

def AnnotationTree.Fits : AnnotationTree → Prop
  | .mk _ elements => elements.length < 0x10000 ∧ ElementsFit elements

def Element.Fits : Element → Prop
  | .mk _ value => value.Fits

def ValuesFit : List ElementValue → Prop
  | [] => True
  | value :: values => value.Fits ∧ ValuesFit values

def ElementsFit : List Element → Prop
  | [] => True
  | element :: elements => element.Fits ∧ ElementsFit elements

end

def annotationChunks (annotations : List AnnotationTree) : List Chunk :=
  .number 2 annotations.length :: annotations.flatMap AnnotationTree.chunks

def AnnotationsFit (annotations : List AnnotationTree) : Prop :=
  annotations.length < 0x10000 ∧ ∀ note ∈ annotations, note.Fits

end Annotations

structure Handler where
  first : UInt16
  last : UInt16
  target : UInt16
  caught : UInt16

def Handler.chunks (h : Handler) : List Chunk :=
  [.word h.first, .word h.last, .word h.target, .word h.caught]

structure LocalVariable where
  first : UInt16
  length : UInt16
  name : UInt16
  type : UInt16
  slot : UInt16

def LocalVariable.chunks (kind : SymbolForm) (v : LocalVariable) : List Chunk :=
  [.word v.first, .word v.length, .word v.name, .index kind v.type, .word v.slot]

section Attributes

mutual

inductive Content where
  | signature (signature : UInt16)
  | code (stack locals : UInt16) (instructions : Bytes) (handlers : List Handler)
      (attributes : List AttributeTree)
  | localVariables (entries : List LocalVariable)
  | localVariableTypes (entries : List LocalVariable)
  | record (components : List RecordComponent)
  | annotations (visible : Bool) (annotations : List AnnotationTree)
  | parameterAnnotations (visible : Bool) (parameters : List (List AnnotationTree))
  | annotationDefault (value : ElementValue)
  /-- An attribute of any other name. -/
  | other (name content : Bytes)

inductive RecordComponent where
  | mk (name descriptor : UInt16) (attributes : List AttributeTree)

inductive AttributeTree where
  | mk (name : UInt16) (content : Content)

end

def structuredNames : List String :=
  ["Signature", "Code", "LocalVariableTable", "LocalVariableTypeTable", "Record",
    "RuntimeVisibleAnnotations", "RuntimeInvisibleAnnotations",
    "RuntimeVisibleParameterAnnotations", "RuntimeInvisibleParameterAnnotations",
    "AnnotationDefault"]

def Content.name : Content → Bytes
  | signature _ => Bytes.ascii "Signature"
  | code .. => Bytes.ascii "Code"
  | localVariables _ => Bytes.ascii "LocalVariableTable"
  | localVariableTypes _ => Bytes.ascii "LocalVariableTypeTable"
  | record _ => Bytes.ascii "Record"
  | annotations true _ => Bytes.ascii "RuntimeVisibleAnnotations"
  | annotations false _ => Bytes.ascii "RuntimeInvisibleAnnotations"
  | parameterAnnotations true _ => Bytes.ascii "RuntimeVisibleParameterAnnotations"
  | parameterAnnotations false _ => Bytes.ascii "RuntimeInvisibleParameterAnnotations"
  | annotationDefault _ => Bytes.ascii "AnnotationDefault"
  | other name _ => name

mutual

def Content.chunks : Content → List Chunk
  | .signature signature => [.index .signature signature]
  | .code stack locals instructions handlers attributes =>
    [.word stack, .word locals, .number 4 instructions.length, .bytes instructions,
      .number 2 handlers.length] ++ handlers.flatMap Handler.chunks ++
      .number 2 attributes.length :: attributeChunks attributes
  | .localVariables entries =>
    .number 2 entries.length :: entries.flatMap (LocalVariable.chunks .descriptor)
  | .localVariableTypes entries =>
    .number 2 entries.length :: entries.flatMap (LocalVariable.chunks .signature)
  | .record components => .number 2 components.length :: componentChunks components
  | .annotations _ annotations => annotationChunks annotations
  | .parameterAnnotations _ parameters =>
    .number 1 parameters.length :: parameters.flatMap annotationChunks
  | .annotationDefault value => value.chunks
  | .other _ content => [.bytes content]

def RecordComponent.chunks : RecordComponent → List Chunk
  | .mk name descriptor attributes =>
    .word name :: .index .descriptor descriptor :: .number 2 attributes.length ::
      attributeChunks attributes

def AttributeTree.chunks : AttributeTree → List Chunk
  | .mk name content =>
    .word name :: .number 4 (Chunk.spell content.chunks).length :: content.chunks

def componentChunks : List RecordComponent → List Chunk
  | [] => []
  | component :: components => component.chunks ++ componentChunks components

def attributeChunks : List AttributeTree → List Chunk
  | [] => []
  | first :: attributes => first.chunks ++ attributeChunks attributes

end

mutual

/-- How many attributes, annotations and arrays lie inside each other. -/
def Content.depth : Content → Nat
  | .code _ _ _ _ attributes => attributesDepth attributes
  | .record components => componentsDepth components
  | .annotations _ annotations => largest AnnotationTree.depth annotations
  | .parameterAnnotations _ parameters => largest (largest AnnotationTree.depth) parameters
  | .annotationDefault value => value.depth
  | .signature _ | .localVariables _ | .localVariableTypes _ | .other .. => 0

def RecordComponent.depth : RecordComponent → Nat
  | .mk _ _ attributes => attributesDepth attributes

def AttributeTree.depth : AttributeTree → Nat
  | .mk _ content => content.depth + 1

def componentsDepth : List RecordComponent → Nat
  | [] => 0
  | component :: components => max component.depth (componentsDepth components)

def attributesDepth : List AttributeTree → Nat
  | [] => 0
  | first :: attributes => max first.depth (attributesDepth attributes)

end

mutual

/-- The counts and lengths fit their fields, and the names stand in the pool. -/
def Content.Fits (pool : Pool) : Content → Prop
  | .signature _ => True
  | .code _ _ instructions handlers attributes =>
    instructions.length < 0x100000000 ∧ handlers.length < 0x10000 ∧
      attributes.length < 0x10000 ∧ AttributesFit pool attributes
  | .localVariables entries | .localVariableTypes entries => entries.length < 0x10000
  | .record components => components.length < 0x10000 ∧ ComponentsFit pool components
  | .annotations _ annotations => AnnotationsFit annotations
  | .parameterAnnotations _ parameters =>
    parameters.length < 0x100 ∧ ∀ annotations ∈ parameters, AnnotationsFit annotations
  | .annotationDefault value => value.Fits
  | .other name _ => name ∉ structuredNames.map Bytes.ascii

def RecordComponent.Fits (pool : Pool) : RecordComponent → Prop
  | .mk _ _ attributes => attributes.length < 0x10000 ∧ AttributesFit pool attributes

def AttributeTree.Fits (pool : Pool) : AttributeTree → Prop
  | .mk name content =>
    pool.text name = .ok content.name ∧ (Chunk.spell content.chunks).length < 0x100000000 ∧
      content.Fits pool

def ComponentsFit (pool : Pool) : List RecordComponent → Prop
  | [] => True
  | component :: components => component.Fits pool ∧ ComponentsFit pool components

def AttributesFit (pool : Pool) : List AttributeTree → Prop
  | [] => True
  | first :: attributes => first.Fits pool ∧ AttributesFit pool attributes

end

def annotationNames : List String :=
  ["RuntimeVisibleAnnotations", "RuntimeInvisibleAnnotations",
    "RuntimeVisibleParameterAnnotations", "RuntimeInvisibleParameterAnnotations",
    "AnnotationDefault"]

/-- The bytes are the layout of no content with that name, or only of content too deep. -/
def Shapeless (pool : Pool) (room : Nat) (name bytes : Bytes) : Prop :=
  ∀ intact : Content, intact.name = name → intact.Fits pool → intact.depth ≤ room →
    Chunk.spell intact.chunks ≠ bytes

mutual

/-- The tree is laid out as it says, at most `room` deep, up to attributes that are named as ones
that hold annotations and are laid out as none. -/
def Content.Sound (pool : Pool) (room : Nat) : Content → Prop
  | .code _ _ instructions handlers attributes =>
    instructions.length < 0x100000000 ∧ handlers.length < 0x10000 ∧
      attributes.length < 0x10000 ∧ AttributesSound pool room attributes
  | .record components => components.length < 0x10000 ∧ ComponentsSound pool room components
  | .other name bytes => name ∉ structuredNames.map Bytes.ascii ∨
    name ∈ annotationNames.map Bytes.ascii ∧ Shapeless pool room name bytes
  | leaf => leaf.Fits pool ∧ leaf.depth ≤ room

def RecordComponent.Sound (pool : Pool) (room : Nat) : RecordComponent → Prop
  | .mk _ _ attributes => attributes.length < 0x10000 ∧ AttributesSound pool room attributes

def AttributeTree.Sound (pool : Pool) (room : Nat) : AttributeTree → Prop
  | .mk name content =>
    0 < room ∧ pool.text name = .ok content.name ∧
      (Chunk.spell content.chunks).length < 0x100000000 ∧ content.Sound pool (room - 1)

def ComponentsSound (pool : Pool) (room : Nat) : List RecordComponent → Prop
  | [] => True
  | component :: components => component.Sound pool room ∧ ComponentsSound pool room components

def AttributesSound (pool : Pool) (room : Nat) : List AttributeTree → Prop
  | [] => True
  | first :: attributes => first.Sound pool room ∧ AttributesSound pool room attributes

end

mutual

/-- How many attributes that are named as ones that hold annotations are laid out as none. -/
def Content.dropped : Content → Nat
  | .code _ _ _ _ attributes => attributesDropped attributes
  | .record components => componentsDropped components
  | .other name _ => if name ∈ annotationNames.map Bytes.ascii then 1 else 0
  | _ => 0

def RecordComponent.dropped : RecordComponent → Nat
  | .mk _ _ attributes => attributesDropped attributes

def AttributeTree.dropped : AttributeTree → Nat
  | .mk _ content => content.dropped

def componentsDropped : List RecordComponent → Nat
  | [] => 0
  | component :: components => component.dropped + componentsDropped components

def attributesDropped : List AttributeTree → Nat
  | [] => 0
  | first :: attributes => first.dropped + attributesDropped attributes

end

def AttributeTree.attribute : AttributeTree → Attribute
  | .mk name content => ⟨name, (Chunk.spell content.chunks).toArray⟩

def AttributeTree.slots : AttributeTree → List Slot
  | .mk _ content => Chunk.slots 0 content.chunks

end Attributes

end Retarget
