import Retarget.ClassFile.Attribute
import Retarget.ClassFile.Pool
import Retarget.Symbol.Scan

/-!
The indices inside an attribute that lead to names of classes. A walk follows
the content of an attribute from front to back and notes where such an index
stands; the attributes that hold none are passed over. `room` is how many more
attributes, annotations and arrays may open inside the present one.

Annotations whose content makes no sense are passed over as a whole and leave a
warning. All other content has to fit its declared length.
-/

set_option autoImplicit false

namespace Retarget

/-- An index that leads to names of classes: where it stands in the content, and what kind of
text it leads to. -/
structure Slot where
  offset : Nat
  kind : SymbolForm
  deriving DecidableEq

/-- A walk on its way: what is left to read, the slots found, last one first, and how many
contents were passed over with a warning. -/
structure Walk where
  reader : Reader
  found : List Slot
  warnings : Nat

namespace Walk

def depthLimit : Nat := 64

abbrev Step := Walk → Except Fault Walk

def withNumber (width : Nat) (next : Nat → Step) : Step := fun w =>
  match w.reader.number width with
  | .ok (n, r) => next n { w with reader := r }
  | .error fault => .error fault

def skip (n : Nat) : Step := fun w =>
  match w.reader.skip n with
  | .ok r => .ok { w with reader := r }
  | .error fault => .error fault

/-- Takes an index and notes it as a slot. -/
def slot (kind : SymbolForm) : Step := fun w =>
  match w.reader.skip 2 with
  | .ok r => .ok { w with reader := r, found := ⟨w.reader.position, kind⟩ :: w.found }
  | .error fault => .error fault

def andThen (first second : Step) : Step := fun w =>
  match first w with
  | .ok w' => second w'
  | .error fault => .error fault

def times (part : Step) : Nat → Step
  | 0, w => .ok w
  | n + 1, w =>
    match part w with
    | .ok w' => times part n w'
    | .error fault => .error fault

def counted (part : Step) : Step := withNumber 2 (times part)

def tooDeep : Step := fun _ => .error (.malformed (.attributeDepth depthLimit))

def annotationOf (value : Step) : Step :=
  andThen (slot .descriptor) (counted (andThen (skip 2) value))

/-- The value of an annotation's element. Its tag says whether it is a constant, the name of an
enumerated constant, a class, an annotation or an array of values. -/
def elementValue (room : Nat) : Step :=
  withNumber 1 fun tag =>
    if UInt8.ofNat tag ∈ Bytes.ascii "BCDFIJSZs" then skip 2
    else if tag = 'e'.toNat then andThen (slot .descriptor) (skip 2)
    else if tag = 'c'.toNat then slot .descriptor
    else if tag = '@'.toNat then
      match room with
      | 0 => tooDeep
      | room' + 1 => annotationOf (elementValue room')
    else if tag = '['.toNat then
      match room with
      | 0 => tooDeep
      | room' + 1 => counted (elementValue room')
    else fun _ => .error (.malformed (.elementTag (UInt8.ofNat tag)))

def annotations (room : Nat) : Step :=
  counted <|
    match room with
    | 0 => tooDeep
    | room' + 1 => annotationOf (elementValue room')

def parameterAnnotations (room : Nat) : Step :=
  withNumber 1 (times (annotations room))

def localVariables (kind : SymbolForm) : Step :=
  counted (andThen (skip 6) (andThen (slot kind) (skip 2)))

/-- Attributes in a row, each walked by `inner` with its name and length. -/
def nested (pool : Pool) (inner : Bytes → Nat → Step) : Step :=
  counted <| withNumber 2 fun name => withNumber 4 fun length => fun w =>
    match pool.text (UInt16.ofNat name) with
    | .ok text => inner text length w
    | .error fault => .error fault

def code (attributes : Step) : Step :=
  andThen (skip 4) <| withNumber 4 fun length => andThen (skip length) <|
    withNumber 2 fun handlers => andThen (skip (handlers * 8)) attributes

def components (attributes : Step) : Step :=
  counted (andThen (skip 2) (andThen (slot .descriptor) attributes))

/-- Walks content that ends at `stop`. If it fails or ends elsewhere, the content is passed over
and counts as a warning. -/
def forgiving (length : Nat) (content : Step) : Step := fun w =>
  let stop := w.reader.position + length
  let passOver : Except Fault Walk :=
    match w.reader.skip length with
    | .ok r => .ok { w with reader := r, warnings := w.warnings + 1 }
    | .error fault => .error fault
  match content w with
  | .ok w' => if w'.reader.position = stop then .ok w' else passOver
  | .error _ => passOver

end Walk

inductive ContentForm where
  | signature
  | code
  | localVariables (kind : SymbolForm)
  | record
  | annotations
  | parameterAnnotations
  | elementValue
  deriving DecidableEq

namespace ContentForm

/-- The attributes whose content is walked, by name. -/
def named : List (String × ContentForm) :=
  [("Signature", signature), ("Code", code), ("LocalVariableTable", localVariables .descriptor),
    ("LocalVariableTypeTable", localVariables .signature), ("Record", record),
    ("RuntimeVisibleAnnotations", annotations), ("RuntimeInvisibleAnnotations", annotations),
    ("RuntimeVisibleParameterAnnotations", parameterAnnotations),
    ("RuntimeInvisibleParameterAnnotations", parameterAnnotations),
    ("AnnotationDefault", elementValue)]

def byText : List (Bytes × String × ContentForm) :=
  named.map fun (name, form) => (Bytes.ascii name, name, form)

def ofName? (text : Bytes) : Option (String × ContentForm) :=
  byText.lookup text

end ContentForm

namespace Walk

/-- Walks content of the given form and length. `inner` walks the attributes in it. -/
def content (pool : Pool) (form : ContentForm) (length room : Nat)
    (inner : Bytes → Nat → Step) : Step :=
  match form with
  | .signature => slot .signature
  | .code => code (nested pool inner)
  | .localVariables kind => localVariables kind
  | .record => components (nested pool inner)
  | .annotations => forgiving length (annotations room)
  | .parameterAnnotations => forgiving length (parameterAnnotations room)
  | .elementValue => forgiving length (elementValue room)

/-- Walks an attribute whose content starts here. The content has to be there in full before
anything in it is looked at. -/
def ofAttribute (pool : Pool) (room : Nat) (name : Bytes) (length : Nat) : Step := fun w =>
  match w.reader.skip length with
  | .error fault => .error fault
  | .ok after =>
    match room with
    | 0 => tooDeep w
    | room' + 1 =>
      match ContentForm.ofName? name with
      | none => .ok { w with reader := after }
      | some (formName, form) =>
        match content pool form length room' (ofAttribute pool room') w with
        | .error fault => .error fault
        | .ok w' =>
          if w'.reader.position = after.position then .ok w'
          else .error (.malformed (.attributeLength formName length))

end Walk

namespace Attribute

/-- The slots of an attribute, in the order of its content, and the number of warnings. -/
def slots (pool : Pool) (a : Attribute) : Except Fault (List Slot × Nat) := do
  let name ← pool.text a.name
  let start : Walk := ⟨Reader.ofBytes a.content.toList, [], 0⟩
  let w ← Walk.ofAttribute pool Walk.depthLimit name a.content.size start
  return (w.found.reverse, w.warnings)

end Attribute

end Retarget
