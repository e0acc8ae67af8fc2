import Mathlib.Data.Bool.AllAny
import Mathlib.Tactic.Common
import Retarget.Proofs.Listing
import Retarget.Symbol

/-!
The grammar of descriptors and generic signatures, as trees. A tree is written as
tokens: bytes that stand for themselves, and names of classes. In a class type
only the outermost name is the name of a class; the names of type parameters,
type variables and inner classes are written byte by byte.
-/

set_option autoImplicit false

namespace Retarget.Grammar

structure Identifier where
  text : Bytes
  ne_nil : text ≠ []
  unmarked : ∀ b ∈ text, b ∉ Bytes.ascii ".;[/<>:"

/-- The name of a class: identifiers with slashes between them. -/
structure ClassName where
  text : Bytes
  ne_nil : text ≠ []
  unmarked : ∀ b ∈ text, b ∉ Bytes.ascii ".;[<>:"

inductive Token where
  | byte (b : UInt8)
  | name (name : ClassName)

namespace Token

def name? : Token → Option ClassName
  | byte _ => none
  | name ofClass => some ofClass

def piece (spell : ClassName → Bytes) : Token → Piece
  | byte b => .byte b
  | name ofClass => .name (spell ofClass)

end Token

def mark (c : Char) : Token := .byte c.toUInt8

def Identifier.tokens (name : Identifier) : List Token := name.text.map Token.byte

inductive BaseType where
  | byte
  | char
  | double
  | float
  | int
  | long
  | short
  | boolean
  deriving DecidableEq

def BaseType.letter : BaseType → Char
  | byte => 'B'
  | char => 'C'
  | double => 'D'
  | float => 'F'
  | int => 'I'
  | long => 'J'
  | short => 'S'
  | boolean => 'Z'

section Descriptors

inductive FieldType where
  | base (type : BaseType)
  | ofClass (name : ClassName)
  | array (element : FieldType)

def FieldType.tokens : FieldType → List Token
  | base type => [mark type.letter]
  | ofClass name => [mark 'L', .name name, mark ';']
  | array element => mark '[' :: element.tokens

/-- A method without a result has none. -/
structure MethodType where
  parameters : List FieldType
  result : Option FieldType

def MethodType.tokens (type : MethodType) : List Token :=
  mark '(' :: type.parameters.flatMap FieldType.tokens ++ mark ')' ::
    (type.result.map FieldType.tokens).getD [mark 'V']

end Descriptors

section Signatures

inductive Wildcard where
  | upper
  | lower
  deriving DecidableEq

def Wildcard.letter : Wildcard → Char
  | upper => '+'
  | lower => '-'

mutual

/-- A class type: the name of a class with type arguments, and the inner classes of it. -/
inductive ClassType where
  | mk (name : ClassName) (arguments : List Argument) (inner : List InnerClass)

inductive InnerClass where
  | mk (name : Identifier) (arguments : List Argument)

inductive Argument where
  | any
  | of (wildcard : Option Wildcard) (type : Reference)

inductive Reference where
  | ofClass (type : ClassType)
  | typeVariable (name : Identifier)
  | array (element : JavaType)

inductive JavaType where
  | base (type : BaseType)
  | reference (type : Reference)

end

def bracketed {α : Type} (items : List α) (tokens : List Token) : List Token :=
  if items.isEmpty then [] else mark '<' :: tokens ++ [mark '>']

mutual

def ClassType.tokens : ClassType → List Token
  | .mk name arguments inner =>
    mark 'L' :: .name name :: bracketed arguments (argumentTokens arguments) ++
      innerTokens inner ++ [mark ';']

def InnerClass.tokens : InnerClass → List Token
  | .mk name arguments => mark '.' :: name.tokens ++ bracketed arguments (argumentTokens arguments)

def Argument.tokens : Argument → List Token
  | .any => [mark '*']
  | .of none type => type.tokens
  | .of (some wildcard) type => mark wildcard.letter :: type.tokens

def Reference.tokens : Reference → List Token
  | .ofClass type => type.tokens
  | .typeVariable name => mark 'T' :: name.tokens ++ [mark ';']
  | .array element => mark '[' :: element.tokens

def JavaType.tokens : JavaType → List Token
  | .base type => [mark type.letter]
  | .reference type => type.tokens

def argumentTokens : List Argument → List Token
  | [] => []
  | argument :: arguments => argument.tokens ++ argumentTokens arguments

def innerTokens : List InnerClass → List Token
  | [] => []
  | inner :: more => inner.tokens ++ innerTokens more

end

mutual

/-- How many reference types lie inside each other, this one included. -/
def ClassType.nesting : ClassType → Nat
  | .mk _ arguments inner => max (argumentNesting arguments) (innerNesting inner) + 1

def InnerClass.nesting : InnerClass → Nat
  | .mk _ arguments => argumentNesting arguments

def Argument.nesting : Argument → Nat
  | .any => 0
  | .of _ type => type.nesting

def Reference.nesting : Reference → Nat
  | .ofClass type => type.nesting
  | .typeVariable _ => 1
  | .array element => element.nesting + 1

def JavaType.nesting : JavaType → Nat
  | .base _ => 0
  | .reference type => type.nesting

def argumentNesting : List Argument → Nat
  | [] => 0
  | argument :: arguments => max argument.nesting (argumentNesting arguments)

def innerNesting : List InnerClass → Nat
  | [] => 0
  | inner :: more => max inner.nesting (innerNesting more)

end

inductive Bounds where
  | ofClass (bound : Reference) (interfaces : List Reference)
  | ofInterfaces (first : Reference) (more : List Reference)

def interfaceTokens (bounds : List Reference) : List Token :=
  bounds.flatMap fun bound => mark ':' :: bound.tokens

def Bounds.tokens : Bounds → List Token
  | ofClass bound interfaces => mark ':' :: bound.tokens ++ interfaceTokens interfaces
  | ofInterfaces first more => mark ':' :: interfaceTokens (first :: more)

def Bounds.nesting : Bounds → Nat
  | ofClass first more | ofInterfaces first more => largest Reference.nesting (first :: more)

structure TypeParameter where
  name : Identifier
  bounds : Bounds

def TypeParameter.tokens (parameter : TypeParameter) : List Token :=
  parameter.name.tokens ++ parameter.bounds.tokens

def parameterTokens (parameters : List TypeParameter) : List Token :=
  bracketed parameters (parameters.flatMap TypeParameter.tokens)

inductive Thrown where
  | ofClass (type : ClassType)
  | typeVariable (name : Identifier)

def Thrown.type : Thrown → Reference
  | ofClass type => .ofClass type
  | typeVariable name => .typeVariable name

structure ClassSignature where
  typeParameters : List TypeParameter
  superclass : ClassType
  interfaces : List ClassType

/-- A method without a result has none. -/
structure MethodSignature where
  typeParameters : List TypeParameter
  parameters : List JavaType
  result : Option JavaType
  throws : List Thrown

def ClassSignature.tokens (s : ClassSignature) : List Token :=
  parameterTokens s.typeParameters ++ s.superclass.tokens ++ s.interfaces.flatMap ClassType.tokens

def MethodSignature.tokens (s : MethodSignature) : List Token :=
  parameterTokens s.typeParameters ++ mark '(' :: s.parameters.flatMap JavaType.tokens ++
    mark ')' :: (s.result.map JavaType.tokens).getD [mark 'V'] ++
    s.throws.flatMap fun thrown => mark '^' :: thrown.type.tokens

def ClassSignature.nesting (s : ClassSignature) : Nat :=
  max (largest (fun parameter => parameter.bounds.nesting) s.typeParameters)
    (largest ClassType.nesting (s.superclass :: s.interfaces))

def MethodSignature.nesting (s : MethodSignature) : Nat :=
  max (largest (fun parameter => parameter.bounds.nesting) s.typeParameters)
    (max (largest JavaType.nesting (s.parameters ++ s.result.toList))
      (largest (fun thrown => thrown.type.nesting) s.throws))

end Signatures

inductive Sentence where
  | field (type : FieldType)
  | method (type : MethodType)
  | genericClass (signature : ClassSignature)
  | genericMethod (signature : MethodSignature)
  | genericField (type : Reference)

namespace Sentence

def form : Sentence → SymbolForm
  | field _ | method _ => .descriptor
  | genericClass _ | genericMethod _ | genericField _ => .signature

def tokens : Sentence → List Token
  | field type => type.tokens
  | method type => type.tokens
  | genericClass signature => signature.tokens
  | genericMethod signature => signature.tokens
  | genericField type => type.tokens

def nesting : Sentence → Nat
  | field _ | method _ => 0
  | genericClass signature => signature.nesting
  | genericMethod signature => signature.nesting
  | genericField type => type.nesting

def names (s : Sentence) : List ClassName := s.tokens.filterMap Token.name?

/-- The text of a tree, with the names of classes spelled by `spell`. -/
def print (spell : ClassName → Bytes) (s : Sentence) : Bytes :=
  s.tokens.flatMap fun token => (token.piece spell).text

end Sentence

end Retarget.Grammar
