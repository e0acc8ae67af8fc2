import Retarget.Text.Pieces

/-!
The kinds of resources an application has. Each has a class of its own, which
gives the numbers of the resources of that kind.
-/

set_option autoImplicit false

namespace Retarget

inductive ResourceKind where
  | anim
  | animator
  | array
  | attr
  | bool
  | color
  | dimen
  | drawable
  | font
  | fraction
  | id
  | integer
  | interpolator
  | layout
  | menu
  | mipmap
  | plurals
  | raw
  | string
  | style
  | styleable
  | transition
  | xml
  deriving DecidableEq

namespace ResourceKind

def all : List ResourceKind :=
  [anim, animator, array, attr, bool, color, dimen, drawable, font, fraction, id, integer,
    interpolator, layout, menu, mipmap, plurals, raw, string, style, styleable, transition, xml]

def name : ResourceKind → String
  | anim => "anim"
  | animator => "animator"
  | array => "array"
  | attr => "attr"
  | bool => "bool"
  | color => "color"
  | dimen => "dimen"
  | drawable => "drawable"
  | font => "font"
  | fraction => "fraction"
  | id => "id"
  | integer => "integer"
  | interpolator => "interpolator"
  | layout => "layout"
  | menu => "menu"
  | mipmap => "mipmap"
  | plurals => "plurals"
  | raw => "raw"
  | string => "string"
  | style => "style"
  | styleable => "styleable"
  | transition => "transition"
  | xml => "xml"

def ofName? (name : String) : Option ResourceKind :=
  all.find? fun kind => kind.name = name

def position (kind : ResourceKind) : Nat := all.idxOf kind

/-- The class, with slashes, that gives the resources of this kind in a package with dots. -/
def accessor (package : String) (kind : ResourceKind) : String :=
  if package = "" then "R$" ++ kind.name
  else Text.exchange '.' '/' package ++ "/R$" ++ kind.name

theorem mem_all (kind : ResourceKind) : kind ∈ all := by
  cases kind <;> decide

theorem ofName?_name (kind : ResourceKind) : ofName? kind.name = some kind := by
  cases kind <;> decide

end ResourceKind

end Retarget
