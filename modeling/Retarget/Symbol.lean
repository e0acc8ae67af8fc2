import Retarget.Symbol.Descriptor
import Retarget.Symbol.Signature

/-!
Symbols: texts that name classes. Each kind of symbol has its own reader; the
names in it are exchanged by what the reader found.
-/

set_option autoImplicit false

namespace Retarget.Symbol

/-- The text read as a symbol of the given kind. The name of a class that starts with a bracket
is the descriptor of an array. -/
def scan : SymbolForm → Bytes → Scan
  | .className, text =>
    if text.head? = some '['.toUInt8 then Descriptor.scan text else ⟨[.name text], none⟩
  | .descriptor, text => Descriptor.scan text
  | .signature, text => Signature.scan text

/-- The text with the names in it exchanged, none if every name stays as it is. -/
def substitute (kind : SymbolForm) (map : Bytes → Option Bytes) (text : Bytes) :
    Except Defect (Option Bytes) :=
  (scan kind text).substitute map

end Retarget.Symbol
