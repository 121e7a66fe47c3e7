import ExactJson.Text.Ascii
import ExactJson.Text.Utf8

/-!
The spelling of numbers: an optional minus sign, a whole part without leading zeros, then an
optional fraction and an optional exponent. A literal is read byte by byte by an automaton, so
that the same rule serves whole texts (`NumberForm.ofText?`) and numbers in the middle of a
document.
-/
namespace ExactJson

inductive NumberForm where
  | integer
  | fraction
  | exponent
deriving DecidableEq, Repr

inductive LiteralState where
  | start
  | sign
  | zero
  | whole
  | point
  | fraction
  | mark
  | markSign
  | exponent
deriving DecidableEq, Repr

namespace LiteralState

def leading? (b : UInt8) : Option LiteralState :=
  if b = Ascii.zero then some zero
  else if Ascii.isDigit b then some whole
  else none

def mark? (b : UInt8) : Option LiteralState :=
  if b = Ascii.lowerE ∨ b = Ascii.upperE then some mark else none

def tail? (b : UInt8) : Option LiteralState :=
  if b = Ascii.dot then some point else mark? b

def next? : LiteralState → UInt8 → Option LiteralState
  | start, b => if b = Ascii.minus then some sign else leading? b
  | sign, b => leading? b
  | zero, b => tail? b
  | whole, b => if Ascii.isDigit b then some whole else tail? b
  | point, b => if Ascii.isDigit b then some fraction else none
  | fraction, b => if Ascii.isDigit b then some fraction else mark? b
  | mark, b =>
    if b = Ascii.plus ∨ b = Ascii.minus then some markSign
    else if Ascii.isDigit b then some exponent
    else none
  | markSign, b => if Ascii.isDigit b then some exponent else none
  | exponent, b => if Ascii.isDigit b then some exponent else none

def form? : LiteralState → Option NumberForm
  | zero | whole => some .integer
  | fraction => some .fraction
  | exponent => some .exponent
  | start | sign | point | mark | markSign => none

def run? (s : LiteralState) : Bytes → Option LiteralState
  | [] => some s
  | b :: bs => (s.next? b).bind fun t => t.run? bs

end LiteralState

def NumberForm.ofText? (text : String) : Option NumberForm :=
  (LiteralState.start.run? (Text.utf8 text)).bind LiteralState.form?

end ExactJson
