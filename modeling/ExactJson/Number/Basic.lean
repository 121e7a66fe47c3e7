import ExactJson.Number.Decimal
import ExactJson.Number.Integer
import ExactJson.Number.Shortest

/-!
JSON numbers, kept exactly as they were written. `1` and `1.0` are different numbers; an integer too
wide for 64 bits and a fraction keep their text, so that no digit is ever lost.
-/
namespace ExactJson

/-- How literals with a fraction or an exponent are kept: by their text, or as the nearest binary
number beside their text, if there is a finite one. -/
inductive FractionPolicy where
  | exact
  | float
deriving DecidableEq, Repr

inductive Number where
  | int64 (value : Int64)
  /-- An integer outside 64 bits, or the negative zero. -/
  | bigInteger (text : String)
  /-- A finite binary number, with its text if it was read from one. -/
  | float (value : Binary64) (text : Option String)
  | bigDecimal (text : String)
deriving DecidableEq

inductive NumberKind where
  | int64
  | bigInteger
  | float
  | bigDecimal
deriving DecidableEq, Repr

namespace Number

def kind : Number → NumberKind
  | int64 _ => .int64
  | bigInteger _ => .bigInteger
  | float _ _ => .float
  | bigDecimal _ => .bigDecimal

def source? : Number → Option String
  | int64 _ => none
  | bigInteger text | bigDecimal text => some text
  | float _ text => text

def text : Number → String
  | int64 value => Integer.text value.toInt
  | bigInteger text | bigDecimal text | float _ (some text) => text
  | float value none => FloatNotation.literal.text value

def isInteger : Number → Bool
  | int64 _ | bigInteger _ => true
  | float _ _ | bigDecimal _ => false

def isFractional (n : Number) : Bool := !n.isInteger

/-- Equality within a representation. Binary numbers are compared by value, without their text. -/
def beq : Number → Number → Bool
  | int64 x, int64 y => x == y
  | bigInteger s, bigInteger t => s == t
  | float x _, float y _ => x.sameValue y
  | bigDecimal s, bigDecimal t => s == t
  | _, _ => false

instance : BEq Number := ⟨beq⟩

/-- The number of an integer literal. The negative zero keeps its text, which is not that of zero.
-/
def ofIntegerLiteral (text : String) : Number :=
  if text = "-0" then bigInteger text
  else match Integer.readInt64 (Text.utf8 text) with
    | .ok value => int64 value
    | .error _ => bigInteger text

def ofFractionLiteral (policy : FractionPolicy) (text : String) : Number :=
  match policy with
  | .exact => bigDecimal text
  | .float =>
    match (Binary.ofLiteral? .double text).filter Binary.isFinite with
    | some value => float value (some text)
    | none => bigDecimal text

def ofLiteral (policy : FractionPolicy) : NumberForm → String → Number
  | .integer, text => ofIntegerLiteral text
  | .fraction, text | .exponent, text => ofFractionLiteral policy text

def ofInt (z : Int) : Number :=
  if Integer.fitsInt64 z then int64 (Int64.ofInt z) else bigInteger (Integer.text z)

def ofTyped (type : IntType) (z : Int) : Number :=
  if type.isNarrow then int64 (Int64.ofInt z) else ofInt z

def ofBinary64? (x : Binary64) : Option Number :=
  if x.isFinite then some (float x none) else none

def decimal? (text : String) : Option Number :=
  (NumberForm.ofText? text).map fun form => ofLiteral .exact form text

def integer? (text : String) : Option Number :=
  match NumberForm.ofText? text with
  | some .integer => some (ofIntegerLiteral text)
  | _ => none

def toInt? (n : Number) (t : IntType) : Option Int := t.read? n.text

def toBinary? (n : Number) (f : BinaryFormat) : Option (Binary f) := Binary.ofLiteral? f n.text

/-- The value as a signed integer of 64 bits. Fractions have none, even where they are whole. -/
def int64? : Number → Option Int64
  | int64 value => some value
  | bigInteger text => (IntType.read? ⟨true, .w64⟩ text).map Int64.ofInt
  | float _ _ | bigDecimal _ => none

def uint64? : Number → Option UInt64
  | int64 value => if 0 ≤ value then some (UInt64.ofNat value.toInt.toNat) else none
  | bigInteger text => (IntType.read? ⟨false, .w64⟩ text).map fun z => UInt64.ofNat z.toNat
  | float _ _ | bigDecimal _ => none

def binary64? : Number → Option Binary64
  | int64 value => some (Binary.ofInt value.toInt)
  | float value _ => some value
  | bigInteger text | bigDecimal text => (Binary.ofLiteral? .double text).filter Binary.isFinite

end Number
end ExactJson
