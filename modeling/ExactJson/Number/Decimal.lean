import ExactJson.Number.Binary
import ExactJson.Number.Integer
import ExactJson.Number.Literal

/-!
The decimal fraction that a number literal denotes, and the binary number nearest to it.
-/
namespace ExactJson

-- Powers of whole numbers are those of the core library, whatever else is imported.
attribute [local instance (high)] instPowNat Int.instNatPow

/-- The number `digits * 10 ^ exponent`, with its sign, which zero has too. -/
structure Decimal where
  negative : Bool
  digits : Nat
  exponent : Int
deriving DecidableEq, Repr

namespace Decimal

structure Reading where
  state : LiteralState := .start
  negative : Bool := false
  digits : Bytes := []
  places : Nat := 0
  down : Bool := false
  power : Nat := 0

/-- From here on an exponent grows no more: its other digits are passed over. Only a literal with
tens of thousands of digits can tell. -/
def powerCap : Nat := 65536

def longer (power : Nat) (b : UInt8) : Nat :=
  if power < powerCap then 10 * power + Ascii.digit b else power

def Reading.take (r : Reading) (b : UInt8) : Option Reading :=
  (r.state.next? b).map fun s => match s with
    | .sign => { r with state := s, negative := true }
    | .zero | .whole => { r with state := s, digits := b :: r.digits }
    | .fraction => { r with state := s, digits := b :: r.digits, places := r.places + 1 }
    | .markSign => { r with state := s, down := b == Ascii.minus }
    | .exponent => { r with state := s, power := longer r.power b }
    | .start | .point | .mark => { r with state := s }

def Reading.run? (r : Reading) : Bytes → Option Reading
  | [] => some r
  | b :: bs => (r.take b).bind fun r' => r'.run? bs

def Reading.decimal (r : Reading) : Decimal :=
  ⟨r.negative, Integer.ofDigits r.digits.reverse,
    (if r.down then -(r.power : Int) else r.power) - r.places⟩

/-- The number that a literal denotes, with its exponent as far as that counts. -/
def read? (text : String) : Option Decimal := do
  let r ← Reading.run? {} (Text.utf8 text)
  let _ ← r.state.form?
  return r.decimal

def low (d : Decimal) : Int := d.exponent + (d.digits.log2 / 4 : Nat)

def high (d : Decimal) : Int := d.exponent + (d.digits.log2 / 3 + 1 : Nat)

/-- The magnitude nearest to the number. Far outside the range of the format the answer is known
without writing out the power of ten. -/
def magnitude (f : BinaryFormat) (d : Decimal) : Nat :=
  if d.digits = 0 then 0
  else if d.low > 2 ^ (f.exponentBits - 1) then f.infinity
  else if d.high < f.leastExponent then 0
  else f.nearest (d.digits * 10 ^ d.exponent.toNat) (10 ^ (-d.exponent).toNat)

def toBinary (f : BinaryFormat) (d : Decimal) : Binary f :=
  Binary.ofMagnitude d.negative (d.magnitude f)

end Decimal

def Binary.ofLiteral? (f : BinaryFormat) (text : String) : Option (Binary f) :=
  (Decimal.read? text).map (Decimal.toBinary f)

end ExactJson
