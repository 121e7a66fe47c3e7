/-!
Binary floating-point numbers by their bits: a sign, a biased exponent and a fraction. A real number
is rounded to the nearest of them, and halfway to the one whose last bit is zero.
-/
namespace ExactJson

-- Powers of whole numbers are those of the core library, whatever else is imported.
attribute [local instance (high)] instPowNat Int.instNatPow

structure BinaryFormat where
  fractionBits : Nat
  exponentBits : Nat
deriving DecidableEq, Repr

namespace BinaryFormat

def single : BinaryFormat := ⟨23, 8⟩

def double : BinaryFormat := ⟨52, 11⟩

/-- The place of the sign, which is also the number of magnitudes. -/
def signUnit (f : BinaryFormat) : Nat := 2 ^ (f.exponentBits + f.fractionBits)

/-- The magnitude of infinity. Those below it are the finite ones, those above it no numbers. -/
def infinity (f : BinaryFormat) : Nat := (2 ^ f.exponentBits - 1) * 2 ^ f.fractionBits

def quiet (f : BinaryFormat) : Nat := f.infinity + 2 ^ (f.fractionBits - 1)

def leastExponent (f : BinaryFormat) : Int :=
  2 - 2 ^ (f.exponentBits - 1) - f.fractionBits

end BinaryFormat

def roundToEven (num den : Nat) : Nat :=
  let q := num / den
  let r := num % den
  if 2 * r < den then q
  else if 2 * r = den then q + q % 2
  else q + 1

/-- The greatest `e` with `2 ^ e ≤ num / den`, for positive arguments. -/
def floorLog2 (num den : Nat) : Int :=
  let e : Int := (num.log2 : Int) - den.log2
  if num * 2 ^ (-e).toNat < den * 2 ^ e.toNat then e - 1 else e

/-- The magnitude nearest to `num / den`. Counting magnitudes from zero upward passes the binades in
order, so a significand that is rounded up past the end of its binade needs no case of its own. -/
def BinaryFormat.nearest (f : BinaryFormat) (num den : Nat) : Nat :=
  if num = 0 then 0
  else
    let q := max (floorLog2 num den - f.fractionBits) f.leastExponent
    let m := roundToEven (num * 2 ^ (-q).toNat) (den * 2 ^ q.toNat)
    min f.infinity ((q - f.leastExponent).toNat * 2 ^ f.fractionBits + m)

structure Binary (f : BinaryFormat) where
  bits : BitVec (1 + f.exponentBits + f.fractionBits)
deriving DecidableEq

abbrev Binary32 := Binary .single
abbrev Binary64 := Binary .double

namespace Binary
variable {f g : BinaryFormat}

def ofMagnitude (negative : Bool) (m : Nat) : Binary f :=
  ⟨BitVec.ofNat _ (if negative then f.signUnit + m else m)⟩

def negative (x : Binary f) : Bool := f.signUnit ≤ x.bits.toNat

def magnitude (x : Binary f) : Nat := x.bits.toNat % f.signUnit

def isFinite (x : Binary f) : Bool := x.magnitude < f.infinity

def isNaN (x : Binary f) : Bool := f.infinity < x.magnitude

def sameValue (x y : Binary f) : Bool :=
  !x.isNaN && !y.isNaN && (x == y || (x.magnitude == 0 && y.magnitude == 0))

def significand (x : Binary f) : Nat :=
  let m := x.magnitude
  if m < 2 ^ f.fractionBits then m else 2 ^ f.fractionBits + m % 2 ^ f.fractionBits

def exponent (x : Binary f) : Int :=
  f.leastExponent + (x.magnitude / 2 ^ f.fractionBits - 1 : Nat)

def ofInt (z : Int) : Binary f := ofMagnitude (z < 0) (f.nearest z.natAbs 1)

def convert (x : Binary f) : Binary g :=
  ofMagnitude x.negative <|
    if x.isFinite then
      g.nearest (x.significand * 2 ^ x.exponent.toNat) (2 ^ (-x.exponent).toNat)
    else if x.isNaN then g.quiet
    else g.infinity

end Binary
end ExactJson
