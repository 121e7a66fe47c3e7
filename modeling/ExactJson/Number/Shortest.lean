import ExactJson.Number.Binary
import ExactJson.Number.Integer

/-!
The shortest decimal text of a binary number. Of the decimals that round to the number, one on the
coarsest power-of-ten grid is taken, the nearest of them there; halfway the upper one is.
-/
namespace ExactJson

-- Powers of whole numbers are those of the core library, whatever else is imported.
attribute [local instance (high)] instPowNat Int.instNatPow

structure Digits where
  digits : Nat
  exponent : Int
deriving DecidableEq, Repr

namespace Binary
variable {f : BinaryFormat}

/-- Below a power of two the next number is only half as far away as above it. -/
def narrowBelow (x : Binary f) : Bool :=
  x.magnitude % 2 ^ f.fractionBits == 0 && 2 ^ f.fractionBits < x.magnitude

/-- Whether `c / b` rounds to the number, which is `a / b` in the unit of a quarter of its last
place, `u / b`. The ends of the interval round to the even neighbour. -/
def roundsHere (x : Binary f) (a u b c : Nat) : Bool :=
  let low := a - (if x.narrowBelow then u else 2 * u)
  let high := a + 2 * u
  if x.significand % 2 = 0 then low ≤ c * b && c * b ≤ high else low < c * b && c * b < high

/-- The multiple of `10 ^ e` nearest to the number, if one rounds to it. -/
def onGrid? (x : Binary f) (e : Int) : Option Nat :=
  let scale := 2 ^ x.exponent.toNat * 10 ^ (-e).toNat
  let a := 4 * x.significand * scale
  let b := 4 * 2 ^ (-x.exponent).toNat * 10 ^ e.toNat
  let c := a / b
  let below := x.roundsHere a scale b c
  let above := x.roundsHere a scale b (c + 1)
  if above && (!below || (2 * c + 1) * b ≤ 2 * a) then some (c + 1)
  else if below then some c
  else none

/-- Tries the grids from `10 ^ e` downward, at most `n` of them, and takes what is left without a
remainder on the grid after those. -/
def firstGrid (x : Binary f) : Nat → Int → Digits
  | 0, e =>
    ⟨x.significand * 2 ^ x.exponent.toNat * 10 ^ (-e).toNat /
      (2 ^ (-x.exponent).toNat * 10 ^ e.toNat), e⟩
  | n + 1, e =>
    match x.onGrid? e with
    | some c => ⟨c, e⟩
    | none => x.firstGrid n (e - 1)

/-- The shortest digits of a finite number. The search starts above the number and ends where it is
itself on the grid, since a power of a half is a multiple of the same power of a tenth. -/
def shortest (x : Binary f) : Digits :=
  let high := (x.significand * 2 ^ x.exponent.toNat).repr.length
  x.firstGrid (high + (-x.exponent).toNat) high

end Binary

namespace Digits

def lead (d : Digits) : Int := d.exponent + d.digits.repr.length - 1

def zeros (n : Nat) : String := String.ofList (List.replicate n '0')

def positional (whole : String) (d : Digits) : String :=
  let ds := d.digits.repr.toList
  let places := (-d.exponent).toNat
  if 0 ≤ d.exponent then String.ofList ds ++ zeros d.exponent.toNat ++ whole
  else if places < ds.length then
    String.ofList (ds.take (ds.length - places)) ++ "." ++
      String.ofList (ds.drop (ds.length - places))
  else "0." ++ zeros (places - ds.length) ++ String.ofList ds

def scientific (d : Digits) : String :=
  let ds := d.digits.repr.toList
  let fraction := if ds.tail = [] then "" else "." ++ String.ofList ds.tail
  String.ofList (ds.take 1) ++ fraction ++ "e" ++ Integer.text d.lead

end Digits

structure FloatNotation where
  /-- Whether a number whose leading digit has this exponent is written with all its places. -/
  isPositional : Int → Bool
  whole : String

namespace FloatNotation

/-- As a literal: always with a fraction or an exponent, with an exponent from `1e16` on and below
`1e-4`. -/
def literal : FloatNotation := ⟨fun e => -5 < e && e < 16, ".0"⟩

def plain : FloatNotation := ⟨fun _ => true, ""⟩

def unsigned {f : BinaryFormat} (n : FloatNotation) (x : Binary f) : String :=
  if x.magnitude = 0 then "0" ++ n.whole
  else
    let d := x.shortest
    if n.isPositional d.lead then d.positional n.whole else d.scientific

/-- The text of a number. What is no number has no sign. -/
def text {f : BinaryFormat} (n : FloatNotation) (x : Binary f) : String :=
  if x.isNaN then "NaN"
  else
    (if x.negative then "-" else "") ++ (if x.isFinite then n.unsigned x else "inf")

end FloatNotation
end ExactJson
