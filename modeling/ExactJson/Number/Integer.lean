import ExactJson.Text.Ascii
import ExactJson.Text.Utf8

/-!
Integers in decimal: their canonical text, the checked reading of 64-bit integers, and the
fixed-width integer types that programs exchange with documents.
-/
namespace ExactJson

-- Powers of whole numbers are those of the core library, whatever else is imported.
attribute [local instance (high)] instPowNat Int.instNatPow

namespace Integer

/-- The canonical text: no leading zeros, no plus sign, no negative zero. -/
def text : Int → String
  | .ofNat n => n.repr
  | .negSucc n => "-" ++ (n + 1).repr

def horner (n : Nat) (ds : Bytes) : Nat := ds.foldl (fun n d => 10 * n + Ascii.digit d) n

theorem horner_eq (n : Nat) (ds : Bytes) : horner n ds = n * 10 ^ ds.length + horner 0 ds := by
  induction ds generalizing n with
  | nil => simp [horner]
  | cons d ds ih =>
    have h := ih (10 * n + Ascii.digit d)
    have h₀ := ih (10 * 0 + Ascii.digit d)
    simp only [horner, List.foldl_cons] at h h₀ ⊢
    rw [h, h₀, List.length_cons, Nat.pow_succ, Nat.add_mul, Nat.mul_zero, Nat.zero_add,
      Nat.add_assoc, Nat.mul_comm 10 n, Nat.mul_assoc, Nat.mul_comm 10]

theorem horner_append (xs ys : Bytes) :
    horner 0 (xs ++ ys) = horner 0 xs * 10 ^ ys.length + horner 0 ys := by
  rw [← horner_eq, horner, List.foldl_append]
  rfl

/-- The same number by halves, at most `rounds` times, so that the numbers that are multiplied are
of one length. -/
def halved : Nat → Bytes → Nat
  | 0, ds => horner 0 ds
  | rounds + 1, ds =>
    if ds.length < 100 then horner 0 ds
    else
      let n := ds.length / 2
      halved rounds (ds.take n) * 10 ^ (ds.length - n) + halved rounds (ds.drop n)

theorem halved_eq (rounds : Nat) (ds : Bytes) : halved rounds ds = horner 0 ds := by
  induction rounds generalizing ds with
  | zero => rfl
  | succ rounds ih =>
    simp only [halved]
    split
    · rfl
    · rw [ih, ih, ← List.length_drop, ← horner_append, List.take_append_drop]

def ofDigits (ds : Bytes) : Nat := halved ds.length ds

theorem ofDigits_eq (ds : Bytes) : ofDigits ds = horner 0 ds := halved_eq _ _

def ofDigits? (ds : Bytes) : Option Nat :=
  if ds ≠ [] ∧ ds.all Ascii.isDigit then some (ofDigits ds) else none

inductive Fault where
  | empty
  | signOnly
  | badDigit
  | overflow
deriving DecidableEq, Repr

def fitsInt64 (z : Int) : Bool := -2 ^ (63 : Nat) ≤ z && z < 2 ^ (63 : Nat)

/-- Goes on with the digits of a number whose first digits denote `z`. The sign counts with every
digit, since the least integer has no positive counterpart. -/
def goOnInt64 (negative : Bool) (z : Int) : Bytes → Except Fault Int64
  | [] => .ok (Int64.ofInt z)
  | d :: ds =>
    if Ascii.isDigit d then
      let z := if negative then 10 * z - Ascii.digit d else 10 * z + Ascii.digit d
      if fitsInt64 z then goOnInt64 negative z ds else .error .overflow
    else .error .badDigit

def readInt64 : Bytes → Except Fault Int64
  | [] => .error .empty
  | d :: ds =>
    if d = Ascii.minus then
      if ds = [] then .error .signOnly else goOnInt64 true 0 ds
    else goOnInt64 false 0 (d :: ds)

end Integer

/-- How many bits an integer type has; a word has 64. -/
inductive IntWidth where
  | w8
  | w16
  | w32
  | w64
  | w128
  | word
deriving DecidableEq, Repr

namespace IntWidth

def bits : IntWidth → Nat
  | w8 => 8
  | w16 => 16
  | w32 => 32
  | w64 | word => 64
  | w128 => 128

def suffix : IntWidth → String
  | w8 => "8"
  | w16 => "16"
  | w32 => "32"
  | w64 => "64"
  | w128 => "128"
  | word => "size"

end IntWidth

structure IntType where
  signed : Bool
  width : IntWidth
deriving DecidableEq, Repr

namespace IntType

def name (t : IntType) : String := (if t.signed then "i" else "u") ++ t.width.suffix

def least (t : IntType) : Int := if t.signed then -2 ^ (t.width.bits - 1) else 0

def greatest (t : IntType) : Int :=
  if t.signed then 2 ^ (t.width.bits - 1) - 1 else 2 ^ t.width.bits - 1

def contains (t : IntType) (z : Int) : Bool := t.least ≤ z && z ≤ t.greatest

def isNarrow (t : IntType) : Bool :=
  match t.width with
  | .w8 | .w16 | .w32 => true
  | .w64 => t.signed
  | .w128 | .word => false

/-- Reads decimal text as a value of the type. An unsigned type takes no minus sign, not even before
a zero. -/
def read? (t : IntType) (text : String) : Option Int :=
  let value : Option Int := match Text.utf8 text with
    | [] => none
    | d :: ds =>
      if d = Ascii.minus then
        if t.signed then (Integer.ofDigits? ds).map fun n => -(n : Int) else none
      else (Integer.ofDigits? (d :: ds)).map fun n => (n : Int)
  value.filter t.contains

end IntType
end ExactJson
