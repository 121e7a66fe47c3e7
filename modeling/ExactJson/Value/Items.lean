import ExactJson.Value.Basic

/-!
Editing arrays, at the end and by index. An index out of range changes nothing and is reported.
-/
namespace ExactJson

structure IndexError where
  index : Nat
  length : Nat
deriving DecidableEq, Repr

def IndexError.message (e : IndexError) : String :=
  s!"index {e.index} out of bounds for length {e.length}"

inductive Bound where
  | included (i : Nat)
  | excluded (i : Nat)
  | unbounded
deriving DecidableEq, Repr

namespace Bound

/-- The index behind another one. Indices have 64 bits, and the last has none behind it. -/
def next? (i : Nat) : Option Nat := if i + 1 < UInt64.size then some (i + 1) else none

def first? : Bound → Option Nat
  | included i => some i
  | excluded i => next? i
  | unbounded => some 0

def behind? (length : Nat) : Bound → Option Nat
  | included i => next? i
  | excluded i => some i
  | unbounded => some length

end Bound

abbrev Items := List Value

namespace Items

def push (items : Items) (v : Value) : Items := items ++ [v]

def extend (items more : Items) : Items := items ++ more

def fill (items : Items) (v : Value) : Items := items.map fun _ => v

/-- Puts a value before the one at the index, or at the end if the index is the length. -/
def insert (items : Items) (i : Nat) (v : Value) : Except IndexError Items :=
  if i ≤ items.length then .ok (items.insertIdx i v) else .error ⟨i, items.length⟩

def replace (items : Items) (i : Nat) (v : Value) : Except IndexError (Value × Items) :=
  match items[i]? with
  | some old => .ok (old, items.set i v)
  | none => .error ⟨i, items.length⟩

def remove? (items : Items) (i : Nat) : Option (Value × Items) :=
  items[i]?.map fun old => (old, items.eraseIdx i)

/-- The values from one bound to another, unless they reach out of the array or cross. -/
def range? (items : Items) (low high : Bound) : Option Items := do
  let i ← low.first?
  let j ← high.behind? items.length
  if i ≤ j ∧ j ≤ items.length then some ((items.drop i).take (j - i)) else none

end Items
end ExactJson
