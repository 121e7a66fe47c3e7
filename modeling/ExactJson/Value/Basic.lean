import ExactJson.Number.Basic
import ExactJson.Value.OrderedMap

/-!
JSON values. Elements and members keep their order, and the members of an object have different
names; equality sees the order of members and the representation of numbers.
-/
namespace ExactJson

inductive Value where
  | null
  | boolean (b : Bool)
  | number (n : Number)
  | string (s : String)
  | array (items : List Value)
  | object (members : List (String × Value))

instance : Inhabited Value := ⟨.null⟩

abbrev Object := OrderedMap String Value

inductive ValueKind where
  | null
  | boolean
  | number
  | string
  | array
  | object
deriving DecidableEq, Repr

def ValueKind.name : ValueKind → String
  | null => "null"
  | boolean => "boolean"
  | number => "number"
  | string => "string"
  | array => "array"
  | object => "object"

namespace Value

def kind : Value → ValueKind
  | null => .null
  | boolean _ => .boolean
  | number _ => .number
  | string _ => .string
  | array _ => .array
  | object _ => .object

def isScalar (v : Value) : Bool :=
  v.kind = .boolean || v.kind = .number || v.kind = .string

def boolean? : Value → Option Bool
  | boolean b => some b
  | _ => none

def number? : Value → Option Number
  | number n => some n
  | _ => none

def string? : Value → Option String
  | string s => some s
  | _ => none

def array? : Value → Option (List Value)
  | array items => some items
  | _ => none

def object? : Value → Option Object
  | object members => some members
  | _ => none

def size : Value → Nat
  | array items => items.length
  | object members => members.length
  | _ => 0

def isEmpty (v : Value) : Bool := v.size == 0

def member? (v : Value) (name : String) : Option Value := v.object?.bind (·.get? name)

def item? (v : Value) (i : Nat) : Option Value := v.array?.bind (·[i]?)

def hasMember (v : Value) (name : String) : Bool := (v.member? name).isSome

def ofInt (z : Int) : Value := number (Number.ofInt z)

def ofBinary64 (x : Binary64) : Value := ((Number.ofBinary64? x).map number).getD null

def ofBinary32 (x : Binary32) : Value := ofBinary64 x.convert

def ofOption (v : Option Value) : Value := v.getD null

mutual
def beq : Value → Value → Bool
  | null, null => true
  | boolean a, boolean b => a == b
  | number a, number b => a == b
  | string a, string b => a == b
  | array xs, array ys => beqItems xs ys
  | object xs, object ys => beqMembers xs ys
  | _, _ => false
def beqItems : List Value → List Value → Bool
  | [], [] => true
  | x :: xs, y :: ys => beq x y && beqItems xs ys
  | _, _ => false
def beqMembers : List (String × Value) → List (String × Value) → Bool
  | [], [] => true
  | (k, x) :: xs, (j, y) :: ys => k == j && beq x y && beqMembers xs ys
  | _, _ => false
end

instance : BEq Value := ⟨beq⟩

mutual
def depth : Value → Nat
  | array items => depthItems items + 1
  | object members => depthMembers members + 1
  | _ => 0
def depthItems : List Value → Nat
  | [] => 0
  | v :: vs => max v.depth (depthItems vs)
def depthMembers : List (String × Value) → Nat
  | [] => 0
  | (_, v) :: ms => max v.depth (depthMembers ms)
end

mutual
def count : Value → Nat
  | array items => countItems items + 1
  | object members => countMembers members + 1
  | _ => 1
def countItems : List Value → Nat
  | [] => 0
  | v :: vs => v.count + countItems vs
def countMembers : List (String × Value) → Nat
  | [] => 0
  | (_, v) :: ms => v.count + countMembers ms
end

end Value
end ExactJson
