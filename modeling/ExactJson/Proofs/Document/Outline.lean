import ExactJson.Proofs.Document.Machine
import ExactJson.Proofs.Token.Kind

/-! Which tokens the machine takes depends on their kinds and on the open containers alone, and the
expected kinds are those that lead on. -/
namespace ExactJson

inductive Place where
  | value
  | firstItem
  | itemEnd
  | firstName
  | name
  | colon
  | memberEnd
  | documentEnd
deriving DecidableEq, Repr

structure Outline where
  place : Place
  arrays : List Bool
deriving DecidableEq, Repr

namespace Outline

def complete : List Bool → Outline
  | [] => ⟨.documentEnd, []⟩
  | true :: arrays => ⟨.itemEnd, arrays⟩
  | false :: arrays => ⟨.memberEnd, arrays⟩

def beginValue? (arrays : List Bool) : TokenKind → Option Outline
  | .openBrace => some ⟨.firstName, arrays⟩
  | .openBracket => some ⟨.firstItem, arrays⟩
  | .string | .number | .trueWord | .falseWord | .nullWord => some (complete arrays)
  | _ => none

def next? (o : Outline) (k : TokenKind) : Option Outline :=
  match o.place, k with
  | .value, _ => beginValue? o.arrays k
  | .firstItem, .closeBracket => some (complete o.arrays)
  | .firstItem, _ => beginValue? (true :: o.arrays) k
  | .itemEnd, .comma => some ⟨.value, true :: o.arrays⟩
  | .itemEnd, .closeBracket => some (complete o.arrays)
  | .firstName, .string => some ⟨.colon, o.arrays⟩
  | .firstName, .closeBrace => some (complete o.arrays)
  | .name, .string => some ⟨.colon, o.arrays⟩
  | .colon, .colon => some ⟨.value, false :: o.arrays⟩
  | .memberEnd, .comma => some ⟨.name, o.arrays⟩
  | .memberEnd, .closeBrace => some (complete o.arrays)
  | _, _ => none

def run? (o : Outline) : List TokenKind → Option Outline
  | [] => some o
  | k :: ks => (o.next? k).bind fun o' => o'.run? ks

theorem run?_append (o : Outline) (ks js : List TokenKind) :
    o.run? (ks ++ js) = (o.run? ks).bind fun o' => o'.run? js := by
  induction ks generalizing o with
  | nil => rfl
  | cons k ks ih =>
    rw [List.cons_append, run?, run?, Option.bind_assoc]
    exact Option.bind_congr fun o' _ => ih o'

end Outline

namespace DocumentState

def isArray : Frame → Bool
  | .array _ => true
  | .member _ _ => false

def outline : DocumentState → Outline
  | value stack => ⟨.value, stack.map isArray⟩
  | firstItem stack => ⟨.firstItem, stack.map isArray⟩
  | itemEnd _ stack => ⟨.itemEnd, stack.map isArray⟩
  | firstName stack => ⟨.firstName, stack.map isArray⟩
  | name _ stack => ⟨.name, stack.map isArray⟩
  | colon _ _ stack => ⟨.colon, stack.map isArray⟩
  | memberEnd _ stack => ⟨.memberEnd, stack.map isArray⟩
  | documentEnd _ => ⟨.documentEnd, []⟩

def containers : DocumentState → Nat
  | value stack => stack.length
  | firstItem stack | itemEnd _ stack | firstName stack | name _ stack | colon _ _ stack
  | memberEnd _ stack => stack.length + 1
  | documentEnd _ => 0

variable {limit : Nat} {s t : DocumentState} {a : Symbol} {as : List Symbol} {k : TokenKind}
variable {stack : List Frame} {v : Value} {options : ReadOptions} {token : Token} {e : ReadError}

@[simp] theorem outline_complete (v : Value) (stack : List Frame) :
    (complete v stack).outline = .complete (stack.map isArray) := by
  cases stack with
  | nil => rfl
  | cons f stack => cases f <;> rfl

@[simp] theorem containers_complete (v : Value) (stack : List Frame) :
    (complete v stack).containers = stack.length := by
  cases stack with
  | nil => rfl
  | cons f stack => cases f <;> rfl

theorem Begins.next? (hb : Begins s stack) (hk : k ≠ .closeBracket) :
    s.outline.next? k = Outline.beginValue? (stack.map isArray) k := by
  cases hb with
  | value => rfl
  | firstItem =>
    cases k with
    | closeBracket => exact absurd rfl hk
    | _ => rfl

theorem Begins.containers_eq (hb : Begins s stack) : s.containers = stack.length := by
  cases hb <;> rfl

theorem Takes.outline (h : Takes limit s a t) : s.outline.next? a.kind = some t.outline := by
  cases h with
  | scalar hb ha =>
    rw [outline_complete]
    cases a with
    | string | number | null => exact hb.next? (by simp [Symbol.kind])
    | boolean b => cases b <;> exact hb.next? (by simp [Symbol.kind])
    | openBrace | closeBrace | openBracket | closeBracket | colon | comma => cases ha
  | openBrace hb | openBracket hb => exact hb.next? (by simp [Symbol.kind])
  | emptyArray | closeArray | emptyObject | closeObject =>
    rw [outline_complete]
    rfl
  | itemComma | firstName | name | colon | memberComma => rfl

theorem Run.outline (h : Run limit s as t) :
    s.outline.run? (as.map Symbol.kind) = some t.outline := by
  induction h with
  | nil => rfl
  | cons h _ ih => rw [List.map_cons, Outline.run?, h.outline, Option.bind_some, ih]

theorem Takes.containers_le (h : Takes limit s a t) : t.containers ≤ s.containers + 1 := by
  cases h with
  | scalar hb =>
    rw [containers_complete, hb.containers_eq]
    omega
  | openBrace hb | openBracket hb =>
    rw [hb.containers_eq]
    exact Nat.le_refl _
  | emptyArray | closeArray | emptyObject | closeObject =>
    rw [containers_complete]
    simp only [containers]
    omega
  | itemComma | firstName | name | colon | memberComma => simp [containers]

theorem Run.containers_le (h : Run limit s as t) : t.containers ≤ s.containers + as.length := by
  induction h with
  | nil => exact Nat.le_refl _
  | cons h _ ih =>
    have hs := h.containers_le
    simp only [List.length_cons]
    omega

/-- The expected kinds are those that lead on, and the end behind a complete document. -/
theorem contains_expected : s.expected.contains k = true ↔
    (∃ o, s.outline.next? k = some o) ∨ s.outline.place = .documentEnd ∧ k = .endOfInput := by
  cases s with
  | value | firstItem =>
    simp only [expected, KindSet.value, KindSet.contains_insert, KindSet.contains_ofList]
    cases k <;> simp [outline, Outline.next?, Outline.beginValue?]
  | itemEnd | firstName | name | colon | memberEnd | documentEnd =>
    simp only [expected, KindSet.contains_ofList]
    cases k <;> simp [outline, Outline.next?]

end DocumentState
end ExactJson
