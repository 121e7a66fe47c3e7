import ExactJson.Error
import ExactJson.Value.Basic

/-!
The grammar of documents as a machine that is shown one token at a time. The containers that are
open around the current place are on a stack, so that nesting is bounded by the limit alone.
-/
namespace ExactJson

structure ReadOptions where
  /-- How many containers may be inside each other. -/
  maxDepth : Nat := 1024
  fractions : FractionPolicy := .exact
deriving DecidableEq, Repr

inductive Frame where
  /-- An array, with its items so far backwards. -/
  | array (items : List Value)
  /-- An object, with its members so far and the name of the next. -/
  | member (members : Object) (name : String)

/-- What has been read of a document, by what has to come next. -/
inductive DocumentState where
  | value (stack : List Frame)
  | firstItem (stack : List Frame)
  /-- Behind an item: a comma or `]`. The items are backwards. -/
  | itemEnd (items : List Value) (stack : List Frame)
  | firstName (stack : List Frame)
  | name (members : Object) (stack : List Frame)
  | colon (members : Object) (name : String) (stack : List Frame)
  | memberEnd (members : Object) (stack : List Frame)
  | documentEnd (v : Value)

namespace DocumentState

def expected : DocumentState → KindSet
  | value _ => .value
  | firstItem _ => KindSet.value.insert .closeBracket
  | itemEnd _ _ => .ofList [.comma, .closeBracket]
  | firstName _ => .ofList [.string, .closeBrace]
  | name _ _ => .ofList [.string]
  | colon _ _ _ => .ofList [.colon]
  | memberEnd _ _ => .ofList [.comma, .closeBrace]
  | documentEnd _ => .ofList [.endOfInput]

def complete (v : Value) : List Frame → DocumentState
  | [] => documentEnd v
  | .array items :: stack => itemEnd (v :: items) stack
  | .member members key :: stack => memberEnd (members.insert key v) stack

inductive Move where
  | take (next : DocumentState)
  | accept (v : Value)
  | refuse (e : ReadError)

def enter (options : ReadOptions) (stack : List Frame) (t : Token) (next : DocumentState) : Move :=
  if options.maxDepth < stack.length + 1 then .refuse (.tooDeep options.maxDepth t.span.start)
  else .take next

def beginValue (options : ReadOptions) (expected : KindSet) (stack : List Frame) (t : Token) :
    Move :=
  match t.content with
  | .openBrace => enter options stack t (firstName stack)
  | .openBracket => enter options stack t (firstItem stack)
  | .string text => .take (complete (.string text) stack)
  | .number form => .take (complete (.number (.ofLiteral options.fractions form t.lexeme)) stack)
  | .boolean b => .take (complete (.boolean b) stack)
  | .null => .take (complete .null stack)
  | .closeBrace | .closeBracket | .colon | .comma | .endOfInput => .refuse (.unexpected t expected)

def move (options : ReadOptions) (s : DocumentState) (t : Token) : Move :=
  match s, t.content with
  | value stack, _ => beginValue options s.expected stack t
  | firstItem stack, .closeBracket => .take (complete (.array []) stack)
  | firstItem stack, _ => beginValue options s.expected (.array [] :: stack) t
  | itemEnd items stack, .comma => .take (value (.array items :: stack))
  | itemEnd items stack, .closeBracket => .take (complete (.array items.reverse) stack)
  | firstName stack, .closeBrace => .take (complete (.object []) stack)
  | firstName stack, .string text => .take (colon [] text stack)
  | name members stack, .string text => .take (colon members text stack)
  | colon members text stack, .colon => .take (value (.member members text :: stack))
  | memberEnd members stack, .comma => .take (name members stack)
  | memberEnd members stack, .closeBrace => .take (complete (.object members) stack)
  | documentEnd v, .endOfInput => .accept v
  | _, _ => .refuse (.unexpected t s.expected)

/-- The end of the document is never taken. -/
theorem kind_of_move_eq_take {options : ReadOptions} {s next : DocumentState} {t : Token}
    (h : s.move options t = .take next) : t.kind ≠ .endOfInput := by
  intro ht
  have hc : t.content = .endOfInput := TokenContent.kind_eq_endOfInput.1 ht
  cases s <;> simp [move, beginValue, hc] at h

end DocumentState
end ExactJson
