import ExactJson.Source.Basic
import ExactJson.Text.Shown
import ExactJson.Token.Basic

/-!
What can be wrong with a document, and the words for it. The first error ends the reading.
-/
namespace ExactJson

inductive ReadError where
  | lexical (e : LexicalError)
  | unexpected (found : Token) (expected : KindSet)
  | tooDeep (limit : Nat) (position : Position)
  | input (e : IoError)
deriving DecidableEq

def LexicalError.message (e : LexicalError) : String :=
  let shown := match e.character with
    | some c => " '" ++ Text.shown c ++ "'"
    | none => ""
  e.fault.describe ++ shown ++ " at " ++ e.position.describe

namespace ReadError

def position? : ReadError → Option Position
  | lexical e => some e.position
  | unexpected found _ => some found.span.start
  | tooDeep _ p => some p
  | input _ => none

/-- What the document could have gone on with, where that is what is wrong. -/
def expected : ReadError → KindSet
  | unexpected _ kinds => kinds
  | lexical _ | tooDeep _ _ | input _ => .empty

def message : ReadError → String
  | lexical e => e.message
  | unexpected found kinds =>
    let lexeme := if found.lexeme = "" then "" else " `" ++ found.lexeme ++ "`"
    "unexpected " ++ found.kind.describe ++ lexeme ++ " at " ++ found.span.start.describe ++ ", " ++
      kinds.describe
  | tooDeep limit p => s!"nesting deeper than {limit} levels at " ++ p.describe
  | input e => "read error: " ++ e.message

def cause? : ReadError → Option String
  | lexical e => some e.message
  | input e => some e.message
  | unexpected _ _ | tooDeep _ _ => none

end ReadError
end ExactJson
