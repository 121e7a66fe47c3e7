import ExactJson.Number.Literal
import ExactJson.Text.Position
import ExactJson.Token.Kind

/-!
Tokens, with the exact text and the place of each, and the ways in which bytes can fail to be one.
-/
namespace ExactJson

inductive TokenContent where
  | openBrace
  | closeBrace
  | openBracket
  | closeBracket
  | colon
  | comma
  /-- A string, by its text without quotes and escapes. -/
  | string (text : String)
  | number (form : NumberForm)
  | boolean (value : Bool)
  | null
  | endOfInput
deriving DecidableEq, Repr

def TokenContent.kind : TokenContent → TokenKind
  | openBrace => .openBrace
  | closeBrace => .closeBrace
  | openBracket => .openBracket
  | closeBracket => .closeBracket
  | colon => .colon
  | comma => .comma
  | string _ => .string
  | number _ => .number
  | boolean true => .trueWord
  | boolean false => .falseWord
  | null => .nullWord
  | endOfInput => .endOfInput

@[simp] theorem TokenContent.kind_eq_endOfInput {c : TokenContent} :
    c.kind = .endOfInput ↔ c = .endOfInput := by
  cases c with
  | boolean b => cases b <;> simp [kind]
  | _ => simp [kind]

structure Token where
  content : TokenContent
  lexeme : String
  span : Span
deriving DecidableEq, Repr

namespace Token

def kind (t : Token) : TokenKind := t.content.kind

def string? (t : Token) : Option String :=
  match t.content with
  | .string text => some text
  | _ => none

def form? (t : Token) : Option NumberForm :=
  match t.content with
  | .number form => some form
  | _ => none

end Token

inductive LexicalFault where
  /-- A byte that no token starts with, or that breaks a keyword. -/
  | invalidToken
  | invalidNumber
  | invalidEscape
  | invalidUnicodeEscape
  | loneSurrogate
  | unterminatedString
  | controlCharacter
  | invalidUtf8
deriving DecidableEq, Repr

def LexicalFault.describe : LexicalFault → String
  | invalidToken => "invalid token"
  | invalidNumber => "invalid number"
  | invalidEscape => "invalid escape sequence"
  | invalidUnicodeEscape => "invalid unicode escape"
  | loneSurrogate => "invalid unicode codepoint"
  | unterminatedString => "unterminated string"
  | controlCharacter => "unescaped control character in string"
  | invalidUtf8 => "invalid UTF-8 in string"

/-- A lexical fault, its place, and the character that is at fault, if it is one by itself. -/
structure LexicalError where
  fault : LexicalFault
  character : Option Char
  position : Position
deriving DecidableEq, Repr

end ExactJson
