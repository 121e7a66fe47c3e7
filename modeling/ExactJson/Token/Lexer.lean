import ExactJson.Text.Escape
import ExactJson.Token.Basic

/-!
The lexer, a machine that is shown one byte at a time. Each byte it either takes, and goes on, or
takes as the last of a token or a fault, or leaves where it is because the token ended before it.
What a token is thus depends on its own bytes and at most one behind them, whatever the bytes come
from.
-/
namespace ExactJson

inductive Keyword where
  | true
  | false
  | null
deriving DecidableEq, Repr

namespace Keyword

def spelling : Keyword → String
  | .true => "true"
  | .false => "false"
  | .null => "null"

def content : Keyword → TokenContent
  | .true => .boolean .true
  | .false => .boolean .false
  | .null => .null

def starting? (b : UInt8) : Option Keyword :=
  if b = Ascii.lowerT then some .true
  else if b = Ascii.lowerF then some .false
  else if b = Ascii.lowerN then some .null
  else none

end Keyword

namespace Lexer

/-- A string that has been opened: the place of its quote, the bytes of the literal and those of the
text so far, both backwards, and the first half of a pair whose second half must come next. -/
structure OpenString where
  start : Position
  literal : Bytes
  text : Bytes
  lead : Option Nat
deriving DecidableEq, Repr

inductive State where
  | between
  | keyword (word : Keyword) (rest : Bytes) (start : Position)
  | number (state : LiteralState) (literal : Bytes) (start : Position)
  | string (s : OpenString)
  | escape (s : OpenString) (slash : Position)
  /-- A string behind `\u`, with the digits read so far backwards. -/
  | unicode (s : OpenString) (slash : Position) (digits : Bytes)
deriving DecidableEq, Repr

abbrev Outcome := Except LexicalError Token

inductive Step where
  | take (next : State)
  | takeLast (outcome : Outcome)
  | leave (outcome : Outcome)

def fail (fault : LexicalFault) (character : Option Char) (p : Position) : Outcome :=
  .error ⟨fault, character, p⟩

def token (content : TokenContent) (lexeme : String) (start finish : Position) : Outcome :=
  .ok ⟨content, lexeme, ⟨start, finish⟩⟩

def mark? (b : UInt8) : Option TokenContent :=
  if b = Ascii.openBrace then some .openBrace
  else if b = Ascii.closeBrace then some .closeBrace
  else if b = Ascii.openBracket then some .openBracket
  else if b = Ascii.closeBracket then some .closeBracket
  else if b = Ascii.colon then some .colon
  else if b = Ascii.comma then some .comma
  else none

def begin (p : Position) (b : UInt8) : Step :=
  if Ascii.isBlank b then .take .between
  else match mark? b with
    | some content => .takeLast (token content (Text.ofAscii [b]) p (p.next b))
    | none =>
      if b = Ascii.quote then .take (.string ⟨p, [b], [], none⟩)
      else match LiteralState.start.next? b with
        | some state => .take (.number state [b] p)
        | none => match Keyword.starting? b with
          | some word => .take (.keyword word (Text.utf8 word.spelling).tail p)
          | none => .leave (fail .invalidToken (Ascii.char? b) p)

def endKeyword (word : Keyword) (start p : Position) (next : Option UInt8) : Outcome :=
  match next.filter Ascii.isWordByte with
  | some b => fail .invalidToken (Ascii.char? b) p
  | none => token word.content word.spelling start p

/-- A number that does not go on, with the byte behind it. A zero has no digits behind it. -/
def endNumber (state : LiteralState) (literal : Bytes) (start p : Position) (next : Option UInt8) :
    Outcome :=
  match state.form? with
  | some form =>
    if state = .zero ∧ (next.any Ascii.isDigit) then fail .invalidNumber (next.bind Ascii.char?) p
    else token (.number form) (Text.ofAscii literal.reverse) start p
  | none => fail .invalidNumber (next.bind Ascii.char?) p

def OpenString.close (s : OpenString) (p : Position) : Outcome :=
  match Text.text? s.text.reverse, Text.text? s.literal.reverse with
  | some text, some lexeme => token (.string text) lexeme s.start p
  | _, _ => fail .invalidUtf8 none s.start

namespace OpenString

def write (s : OpenString) (b : UInt8) : OpenString := { s with literal := b :: s.literal }

def addByte (s : OpenString) (b : UInt8) : OpenString := { s with text := b :: s.text }

def addChar (s : OpenString) (c : Char) : OpenString :=
  { s with text := (String.utf8EncodeChar c).reverseAux s.text, lead := none }

end OpenString

def stringByte (s : OpenString) (p : Position) (b : UInt8) : Step :=
  if b = Ascii.quote then
    match s.lead with
    | some _ => .takeLast (fail .loneSurrogate none p)
    | none => .takeLast ((s.write b).close (p.next b))
  else if b = Ascii.backslash then .take (.escape (s.write b) p)
  else if Ascii.isControl b then .takeLast (fail .controlCharacter (Ascii.char? b) p)
  else match s.lead with
    | some _ => .takeLast (fail .loneSurrogate none p)
    | none => .take (.string ((s.write b).addByte b))

def escapeByte (s : OpenString) (slash : Position) (b : UInt8) : Step :=
  if b = Ascii.lowerU then .take (.unicode (s.write b) slash [])
  else match s.lead with
    | some _ => .takeLast (fail .loneSurrogate none slash)
    | none => match Escape.short? b with
      | some c => .take (.string ((s.write b).addChar c))
      | none => .takeLast (fail .invalidEscape (Ascii.char? b) slash)

def codeUnit (s : OpenString) (slash : Position) (digits : Bytes) : Step :=
  match Escape.unit? digits with
  | none => .takeLast (fail .invalidUnicodeEscape none slash)
  | some u => match Escape.resolve? s.lead u with
    | none => .takeLast (fail .loneSurrogate none slash)
    | some (.char c) => .take (.string (s.addChar c))
    | some (.lead l) => .take (.string { s with lead := some l })

def State.step (state : State) (p : Position) (b : UInt8) : Step :=
  match state with
  | .between => begin p b
  | .keyword word [] start => .leave (endKeyword word start p (some b))
  | .keyword word (c :: rest) start =>
    if b = c then .take (.keyword word rest start)
    else .takeLast (fail .invalidToken (Ascii.char? b) p)
  | .number state literal start => match state.next? b with
    | some next => .take (.number next (b :: literal) start)
    | none => .leave (endNumber state literal start p (some b))
  | .string s => stringByte s p b
  | .escape s slash => escapeByte s slash b
  | .unicode s slash digits =>
    if digits.length < 3 then .take (.unicode (s.write b) slash (b :: digits))
    else codeUnit (s.write b) slash (b :: digits).reverse

def State.finish (state : State) (p : Position) : Outcome :=
  match state with
  | .between => token .endOfInput "" p p
  | .keyword word [] start => endKeyword word start p none
  | .keyword _ (_ :: _) _ => fail .invalidToken none p
  | .number state literal start => endNumber state literal start p none
  | .string _ | .escape _ _ | .unicode _ _ _ => fail .unterminatedString none p

/-- Shows the machine bytes from the place `p` on, and gives back the place and the bytes that it
left. -/
def State.run (state : State) (p : Position) : Bytes → Outcome × Position × Bytes
  | [] => (state.finish p, p, [])
  | b :: rest => match state.step p b with
    | .take next => next.run (p.next b) rest
    | .takeLast outcome => (outcome, p.next b, rest)
    | .leave outcome => (outcome, p, b :: rest)

end Lexer
end ExactJson
