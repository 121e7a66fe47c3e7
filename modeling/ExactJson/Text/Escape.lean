import ExactJson.Text.Ascii
import ExactJson.Text.Utf8

/-!
Escapes in JSON strings. Reading knows eight short escapes and `\u` with four hexadecimal digits,
where a character above U+FFFF takes a pair of code units. Writing escapes only what it must.
-/
namespace ExactJson.Escape

def short? (b : UInt8) : Option Char :=
  if b = Ascii.lowerN then some '\n'
  else if b = Ascii.lowerT then some '\t'
  else if b = 0x72 then some '\r'
  else if b = Ascii.backslash then some '\\'
  else if b = Ascii.quote then some '"'
  else if b = 0x2F then some '/'
  else if b = 0x62 then some '\x08'
  else if b = Ascii.lowerF then some '\x0c'
  else none

def unit? (digits : Bytes) : Option Nat :=
  digits.foldlM (fun n d => (Ascii.hexDigit? d).map (16 * n + ·)) 0

def isLead (u : Nat) : Bool := 0xD800 ≤ u && u ≤ 0xDBFF

def isTrail (u : Nat) : Bool := 0xDC00 ≤ u && u ≤ 0xDFFF

def pair? (lead trail : Nat) : Option Nat :=
  if isLead lead && isTrail trail then some (0x10000 + (lead - 0xD800) * 0x400 + (trail - 0xDC00))
  else none

def char? (code : Nat) : Option Char :=
  if code.isValidChar then some (Char.ofNat code) else none

inductive CodeUnit where
  | char (c : Char)
  /-- The first half of a pair, whose other half must come next. -/
  | lead (u : Nat)
deriving DecidableEq, Repr

/-- The meaning of a code unit behind the first half of a pair, or behind none. Halves by themselves
have no meaning. -/
def resolve? (lead : Option Nat) (u : Nat) : Option CodeUnit :=
  match lead with
  | some l => ((pair? l u).bind char?).map .char
  | none =>
    if isLead u then some (.lead u)
    else if isTrail u then none
    else (char? u).map .char

/-- The letter of the short escape that a character is written with. The solidus is written as it
is. -/
def letter? (c : Char) : Option Char :=
  if c = '"' then some '"'
  else if c = '\\' then some '\\'
  else if c = '\x08' then some 'b'
  else if c = '\t' then some 't'
  else if c = '\n' then some 'n'
  else if c = '\x0c' then some 'f'
  else if c = '\r' then some 'r'
  else none

def isNeeded (c : Char) : Bool := c.toNat < 0x20 || c == '"' || c == '\\'

def written (c : Char) : String :=
  match letter? c with
  | some l => String.ofList ['\\', l]
  | none =>
    String.ofList ['\\', 'u', '0', '0', (c.toNat / 16).digitChar, (c.toNat % 16).digitChar]

/-- Stretches of characters that are copied, with the escapes between them. The stretch in hand is
held backwards. -/
def stretches (run : List Char) : List Char → List String
  | [] => [String.ofList run.reverse]
  | c :: cs =>
    if isNeeded c then String.ofList run.reverse :: written c :: stretches [] cs
    else stretches (c :: run) cs

def quoted (s : String) : List String := "\"" :: (stretches [] s.toList ++ ["\""])

end ExactJson.Escape
