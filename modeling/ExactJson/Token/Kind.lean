/-!
The kinds of tokens, and sets of kinds, which say what a document could have gone on with.
-/
namespace ExactJson

inductive TokenKind where
  | openBrace
  | closeBrace
  | openBracket
  | closeBracket
  | colon
  | comma
  | string
  | number
  | trueWord
  | falseWord
  | nullWord
  | endOfInput
deriving DecidableEq, Repr

namespace TokenKind

/-- All kinds, in the order in which they are listed to people. -/
def all : List TokenKind :=
  [openBrace, closeBrace, openBracket, closeBracket, colon, comma, string, number, trueWord,
    falseWord, nullWord, endOfInput]

def index : TokenKind → Nat
  | openBrace => 0
  | closeBrace => 1
  | openBracket => 2
  | closeBracket => 3
  | colon => 4
  | comma => 5
  | string => 6
  | number => 7
  | trueWord => 8
  | falseWord => 9
  | nullWord => 10
  | endOfInput => 11

def describe : TokenKind → String
  | openBrace => "`\x7b`"
  | closeBrace => "`\x7d`"
  | openBracket => "`[`"
  | closeBracket => "`]`"
  | colon => "`:`"
  | comma => "`,`"
  | string => "string"
  | number => "number"
  | trueWord => "`true`"
  | falseWord => "`false`"
  | nullWord => "`null`"
  | endOfInput => "end of input"

end TokenKind

structure KindSet where
  bits : BitVec 12
deriving DecidableEq

namespace KindSet

def empty : KindSet := ⟨0⟩

def contains (s : KindSet) (k : TokenKind) : Bool := s.bits.getLsbD k.index

def insert (s : KindSet) (k : TokenKind) : KindSet := ⟨s.bits ||| BitVec.twoPow 12 k.index⟩

def ofList (ks : List TokenKind) : KindSet := ks.foldl insert empty

def toList (s : KindSet) : List TokenKind := TokenKind.all.filter s.contains

def isEmpty (s : KindSet) : Bool := s == empty

def value : KindSet :=
  ofList [.openBrace, .openBracket, .string, .number, .trueWord, .falseWord, .nullWord]

def describe (s : KindSet) : String :=
  "expected one of: " ++ ", ".intercalate (s.toList.map TokenKind.describe)

end KindSet
end ExactJson
