import ExactJson.Text.Utf8

/-!
Places in a document. Lines and columns are counted from one for people, offsets from zero in bytes.
-/
namespace ExactJson

structure Position where
  line : Nat
  column : Nat
  offset : Nat
deriving DecidableEq, Repr

namespace Position

def start : Position := ⟨1, 1, 0⟩

def continuesChar (b : UInt8) : Bool := 0x80 ≤ b && b < 0xC0

def next (p : Position) (b : UInt8) : Position :=
  if b = 0x0A then ⟨p.line + 1, 1, p.offset + 1⟩
  else if continuesChar b then ⟨p.line, p.column, p.offset + 1⟩
  else ⟨p.line, p.column + 1, p.offset + 1⟩

def after (p : Position) (bs : Bytes) : Position := bs.foldl next p

def describe (p : Position) : String := s!"line {p.line}, column {p.column}"

end Position

/-- The stretch of a token: `finish` is the place after its last byte. -/
structure Span where
  start : Position
  finish : Position
deriving DecidableEq, Repr

end ExactJson
