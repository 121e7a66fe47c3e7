import ExactJson.Text.Escape
import ExactJson.Value.Basic

/-!
Values written as text. The compact layout has no blanks at all; the indented one puts each element
and member on a line of its own. The text is made in pieces, which a sink receives one by one.
-/
namespace ExactJson

/-- A piece of a text. Spaces are only counted, so that the widest indentation is no longer than the
part of it that a sink takes. -/
inductive Piece where
  | text (s : String)
  | blanks (n : Nat)
deriving DecidableEq, Repr

namespace Piece

def toString : Piece → String
  | text s => s
  | blanks n => String.ofList (List.replicate n ' ')

def quoted (s : String) : List Piece := (Escape.quoted s).map text

end Piece

inductive Layout where
  | compact
  /-- With so many spaces for each container around a line. -/
  | indented (width : Nat)
deriving DecidableEq, Repr

namespace Layout

def pretty : Layout := indented 2

def lineBreak (l : Layout) (level : Nat) : List Piece :=
  match l with
  | compact => []
  | indented width => [.text "\n", .blanks (width * level)]

def colon : Layout → Piece
  | compact => .text ":"
  | indented _ => .text ": "

end Layout

namespace Value

mutual
/-- Puts the pieces of a value inside `level` containers in front of others. -/
def emit (l : Layout) (level : Nat) : Value → List Piece → List Piece
  | null, k => .text "null" :: k
  | boolean true, k => .text "true" :: k
  | boolean false, k => .text "false" :: k
  | number n, k => .text n.text :: k
  | string s, k => Piece.quoted s ++ k
  | array [], k => .text "[]" :: k
  | array (v :: vs), k =>
    .text "[" :: (l.lineBreak (level + 1) ++
      v.emit l (level + 1) (emitItems l (level + 1) vs (l.lineBreak level ++ .text "]" :: k)))
  | object [], k => .text "\x7b\x7d" :: k
  | object ((name, v) :: ms), k =>
    .text "\x7b" :: (l.lineBreak (level + 1) ++ (Piece.quoted name ++ l.colon ::
      v.emit l (level + 1)
        (emitMembers l (level + 1) ms (l.lineBreak level ++ .text "\x7d" :: k))))
def emitItems (l : Layout) (level : Nat) : List Value → List Piece → List Piece
  | [], k => k
  | v :: vs, k => .text "," :: (l.lineBreak level ++ v.emit l level (emitItems l level vs k))
def emitMembers (l : Layout) (level : Nat) : List (String × Value) → List Piece → List Piece
  | [], k => k
  | (name, v) :: ms, k =>
    .text "," :: (l.lineBreak level ++ (Piece.quoted name ++ l.colon ::
      v.emit l level (emitMembers l level ms k)))
end

def pieces (l : Layout) (v : Value) : List Piece := v.emit l 0 []

def render (l : Layout) (v : Value) : String := String.join ((v.pieces l).map Piece.toString)

def compact (v : Value) : String := v.render .compact

end Value
end ExactJson
