import ExactJson.Text.Ascii
import ExactJson.Text.Position

/-! Places as they are counted over the bytes before them. -/
namespace ExactJson.Position

def lastLine (c : Bytes) : Bytes := (c.reverse.takeWhile (· != Ascii.lineFeed)).reverse

/-- The place behind some bytes. Each line feed begins a line, and each byte of the last line that does
not go on with a character takes a column. -/
def behind (c : Bytes) : Position where
  line := 1 + c.count Ascii.lineFeed
  column := 1 + (lastLine c).countP fun b => !continuesChar b
  offset := c.length

theorem lastLine_snoc (c : Bytes) (b : UInt8) :
    lastLine (c ++ [b]) = if b = Ascii.lineFeed then [] else lastLine c ++ [b] := by
  by_cases h : b = Ascii.lineFeed <;> simp [lastLine, h]

@[simp] theorem behind_snoc (c : Bytes) (b : UInt8) : behind (c ++ [b]) = (behind c).next b := by
  rw [next, show (0x0A : UInt8) = Ascii.lineFeed from rfl]
  by_cases h : b = Ascii.lineFeed
  · simp [behind, lastLine_snoc, h, Nat.add_assoc]
  · by_cases hb : continuesChar b = true <;>
      simp [behind, lastLine_snoc, h, hb, Nat.add_assoc]

@[simp] theorem after_behind (c x : Bytes) : (behind c).after x = behind (c ++ x) := by
  induction x generalizing c with
  | nil => rw [List.append_nil]; rfl
  | cons b x ih =>
    have hb := ih (c ++ [b])
    rw [behind_snoc, List.append_assoc] at hb
    exact hb

/-- Two bytes of one character take one column. -/
example : behind (Text.utf8 "a\né,") = ⟨2, 3, 5⟩ := by decide

/-- The place in a document of a place in the part of it that begins at `p`. Only in the first line of
this part columns are shifted. -/
def shift (p q : Position) : Position where
  line := p.line + (q.line - 1)
  column := if q.line = 1 then p.column + (q.column - 1) else q.column
  offset := p.offset + q.offset

theorem shift_next (p : Position) (c : Bytes) (b : UInt8) :
    p.shift ((behind c).next b) = (p.shift (behind c)).next b := by
  simp only [next, shift, behind]
  split
  · simp [Nat.add_assoc]
  · split
    · simp [Nat.add_assoc]
    · simp only [mk.injEq, Nat.add_assoc, Nat.add_sub_cancel_left, and_true, true_and]
      split <;> omega

/-- Counted from the beginning of a part and shifted, or counted on from there, a place is the same. -/
theorem shift_behind (p : Position) (x : Bytes) : p.shift (behind x) = p.after x := by
  have hafter (c : Bytes) : (p.shift (behind c)).after x = p.shift (behind (c ++ x)) := by
    induction x generalizing c with
    | nil => rw [List.append_nil]; rfl
    | cons b x ih =>
      have hb := ih (c ++ [b])
      rw [behind_snoc, shift_next, List.append_assoc] at hb
      exact hb
  have hstart : p.shift (behind []) = p := by
    simp [shift, behind, lastLine]
  rw [← List.nil_append x, ← hafter, hstart]
  rfl

end ExactJson.Position
