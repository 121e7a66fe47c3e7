import ExactJson.Proofs.Token.Places

/-! Tokens of a part of a document. The lexer looks at no byte in front of where it begins, so that over
a part it gives the tokens and the faults of the whole, at places that are shifted. -/
namespace ExactJson

def Span.relocate (f : Position → Position) (s : Span) : Span := ⟨f s.start, f s.finish⟩

def Token.relocate (f : Position → Position) (t : Token) : Token :=
  { t with span := t.span.relocate f }

def LexicalError.relocate (f : Position → Position) (e : LexicalError) : LexicalError :=
  { e with position := f e.position }

def ReadError.relocate (f : Position → Position) : ReadError → ReadError
  | lexical e => lexical (e.relocate f)
  | unexpected found expected => unexpected (found.relocate f) expected
  | tooDeep limit p => tooDeep limit (f p)
  | input e => input e

namespace Lexer

def relocated (f : Position → Position) : Outcome → Outcome
  | .ok t => .ok (t.relocate f)
  | .error e => .error (e.relocate f)

def OpenString.relocate (f : Position → Position) (s : OpenString) : OpenString :=
  { s with start := f s.start }

def State.relocate (f : Position → Position) : State → State
  | between => between
  | keyword word rest start => keyword word rest (f start)
  | number state literal start => number state literal (f start)
  | string s => string (s.relocate f)
  | escape s slash => escape (s.relocate f) (f slash)
  | unicode s slash digits => unicode (s.relocate f) (f slash) digits

def Step.relocate (f : Position → Position) : Step → Step
  | take next => take (next.relocate f)
  | takeLast outcome => takeLast (relocated f outcome)
  | leave outcome => leave (relocated f outcome)

variable (f : Position → Position) {p : Position} {b : UInt8}

theorem begin_relocate (hf : f (p.next b) = (f p).next b) :
    begin (f p) b = (begin p b).relocate f := by
  simp only [begin]
  split
  · rfl
  · split
    · rw [← hf]
      rfl
    · split
      · rfl
      · split
        · rfl
        · split <;> rfl

theorem endKeyword_relocate (word : Keyword) (start p : Position) (next : Option UInt8) :
    endKeyword word (f start) (f p) next = relocated f (endKeyword word start p next) := by
  simp only [endKeyword]
  split <;> rfl

theorem endNumber_relocate (state : LiteralState) (literal : Bytes) (start p : Position)
    (next : Option UInt8) :
    endNumber state literal (f start) (f p) next =
      relocated f (endNumber state literal start p next) := by
  simp only [endNumber]
  split
  · split <;> rfl
  · rfl

theorem close_relocate (s : OpenString) (p : Position) :
    (s.relocate f).close (f p) = relocated f (s.close p) := by
  simp only [OpenString.close, OpenString.relocate]
  split <;> rfl

theorem stringByte_relocate (s : OpenString) (hf : f (p.next b) = (f p).next b) :
    stringByte (s.relocate f) (f p) b = (stringByte s p b).relocate f := by
  obtain ⟨start, literal, text, lead⟩ := s
  simp only [stringByte, OpenString.relocate, ← hf]
  split
  · cases lead with
    | some l => rfl
    | none => exact congrArg Step.takeLast (close_relocate f (.write ⟨start, literal, text, none⟩ b) (p.next b))
  · split
    · rfl
    · split
      · rfl
      · cases lead <;> rfl

theorem escapeByte_relocate (s : OpenString) (slash : Position) (b : UInt8) :
    escapeByte (s.relocate f) (f slash) b = (escapeByte s slash b).relocate f := by
  obtain ⟨start, literal, text, lead⟩ := s
  simp only [escapeByte, OpenString.relocate]
  split
  · rfl
  · cases lead with
    | some l => rfl
    | none =>
      simp only
      split <;> rfl

theorem codeUnit_relocate (s : OpenString) (slash : Position) (digits : Bytes) :
    codeUnit (s.relocate f) (f slash) digits = (codeUnit s slash digits).relocate f := by
  obtain ⟨start, literal, text, lead⟩ := s
  simp only [codeUnit, OpenString.relocate]
  split
  · rfl
  · split <;> rfl

/-- The machine does the same with a byte wherever this is, if its place and the next are moved alike. -/
theorem State.step_relocate (state : State) (hf : f (p.next b) = (f p).next b) :
    (state.relocate f).step (f p) b = (state.step p b).relocate f := by
  cases state with
  | between => exact begin_relocate f hf
  | keyword word rest start =>
    cases rest with
    | nil => exact congrArg Step.leave (endKeyword_relocate f word start p (some b))
    | cons c rest =>
      simp only [step, relocate]
      split <;> rfl
  | number state literal start =>
    simp only [step, relocate]
    split
    · rfl
    · exact congrArg Step.leave (endNumber_relocate f state literal start p (some b))
  | string s => exact stringByte_relocate f s hf
  | escape s slash => exact escapeByte_relocate f s slash b
  | unicode s slash digits =>
    simp only [step, relocate]
    split
    · rfl
    · exact codeUnit_relocate f (s.write b) slash _

theorem State.finish_relocate (state : State) (p : Position) :
    (state.relocate f).finish (f p) = relocated f (state.finish p) := by
  cases state with
  | between | string | escape | unicode => rfl
  | keyword word rest start =>
    cases rest with
    | nil => exact endKeyword_relocate f word start p none
    | cons c rest => rfl
  | number state literal start => exact endNumber_relocate f state literal start p none

/-- Over a part of a document the machine runs as over the whole. -/
theorem State.run_shift (p : Position) (state : State) (x bs : Bytes) :
    (state.relocate p.shift).run (p.shift (.behind x)) bs =
      (relocated p.shift (state.run (.behind x) bs).1, p.shift (state.run (.behind x) bs).2.1,
        (state.run (.behind x) bs).2.2) := by
  induction bs generalizing state x with
  | nil =>
    rw [run, finish_relocate]
    rfl
  | cons b bs ih =>
    rw [run, run, step_relocate p.shift state (p.shift_next x b)]
    cases state.step (.behind x) b with
    | take next =>
      have hnext := ih next (x ++ [b])
      rw [Position.behind_snoc, Position.shift_next] at hnext
      exact hnext
    | takeLast outcome =>
      simp only [Step.relocate, p.shift_next x b]
    | leave outcome => rfl

end Lexer

namespace TokenStream

inductive Shifted (p : Position) : TokenStream Slice → TokenStream Slice → Prop where
  | mk (data data' x rest : Bytes) (finished : Bool) :
      Shifted p (behind data x rest finished) ⟨⟨data', rest⟩, p.shift (.behind x), finished⟩

theorem shifted_behind (data c rest : Bytes) :
    Shifted (.behind c) (ofSource (Slice.ofBytes rest)) (behind data c rest false) := by
  have h := Shifted.mk (p := .behind c) rest data [] rest false
  rw [Position.shift_behind] at h
  exact h

variable {p : Position} {t u : TokenStream Slice}

theorem Shifted.read (h : Shifted p t u) :
    u.read.1 = (t.read.1.mapError (ReadError.relocate p.shift)).map (Token.relocate p.shift) ∧
      Shifted p t.read.2 u.read.2 := by
  obtain ⟨data, data', x, rest, finished⟩ := h
  have hrun : Lexer.State.between.run (p.shift (.behind x)) rest = _ :=
    Lexer.State.run_shift p .between x rest
  obtain ⟨y, -, hplace⟩ := Lexer.State.run_eq .between (.behind x) rest
  rw [Position.after_behind] at hplace
  rw [TokenStream.read, TokenStream.read, behind, feed_slice, feed_slice, hrun, hplace]
  refine ⟨?_, .mk data data' (x ++ y) _ finished⟩
  dsimp only
  cases (Lexer.State.between.run (.behind x) rest).1 <;> rfl

end TokenStream
end ExactJson
