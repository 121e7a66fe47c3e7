import ExactJson.Proofs.Number.Grammar
import ExactJson.Proofs.Text.StringGrammar
import ExactJson.Token.Lexer

/-! The bytes of tokens, and those that can stand between and behind them. -/
namespace ExactJson
open Text

namespace Grammar

def Blanks (w : Bytes) : Prop := ∀ b ∈ w, Ascii.isBlank b = true

inductive TokenText : TokenContent → Bytes → Prop where
  | openBrace : TokenText .openBrace [Ascii.openBrace]
  | closeBrace : TokenText .closeBrace [Ascii.closeBrace]
  | openBracket : TokenText .openBracket [Ascii.openBracket]
  | closeBracket : TokenText .closeBracket [Ascii.closeBracket]
  | colon : TokenText .colon [Ascii.colon]
  | comma : TokenText .comma [Ascii.comma]
  | string {s : String} {x : Bytes} (h : StringText x s) : TokenText (.string s) x
  | number {form : NumberForm} {x : Bytes} (h : NumberText form x) : TokenText (.number form) x
  | trueWord : TokenText (.boolean true) (utf8 "true")
  | falseWord : TokenText (.boolean false) (utf8 "false")
  | nullWord : TokenText .null (utf8 "null")
  | endOfInput : TokenText .endOfInput []

theorem StringText.exists_utf8 {x : Bytes} {s : String} (h : StringText x s) :
    ∃ t, utf8 t = x := by
  obtain ⟨y, hy, rfl⟩ := h
  obtain ⟨t, rfl⟩ := hy.exists_utf8
  exact ⟨"\"" ++ (t ++ "\""), by rw [utf8_append, utf8_append]; rfl⟩

theorem TokenText.exists_utf8 {c : TokenContent} {x : Bytes} (h : TokenText c x) :
    ∃ t, utf8 t = x := by
  cases h with
  | string h => exact h.exists_utf8
  | number h => exact ⟨_, h.utf8_ofAscii⟩
  | trueWord | falseWord | nullWord => exact ⟨_, rfl⟩
  | endOfInput => exact ⟨"", rfl⟩
  | openBrace | closeBrace | openBracket | closeBracket | colon | comma =>
    exact ⟨_, utf8_ofAscii (forall_mem_bytes (by decide))⟩

def delimiters : Bytes :=
  [Ascii.openBrace, Ascii.closeBrace, Ascii.openBracket, Ascii.closeBracket, Ascii.colon,
    Ascii.comma, Ascii.space, Ascii.tab, Ascii.lineFeed, Ascii.carriageReturn]

def Delimited (rest : Bytes) : Prop := ∀ b ∈ rest.head?, b ∈ delimiters

theorem mem_delimiters_of_isBlank {b : UInt8} (h : Ascii.isBlank b = true) : b ∈ delimiters := by
  simp only [Ascii.isBlank, Bool.or_eq_true, beq_iff_eq] at h
  obtain ((rfl | rfl) | rfl) | rfl := h <;> decide

theorem mem_delimiters_of_mark? {b : UInt8} {c : TokenContent} (h : Lexer.mark? b = some c) :
    b ∈ delimiters := by
  simp only [Lexer.mark?] at h
  repeat' split at h
  all_goals cases h
  all_goals
    subst b
    decide

theorem ascii_delimiter : ∀ b ∈ delimiters, b < 0x80 := forall_mem_bytes (by decide)

theorem Delimited.nil : Delimited [] := fun _ hb => nomatch hb

theorem Delimited.cons (b : UInt8) (h : b ∈ delimiters) (rest : Bytes) :
    Delimited (b :: rest) := by
  rintro _ ⟨⟩
  exact h

theorem Delimited.blanks {w rest : Bytes} (hw : Blanks w) (h : Delimited rest) :
    Delimited (w ++ rest) := by
  cases w with
  | nil => exact h
  | cons b w => exact .cons b (mem_delimiters_of_isBlank (hw b List.mem_cons_self)) _

theorem next?_delimiter {s : LiteralState} {form : NumberForm} (h : s.form? = some form)
    {b : UInt8} (hb : b ∈ delimiters) : s.next? b = none := by
  have hall : ∀ d ∈ delimiters, LiteralState.zero.next? d = none ∧ LiteralState.whole.next? d = none ∧
      LiteralState.fraction.next? d = none ∧ LiteralState.exponent.next? d = none :=
    forall_mem_bytes (by decide)
  obtain ⟨hz, hw, hf, he⟩ := hall b hb
  cases s with
  | zero => exact hz
  | whole => exact hw
  | fraction => exact hf
  | exponent => exact he
  | start | sign | point | mark | markSign => cases h

theorem isDigit_delimiter : ∀ b ∈ delimiters, Ascii.isDigit b = false :=
  forall_mem_bytes (by decide)

theorem isWordByte_delimiter : ∀ b ∈ delimiters, Ascii.isWordByte b = false :=
  forall_mem_bytes (by decide)

def Ends : TokenContent → Bytes → Prop
  | .number _, rest | .boolean _, rest | .null, rest => Delimited rest
  | .endOfInput, rest => rest = []
  | _, _ => True

theorem Ends.of_delimited {c : TokenContent} (hc : c ≠ .endOfInput) {rest : Bytes}
    (h : Delimited rest) : Ends c rest := by
  cases c with
  | number | boolean | null => exact h
  | endOfInput => exact absurd rfl hc
  | string | openBrace | closeBrace | openBracket | closeBracket | colon | comma => trivial

end Grammar

open Grammar

structure Token.Stands (t : Token) (p : Position) (w x : Bytes) : Prop where
  blanks : Blanks w
  text : TokenText t.content x
  lexeme : utf8 t.lexeme = x
  span : t.span = ⟨p.after w, p.after (w ++ x)⟩

theorem Token.exists_stands {c : TokenContent} {x : Bytes} (h : TokenText c x) {w : Bytes}
    (hw : Blanks w) (p : Position) : ∃ t : Token, t.content = c ∧ t.Stands p w x := by
  obtain ⟨s, hs⟩ := h.exists_utf8
  exact ⟨⟨c, s, ⟨p.after w, p.after (w ++ x)⟩⟩, rfl, hw, h, hs, rfl⟩

end ExactJson
