import ExactJson.Proofs.Layout.Copying
import ExactJson.Proofs.Layout.Spread

/-! The words of a value are texts of tokens, each on one line, and none runs into the next. -/
namespace ExactJson
open Grammar Text

theorem LiteralState.not_mem_of_run? {b : UInt8} {bs : Bytes} {s t : LiteralState}
    (hb : ∀ s, next? s b = none) (h : s.run? bs = some t) : b ∉ bs := by
  induction bs generalizing s with
  | nil => exact List.not_mem_nil
  | cons d bs ih =>
    obtain ⟨u, hnext, hrest⟩ := Option.bind_eq_some_iff.mp h
    intro hmem
    obtain rfl | hmem := List.mem_cons.mp hmem
    · rw [hb] at hnext
      cases hnext
    · exact ih hrest hmem

theorem Grammar.NumberText.lineFeed_not_mem {form : NumberForm} {bs : Bytes}
    (h : NumberText form bs) : Ascii.lineFeed ∉ bs := by
  obtain ⟨t, hrun, -⟩ := LiteralState.run?_of_numberText h
  exact LiteralState.not_mem_of_run? (fun s => by cases s <;> rfl) hrun

def TokenKind.isMark : TokenKind → Bool
  | openBrace | closeBrace | openBracket | closeBracket | colon | comma => true
  | _ => false

def Separated (a b : TokenKind) : Prop := a.isMark = true ∨ b.isMark = true

structure Word.IsToken (w : Word) : Prop where
  text : ∃ c, TokenText c (utf8 w.2) ∧ c.kind = w.1
  inside : w.1 ≠ .endOfInput
  line : Ascii.lineFeed ∉ utf8 w.2

theorem Symbol.isToken_word {a : Symbol} (h : ∀ n, a = .number n → n.Rereads) : a.word.IsToken := by
  cases a with
  | string s =>
    have htext : utf8 (Symbol.string s).text = Escape.literal s := by
      rw [text, utf8_join, Escape.flatMap_utf8_quoted]
    refine ⟨⟨.string s, ?_, rfl⟩, by simp [word, kind], ?_⟩
    · rw [word, htext]
      exact .string (Escape.stringText_literal s)
    · rw [word, htext]
      exact fun hmem => absurd (Escape.space_le_of_mem_literal hmem) (by decide)
  | number n =>
    obtain ⟨form, hn, -⟩ := h n rfl
    exact ⟨⟨.number form, .number hn, rfl⟩, by simp [word, kind], hn.lineFeed_not_mem⟩
  | boolean b =>
    cases b with
    | true => exact ⟨⟨.boolean true, .trueWord, rfl⟩, by decide, by decide⟩
    | false => exact ⟨⟨.boolean false, .falseWord, rfl⟩, by decide, by decide⟩
  | null => exact ⟨⟨.null, .nullWord, rfl⟩, by decide, by decide⟩
  | openBrace => exact ⟨⟨.openBrace, .openBrace, rfl⟩, by decide, by decide⟩
  | closeBrace => exact ⟨⟨.closeBrace, .closeBrace, rfl⟩, by decide, by decide⟩
  | openBracket => exact ⟨⟨.openBracket, .openBracket, rfl⟩, by decide, by decide⟩
  | closeBracket => exact ⟨⟨.closeBracket, .closeBracket, rfl⟩, by decide, by decide⟩
  | colon => exact ⟨⟨.colon, .colon, rfl⟩, by decide, by decide⟩
  | comma => exact ⟨⟨.comma, .comma, rfl⟩, by decide, by decide⟩

namespace DocumentState
variable {limit : Nat} {s t u : DocumentState} {a b : Symbol} {as : List Symbol} {v : Value}

theorem isMark_of_complete {stack : List Frame} (h : Takes limit (complete v stack) b u) :
    b.kind.isMark = true := by
  cases stack with
  | nil => cases h with | scalar hb | openBrace hb | openBracket hb => cases hb
  | cons frame stack =>
    cases frame with
    | array items =>
      cases h with
      | scalar hb | openBrace hb | openBracket hb => cases hb
      | itemComma | closeArray => rfl
    | member members k =>
      cases h with
      | scalar hb | openBrace hb | openBracket hb => cases hb
      | memberComma | closeObject => rfl

/-- Behind a value, and behind a name, the machine takes a mark only. -/
theorem Takes.separated (h : Takes limit s a t) (hb : Takes limit t b u) :
    Separated a.kind b.kind := by
  cases h with
  | scalar => exact .inr (isMark_of_complete hb)
  | firstName | name =>
    cases hb with
    | scalar hb | openBrace hb | openBracket hb => cases hb
    | colon => exact .inr rfl
  | openBrace | openBracket | emptyArray | itemComma | closeArray | emptyObject | colon
  | memberComma | closeObject => exact .inl rfl

theorem Run.separated (h : Run limit s as t) : (as.map Symbol.kind).IsChain Separated := by
  induction h with
  | nil => exact .nil
  | cons h hs ih =>
    cases hs with
    | nil => exact .singleton _
    | cons hb _ => exact .cons_cons (h.separated hb) ih

end DocumentState

namespace Value
variable {v : Value} {vs : List Value} {ms : List (String × Value)} {n : Number}

theorem separated_symbols (v : Value) : (v.symbols.map Symbol.kind).IsChain Separated :=
  (DocumentState.run_symbols v (.value []) (Nat.le_refl v.depth)).separated

theorem number_mem_moreItems (h : .number n ∈ moreItems vs) : ∃ v ∈ vs, .number n ∈ v.symbols := by
  induction vs with
  | nil => simp [moreItems] at h
  | cons v vs ih =>
    simp only [moreItems, List.mem_cons, List.mem_append, reduceCtorEq, false_or] at h
    obtain h | h := h
    · exact ⟨v, List.mem_cons_self, h⟩
    · obtain ⟨u, hu, hn⟩ := ih h
      exact ⟨u, List.mem_cons_of_mem v hu, hn⟩

theorem number_mem_moreMembers (h : .number n ∈ moreMembers ms) :
    ∃ m ∈ ms, .number n ∈ m.2.symbols := by
  induction ms with
  | nil => simp [moreMembers] at h
  | cons m ms ih =>
    obtain ⟨k, v⟩ := m
    simp only [moreMembers, List.mem_cons, List.mem_append, reduceCtorEq, false_or] at h
    obtain h | h := h
    · exact ⟨(k, v), List.mem_cons_self, h⟩
    · obtain ⟨u, hu, hn⟩ := ih h
      exact ⟨u, List.mem_cons_of_mem _ hu, hn⟩

theorem mem_numbers_of_symbols (h : .number n ∈ v.symbols) : n ∈ v.numbers := by
  induction v using Value.induction with
  | null | boolean | string => simp [symbols] at h
  | number m => simpa [symbols, numbers] using h
  | array vs ih =>
    rw [mem_numbers_array]
    cases vs with
    | nil => simp [symbols] at h
    | cons v vs =>
      have hmore : .number n ∈ moreItems (v :: vs) := by
        simpa [symbols, moreItems] using h
      obtain ⟨u, hu, hn⟩ := number_mem_moreItems hmore
      exact ⟨u, hu, ih u hu hn⟩
  | object ms ih =>
    rw [mem_numbers_object]
    cases ms with
    | nil => simp [symbols] at h
    | cons m ms =>
      have hmore : .number n ∈ moreMembers (m :: ms) := by
        simpa [symbols, moreMembers] using h
      obtain ⟨u, hu, hn⟩ := number_mem_moreMembers hmore
      exact ⟨u, hu, ih u hu hn⟩

theorem isToken_word_symbols (h : ∀ n ∈ v.numbers, n.Built) : ∀ a ∈ v.symbols, a.word.IsToken := by
  intro a ha
  refine Symbol.isToken_word fun n hn => ?_
  subst hn
  exact (h n (mem_numbers_of_symbols ha)).rereads

end Value

end ExactJson
