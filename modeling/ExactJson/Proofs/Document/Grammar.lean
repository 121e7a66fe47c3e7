import ExactJson.Proofs.Document.Symbols
import ExactJson.Proofs.Token.Grammar

/-! The grammar of documents over their bytes, with the tree that each derivation denotes. Names may
repeat in the tree of an object. -/
namespace ExactJson.Grammar
open Text

mutual
inductive ValueText (policy : FractionPolicy) : Bytes → Value → Prop where
  | null : ValueText policy (utf8 "null") .null
  | trueWord : ValueText policy (utf8 "true") (.boolean true)
  | falseWord : ValueText policy (utf8 "false") (.boolean false)
  | number {form : NumberForm} {x : Bytes} (h : NumberText form x) :
      ValueText policy x (.number (.ofLiteral policy form (ofAscii x)))
  | string {x : Bytes} {s : String} (h : StringText x s) : ValueText policy x (.string s)
  | emptyArray {w : Bytes} (hw : Blanks w) :
      ValueText policy (Ascii.openBracket :: (w ++ [Ascii.closeBracket])) (.array [])
  | array {x : Bytes} {vs : List Value} (h : ItemsText policy x vs) :
      ValueText policy (Ascii.openBracket :: (x ++ [Ascii.closeBracket])) (.array vs)
  | emptyObject {w : Bytes} (hw : Blanks w) :
      ValueText policy (Ascii.openBrace :: (w ++ [Ascii.closeBrace])) (.object [])
  | object {x : Bytes} {ms : List (String × Value)} (h : MembersText policy x ms) :
      ValueText policy (Ascii.openBrace :: (x ++ [Ascii.closeBrace])) (.object ms)
/-- A value between blanks. A whole document is one. -/
inductive ItemText (policy : FractionPolicy) : Bytes → Value → Prop where
  | mk {w x w' : Bytes} {v : Value} (hw : Blanks w) (h : ValueText policy x v) (hw' : Blanks w') :
      ItemText policy (w ++ x ++ w') v
inductive ItemsText (policy : FractionPolicy) : Bytes → List Value → Prop where
  | one {x : Bytes} {v : Value} (h : ItemText policy x v) : ItemsText policy x [v]
  | cons {x y : Bytes} {v : Value} {vs : List Value} (h : ItemText policy x v)
      (hs : ItemsText policy y vs) : ItemsText policy (x ++ Ascii.comma :: y) (v :: vs)
inductive MemberText (policy : FractionPolicy) : Bytes → String × Value → Prop where
  | mk {w n w' x : Bytes} {k : String} {v : Value} (hw : Blanks w) (hn : StringText n k)
      (hw' : Blanks w') (h : ItemText policy x v) :
      MemberText policy (w ++ n ++ w' ++ Ascii.colon :: x) (k, v)
inductive MembersText (policy : FractionPolicy) : Bytes → List (String × Value) → Prop where
  | one {x : Bytes} {m : String × Value} (h : MemberText policy x m) : MembersText policy x [m]
  | cons {x y : Bytes} {m : String × Value} {ms : List (String × Value)}
      (h : MemberText policy x m) (hs : MembersText policy y ms) :
      MembersText policy (x ++ Ascii.comma :: y) (m :: ms)
end

variable {policy : FractionPolicy}

mutual
theorem ValueText.depth_le : ∀ {x v}, ValueText policy x v → v.depth ≤ x.length
  | _, _, .null | _, _, .trueWord | _, _, .falseWord | _, _, .number _ | _, _, .string _ =>
    Nat.zero_le _
  | _, _, .emptyArray _ | _, _, .emptyObject _ => Nat.succ_le_succ (Nat.zero_le _)
  | _, _, .array h => by
    have hx := h.depth_le
    simp only [Value.depth, List.length_cons, List.length_append]
    omega
  | _, _, .object h => by
    have hx := h.depth_le
    simp only [Value.depth, List.length_cons, List.length_append]
    omega
theorem ItemText.depth_le : ∀ {x v}, ItemText policy x v → v.depth ≤ x.length
  | _, _, .mk _ h _ => by
    have hx := h.depth_le
    simp only [List.length_append]
    omega
theorem ItemsText.depth_le : ∀ {x vs}, ItemsText policy x vs → Value.depthItems vs ≤ x.length
  | _, _, .one h => Nat.max_le.mpr ⟨h.depth_le, Nat.zero_le _⟩
  | _, _, .cons h hs => by
    have hx := h.depth_le
    have hy := hs.depth_le
    simp only [Value.depthItems, List.length_append, List.length_cons]
    omega
theorem MemberText.depth_le : ∀ {x m}, MemberText policy x m → m.2.depth ≤ x.length
  | _, _, .mk _ _ _ h => by
    have hx := h.depth_le
    simp only [List.length_append, List.length_cons]
    omega
theorem MembersText.depth_le :
    ∀ {x ms}, MembersText policy x ms → Value.depthMembers ms ≤ x.length
  | _, _, .one h => Nat.max_le.mpr ⟨h.depth_le, Nat.zero_le _⟩
  | _, (k, v) :: ms, .cons (x := x) h hs => by
    have hx : v.depth ≤ x.length := h.depth_le
    have hy := hs.depth_le
    simp only [Value.depthMembers, List.length_append, List.length_cons]
    omega
end

inductive SymbolText (policy : FractionPolicy) : Symbol → Bytes → Prop where
  | openBrace : SymbolText policy .openBrace [Ascii.openBrace]
  | closeBrace : SymbolText policy .closeBrace [Ascii.closeBrace]
  | openBracket : SymbolText policy .openBracket [Ascii.openBracket]
  | closeBracket : SymbolText policy .closeBracket [Ascii.closeBracket]
  | colon : SymbolText policy .colon [Ascii.colon]
  | comma : SymbolText policy .comma [Ascii.comma]
  | string {x : Bytes} {s : String} (h : StringText x s) : SymbolText policy (.string s) x
  | number {form : NumberForm} {x : Bytes} (h : NumberText form x) :
      SymbolText policy (.number (.ofLiteral policy form (ofAscii x))) x
  | trueWord : SymbolText policy (.boolean true) (utf8 "true")
  | falseWord : SymbolText policy (.boolean false) (utf8 "false")
  | null : SymbolText policy .null (utf8 "null")

variable {a : Symbol} {x : Bytes}

theorem symbolText_of_stands {t : Token} {p : Position} {w : Bytes} (h : t.Stands p w x)
    (ha : t.symbol? policy = some a) : SymbolText policy a x := by
  obtain ⟨c, lexeme, span⟩ := t
  obtain ⟨-, ht, hl, -⟩ := h
  cases ht with
  | string h =>
    cases ha
    exact .string h
  | number h =>
    obtain rfl : lexeme = ofAscii x := utf8_injective (hl.trans h.utf8_ofAscii.symm)
    cases ha
    exact .number h
  | endOfInput => cases ha
  | trueWord | falseWord | nullWord | openBrace | closeBrace | openBracket | closeBracket | colon
  | comma =>
    cases ha
    constructor

theorem SymbolText.exists_stands (h : SymbolText policy a x) {w : Bytes} (hw : Blanks w)
    (p : Position) : ∃ t : Token, t.symbol? policy = some a ∧ t.Stands p w x ∧
      t.content ≠ .endOfInput := by
  have of_tokenText {c : TokenContent} (hc : TokenText c x) (hne : c ≠ .endOfInput)
      (ha : ∀ t : Token, t.content = c → utf8 t.lexeme = x → t.symbol? policy = some a) :
      ∃ t : Token, t.symbol? policy = some a ∧ t.Stands p w x ∧ t.content ≠ .endOfInput := by
    obtain ⟨t, ht, hs⟩ := Token.exists_stands hc hw p
    exact ⟨t, ha t ht hs.lexeme, hs, ht ▸ hne⟩
  cases h with
  | string h => exact of_tokenText (.string h) (by simp) fun t ht _ => by rw [Token.symbol?, ht]
  | number h =>
    refine of_tokenText (.number h) (by simp) fun t ht hl => ?_
    rw [Token.symbol?, ht, utf8_injective (hl.trans h.utf8_ofAscii.symm)]
  | openBrace => exact of_tokenText .openBrace (by simp) fun t ht _ => by rw [Token.symbol?, ht]
  | closeBrace => exact of_tokenText .closeBrace (by simp) fun t ht _ => by rw [Token.symbol?, ht]
  | openBracket => exact of_tokenText .openBracket (by simp) fun t ht _ => by rw [Token.symbol?, ht]
  | closeBracket => exact of_tokenText .closeBracket (by simp) fun t ht _ => by rw [Token.symbol?, ht]
  | colon => exact of_tokenText .colon (by simp) fun t ht _ => by rw [Token.symbol?, ht]
  | comma => exact of_tokenText .comma (by simp) fun t ht _ => by rw [Token.symbol?, ht]
  | trueWord => exact of_tokenText .trueWord (by simp) fun t ht _ => by rw [Token.symbol?, ht]
  | falseWord => exact of_tokenText .falseWord (by simp) fun t ht _ => by rw [Token.symbol?, ht]
  | null => exact of_tokenText .nullWord (by simp) fun t ht _ => by rw [Token.symbol?, ht]

end ExactJson.Grammar
