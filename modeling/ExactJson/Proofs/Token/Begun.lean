import ExactJson.Proofs.Text.Boundaries
import ExactJson.Proofs.Token.Completeness

/-! Before the place of a fault stand blanks, or blanks and the beginning of a token. The lexer does not
go on once its bytes cannot become a token any more. -/
namespace ExactJson
open Grammar Text

namespace Grammar

inductive Begun : Bytes → Prop where
  | blanks {w : Bytes} (hw : Blanks w) : Begun w
  | token {w x y : Bytes} {b : UInt8} {c : TokenContent} (hw : Blanks w) (hc : c ≠ .endOfInput)
      (h : TokenText c (b :: x ++ y)) : Begun (w ++ b :: x)

theorem begun_of_tokenText {w x y : Bytes} {c : TokenContent} (hw : Blanks w)
    (hc : c ≠ .endOfInput) (h : TokenText c (x ++ y)) : Begun (w ++ x) := by
  cases x with
  | nil => exact .blanks (by rwa [List.append_nil])
  | cons b x => exact .token hw hc h

theorem Blanks.isUtf8 {w : Bytes} (h : Blanks w) : IsUtf8 w :=
  isUtf8_of_ascii fun b hb => ascii_delimiter b (mem_delimiters_of_isBlank (h b hb))

theorem exists_numberText {x : Bytes} {s : LiteralState}
    (h : LiteralState.start.run? x = some s) : ∃ y form, NumberText form (x ++ y) := by
  obtain ⟨y, t, form, hy, hf⟩ : ∃ y t form, s.run? y = some t ∧ t.form? = some form := by
    cases s with
    | zero | whole | fraction | exponent => exact ⟨[], _, _, rfl, rfl⟩
    | start | sign | point | mark | markSign => exact ⟨[Ascii.zero], _, _, rfl, rfl⟩
  refine ⟨y, form, LiteralState.numberText_iff.mpr ⟨t, ?_, hf⟩⟩
  rw [LiteralState.run?_append, h, Option.bind_some, hy]

theorem exists_pair {ds : Bytes} {u : Nat} (hd : Hex4 ds u) (hu : Escape.isLead u = true) :
    ∃ y c, EscapeText (Ascii.backslash :: Ascii.lowerU :: ds ++ y) c := by
  obtain ⟨hle, hge⟩ := Lexer.isLead_iff.mp hu
  have hvalid : (0x10000 + (u - 0xD800) * 0x400 + (0xDC00 - 0xDC00)).isValidChar := by
    refine .inr ?_
    omega
  have htrail : Hex4 (utf8 "dc00") 0xDC00 := Escape.unit?_eq_some_iff.mp rfl
  have hchar := Escape.char?_eq_some_iff.mp (if_pos hvalid)
  exact ⟨_, _, .pair hd htrail ⟨hle, hge⟩ (by omega) hchar⟩

end Grammar

namespace Lexer

theorem OpenString.Holds.exists_stringText {o : OpenString} {ps : List Part} {x : Bytes}
    (h : o.Holds ps x) (hl : Pending o.lead x) (hu : IsUtf8 (ps.flatMap Part.literal)) :
    ∃ y t, StringText (o.literal.reverse ++ y) t := by
  obtain ⟨cs, hcs⟩ := exists_spellings h.legal hu
  obtain ⟨y, ds, hds⟩ : ∃ y ds, Spellings (ps.flatMap Part.literal ++ (x ++ y)) ds := by
    generalize o.lead = lead at hl
    cases hl with
    | none => exact ⟨[], cs, by rwa [List.append_nil, List.append_nil]⟩
    | lead hd hlead =>
      obtain ⟨y, c, hc⟩ := exists_pair hd hlead
      refine ⟨y, cs ++ [c], hcs.append ?_⟩
      rw [← List.append_nil (_ ++ y)]
      exact .cons (.escape hc) .nil
  refine ⟨y ++ [Ascii.quote], String.ofList ds, _, by rwa [String.toList_ofList], ?_⟩
  rw [h.literal]
  simp

variable {p : Position} {s t : State} {c rest : Bytes} {b : UInt8} {o : OpenString}

/-- A string that has been opened has begun a token. Its bytes end where characters do if those of the
document behind it do, and also behind half of a pair. -/
theorem Reached.begun_string (h : Reached p (.string o) c) (hu : IsUtf8 (c ++ rest))
    (hb : o.lead ≠ none ∨ ∀ b ∈ rest.head?, b.IsUTF8FirstByte) : Begun c := by
  cases h with
  | @string w x _ ps hw hp hl h =>
    have hopen : IsUtf8 (w ++ [Ascii.quote]) :=
      hw.isUtf8.append (isUtf8_of_ascii (List.forall_mem_singleton.mpr (by decide)))
    have hraw : IsUtf8 (w ++ [Ascii.quote] ++ ps.flatMap Part.literal) := by
      rw [h.literal] at hu
      refine .of_first (y := x ++ rest) (by simpa using hu) ?_
      cases hl' : o.lead with
      | none =>
        rw [hl'] at hl
        cases hl
        exact hb.resolve_left fun hne => hne hl'
      | some u =>
        rw [hl'] at hl
        cases hl
        rintro _ ⟨⟩
        exact isFirstByte_of_ascii (by decide)
    obtain ⟨y, t, ht⟩ := h.exists_stringText hl (hopen.of_append hraw)
    exact begun_of_tokenText (c := .string t) hw nofun (.string ht)

theorem Reached.begun_keyword {word : Keyword} {left : Bytes} {start : Position}
    (h : Reached p (.keyword word left start) c) : Begun c := by
  cases h with
  | keyword hw hx =>
    refine begun_of_tokenText (c := word.content) hw ?_ (hx ▸ tokenText_keyword word)
    cases word <;> nofun

theorem Reached.begun_number {state : LiteralState} {literal : Bytes} {start : Position}
    (h : Reached p (.number state literal start) c) : Begun c := by
  cases h with
  | number hw hx =>
    obtain ⟨y, form, hn⟩ := exists_numberText hx
    exact begun_of_tokenText (c := .number form) hw nofun (.number hn)

def BegunAt (p : Position) (bs : Bytes) (q : Position) : Prop :=
  ∃ x y, bs = x ++ y ∧ q = p.after x ∧ Begun x

def Slashed (p : Position) (c : Bytes) (slash : Position) : Prop :=
  ∃ o x y, c = x ++ Ascii.backslash :: y ∧ Reached p (.string o) x ∧ slash = p.after x

def State.Slashed (p : Position) (c : Bytes) : State → Prop
  | .escape _ slash | .unicode _ slash _ => Lexer.Slashed p c slash
  | .between | .keyword _ _ _ | .number _ _ _ | .string _ => True

theorem Slashed.snoc {slash : Position} (h : Slashed p c slash) (b : UInt8) :
    Slashed p (c ++ [b]) slash := by
  obtain ⟨o, x, y, rfl, hx, hq⟩ := h
  exact ⟨o, x, y ++ [b], by simp, hx, hq⟩

theorem Slashed.begunAt {slash : Position} (h : Slashed p c slash) (hu : IsUtf8 (c ++ rest)) :
    BegunAt p (c ++ rest) slash := by
  obtain ⟨o, x, y, rfl, hx, rfl⟩ := h
  rw [List.append_assoc] at hu ⊢
  refine ⟨x, _, rfl, rfl, hx.begun_string hu (.inr ?_)⟩
  rintro _ ⟨⟩
  exact isFirstByte_of_ascii (by decide)

theorem State.Slashed.step (hs : s.Slashed p c) (h : Reached p s c)
    (hstep : s.step (p.after c) b = .take t) : t.Slashed p (c ++ [b]) := by
  cases s with
  | between =>
    simp only [State.step, Lexer.begin] at hstep
    repeat' split at hstep
    all_goals cases hstep <;> trivial
  | keyword word left start =>
    cases left with
    | nil => cases hstep
    | cons d left =>
      simp only [State.step] at hstep
      split at hstep <;> cases hstep
      trivial
  | number state literal start =>
    simp only [State.step] at hstep
    split at hstep <;> cases hstep
    trivial
  | string o =>
    simp only [State.step, stringByte] at hstep
    repeat' split at hstep
    all_goals cases hstep
    · rename_i hb
      subst hb
      exact ⟨o, c, [], rfl, h, rfl⟩
    · trivial
  | escape o slash =>
    simp only [State.step, escapeByte] at hstep
    repeat' split at hstep
    all_goals cases hstep
    · exact Slashed.snoc hs b
    · trivial
  | unicode o slash digits =>
    simp only [State.step, codeUnit] at hstep
    repeat' split at hstep
    all_goals cases hstep
    · exact Slashed.snoc hs b
    · trivial
    · trivial

section Places
variable {e : LexicalError} {start slash q : Position} {next : Option UInt8}

theorem position_of_endKeyword {word : Keyword} (h : endKeyword word start q next = .error e) :
    e.position = q := by
  simp only [endKeyword] at h
  split at h <;> cases h
  rfl

theorem position_of_endNumber {state : LiteralState} {literal : Bytes}
    (h : endNumber state literal start q next = .error e) : e.position = q := by
  simp only [endNumber] at h
  repeat' split at h
  all_goals cases h <;> rfl

theorem position_of_close (h : o.close q = .error e) : e.position = o.start := by
  simp only [OpenString.close] at h
  split at h <;> cases h
  rfl

theorem position_of_escapeByte (h : escapeByte o slash b = .takeLast (.error e)) :
    e.position = slash := by
  simp only [escapeByte] at h
  repeat' split at h
  all_goals cases h <;> rfl

theorem position_of_codeUnit {ds : Bytes} (h : codeUnit o slash ds = .takeLast (.error e)) :
    e.position = slash := by
  simp only [codeUnit] at h
  repeat' split at h
  all_goals cases h <;> rfl

end Places

variable {e : LexicalError}

theorem Reached.begunAt_start (h : Reached p (.string o) c) :
    BegunAt p (c ++ rest) o.start := by
  cases h with
  | string hw hp => exact ⟨_, _, List.append_assoc _ _ _, hp, .blanks hw⟩

/-- A fault in a string is at the byte that is read, at the backslash before it, or, where the string
cannot be closed, at its quote. -/
theorem Reached.fault_string (h : Reached p (.string o) c) (hu : IsUtf8 (c ++ b :: rest))
    (hstep : Lexer.stringByte o (p.after c) b = .takeLast (.error e)) :
    BegunAt p (c ++ b :: rest) e.position := by
  have hlone (u : Nat) (hl : o.lead = some u) : BegunAt p (c ++ b :: rest) (p.after c) :=
    ⟨c, _, rfl, rfl, h.begun_string hu (.inl (hl ▸ Option.some_ne_none u))⟩
  simp only [Lexer.stringByte] at hstep
  split at hstep
  · split at hstep
    · rename_i u hl
      cases hstep
      exact hlone u hl
    · rw [position_of_close (Step.takeLast.inj hstep)]
      exact h.begunAt_start
  · split at hstep
    · cases hstep
    · split at hstep
      · rename_i hc
        cases hstep
        refine ⟨c, _, rfl, rfl, h.begun_string hu (.inr ?_)⟩
        rintro _ ⟨⟩
        exact isFirstByte_of_ascii (UInt8.lt_trans (of_decide_eq_true hc) (by decide))
      · split at hstep
        · rename_i u hl
          cases hstep
          exact hlone u hl
        · cases hstep

theorem Reached.fault_takeLast (h : Reached p s c) (hs : s.Slashed p c)
    (hu : IsUtf8 (c ++ b :: rest)) (hstep : s.step (p.after c) b = .takeLast (.error e)) :
    BegunAt p (c ++ b :: rest) e.position := by
  cases s with
  | between =>
    simp only [State.step, Lexer.begin] at hstep
    repeat' split at hstep
    all_goals cases hstep
  | keyword word left start =>
    cases left with
    | nil => cases hstep
    | cons d left =>
      simp only [State.step] at hstep
      split at hstep <;> cases hstep
      exact ⟨c, _, rfl, rfl, h.begun_keyword⟩
  | number state literal start =>
    simp only [State.step] at hstep
    split at hstep <;> cases hstep
  | string o => exact h.fault_string hu hstep
  | escape o slash =>
    rw [position_of_escapeByte hstep]
    exact Slashed.begunAt hs hu
  | unicode o slash digits =>
    simp only [State.step] at hstep
    split at hstep
    · cases hstep
    · rw [position_of_codeUnit hstep]
      exact Slashed.begunAt hs hu

theorem Reached.fault_leave (h : Reached p s c)
    (hstep : s.step (p.after c) b = .leave (.error e)) :
    BegunAt p (c ++ b :: rest) e.position := by
  cases s with
  | between =>
    cases h with
    | between hw =>
      simp only [State.step, Lexer.begin] at hstep
      repeat' split at hstep
      all_goals cases hstep
      exact ⟨c, _, rfl, rfl, .blanks hw⟩
  | keyword word left start =>
    cases left with
    | nil => exact ⟨c, _, rfl, position_of_endKeyword (Step.leave.inj hstep), h.begun_keyword⟩
    | cons d left =>
      simp only [State.step] at hstep
      split at hstep <;> cases hstep
  | number state literal start =>
    simp only [State.step] at hstep
    split at hstep
    · cases hstep
    · exact ⟨c, _, rfl, position_of_endNumber (Step.leave.inj hstep), h.begun_number⟩
  | string o => exact absurd hstep (string_step_ne_leave o _ b _)
  | escape o slash => exact absurd hstep (escape_step_ne_leave o slash _ b _)
  | unicode o slash digits => exact absurd hstep (unicode_step_ne_leave o slash digits _ b _)

theorem Reached.fault_finish (h : Reached p s c) (hstep : s.finish (p.after c) = .error e)
    (he : e.fault ≠ .unterminatedString) : BegunAt p c e.position := by
  cases s with
  | between => cases hstep
  | keyword word left start =>
    refine ⟨c, [], (List.append_nil c).symm, ?_, h.begun_keyword⟩
    cases left with
    | nil => exact @position_of_endKeyword e start _ none word hstep
    | cons d left =>
      cases hstep
      rfl
  | number state literal start =>
    refine ⟨c, [], (List.append_nil c).symm, ?_, h.begun_number⟩
    exact @position_of_endNumber e start _ none state literal hstep
  | string o | escape o slash | unicode o slash digits =>
    cases hstep
    exact absurd rfl he

/-- A fault that the machine finds in characters is behind the beginning of a token, unless it is that a
string has no end. -/
theorem Reached.fault_run (h : Reached p s c) (hs : s.Slashed p c) {bs left : Bytes} {q : Position}
    (hu : IsUtf8 (c ++ bs)) (hr : s.run (p.after c) bs = (.error e, q, left))
    (he : e.fault ≠ .unterminatedString) : BegunAt p (c ++ bs) e.position := by
  induction bs generalizing s c with
  | nil =>
    simp only [State.run, Prod.mk.injEq] at hr
    rw [List.append_nil]
    exact h.fault_finish hr.1 he
  | cons b bs ih =>
    simp only [State.run] at hr
    split at hr
    · rename_i next hstep
      rw [← Position.after_snoc] at hr
      have hi := ih (h.step hstep) (hs.step h hstep)
      rw [List.append_assoc, List.singleton_append] at hi
      exact hi hu hr
    · rename_i outcome hstep
      cases hr
      exact h.fault_takeLast hs hu hstep
    · rename_i outcome hstep
      cases hr
      exact h.fault_leave hstep

end Lexer
end ExactJson
