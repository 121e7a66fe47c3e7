import ExactJson.Proofs.Token.Begun
import ExactJson.Proofs.Token.Places

/-! Strings up to their closing quote. What they hold is well-formed UTF-8 just if their literal is,
so that they are refused for their literal, or not at all. -/
namespace ExactJson
open Grammar Text

namespace Lexer

def opened (p : Position) : State := .string ⟨p, [Ascii.quote], [], none⟩

/-- Behind an opening quote at the place `p` the machine takes the bytes `x`, and is then in the
string `o`, which the next quote closes. -/
structure Closing (p : Position) (x : Bytes) (o : OpenString) : Prop where
  through : (opened p).through? (p.next Ascii.quote) x = some (.string o)
  lead : o.lead = none

def literal (x : Bytes) : Bytes := Ascii.quote :: (x ++ [Ascii.quote])

variable {p : Position} {s t : State} {x y c bs rest w : Bytes} {b : UInt8} {o : OpenString}
variable {e : LexicalError}

theorem Reached.through (h : Reached p s c) (ht : s.through? (p.after c) x = some t) :
    Reached p t (c ++ x) := by
  induction x generalizing s c with
  | nil =>
    cases ht
    rwa [List.append_nil]
  | cons b x ih =>
    simp only [State.through?] at ht
    split at ht
    · rename_i next hs
      rw [← Position.after_snoc] at ht
      have hi := ih (h.step hs) ht
      rwa [List.append_assoc, List.singleton_append] at hi
    · cases ht
    · cases ht

theorem Closing.exists_parts (h : Closing p x o) : ∃ ps : List Part, (∀ q ∈ ps, q.Legal) ∧
    x = ps.flatMap Part.literal ∧ o.text.reverse = ps.flatMap Part.text ∧
    o.literal.reverse = Ascii.quote :: x ∧ o.start = p := by
  have hempty : OpenString.Holds ⟨p, [Ascii.quote], [], none⟩ [] [] :=
    ⟨rfl, rfl, List.forall_mem_nil _⟩
  have hopen : Reached p (opened p) ([] ++ [Ascii.quote]) :=
    .string (List.forall_mem_nil _) rfl .none hempty
  have hreached := hopen.through h.through
  generalize hc : [] ++ [Ascii.quote] ++ x = c at hreached
  cases hreached with
  | @string w z _ ps hw hp hl hparts =>
    obtain ⟨hliteral, htext, hlegal⟩ := hparts
    rw [h.lead] at hl
    cases hl
    rw [List.append_nil] at hliteral
    cases w with
    | nil =>
      have hx : Ascii.quote :: x = o.literal.reverse := hc
      rw [hliteral, List.cons.injEq] at hx
      exact ⟨ps, hlegal, hx.2, htext, by rw [hliteral, hx.2], hp⟩
    | cons b w =>
      have hb := hw b List.mem_cons_self
      rw [← (List.cons.inj hc).1] at hb
      cases hb

theorem Closing.literal_eq (h : Closing p x o) :
    (o.write Ascii.quote).literal.reverse = literal x := by
  obtain ⟨-, -, -, -, hliteral, -⟩ := h.exists_parts
  rw [OpenString.write, List.reverse_cons, hliteral]
  rfl

/-- Any parts are a string that can be closed, whether or not they make characters. -/
theorem closing_iff_parts : (∃ o, Closing p x o ∧ o.text.reverse = y) ↔
    ∃ ps : List Part, (∀ q ∈ ps, q.Legal) ∧ x = ps.flatMap Part.literal ∧
      y = ps.flatMap Part.text := by
  constructor
  · rintro ⟨o, ho, rfl⟩
    obtain ⟨ps, hlegal, hx, htext, -⟩ := ho.exists_parts
    exact ⟨ps, hlegal, hx, htext⟩
  · rintro ⟨ps, hlegal, rfl, rfl⟩
    exact ⟨_, ⟨through?_parts hlegal rfl, rfl⟩, by simp [OpenString.grow]⟩

/-- Whatever the bytes of a string are, its contents are well-formed just if its literal is. -/
theorem Closing.isUtf8_iff (h : Closing p x o) : IsUtf8 o.text.reverse ↔ IsUtf8 (literal x) := by
  obtain ⟨ps, hlegal, rfl, htext, -, -⟩ := h.exists_parts
  rw [htext, Part.isUtf8_text_iff hlegal, literal, isUtf8_enclosed (by decide) (by decide)]

theorem Closing.run (h : Closing (p.after w) x o) (hw : Blanks w) (rest : Bytes) :
    State.between.run p (w ++ (literal x ++ rest)) =
      ((o.write Ascii.quote).close (p.after (w ++ literal x)), p.after (w ++ literal x), rest) := by
  have hopen : State.between.step (p.after w) Ascii.quote = .take (opened (p.after w)) := rfl
  have hclose (q : Position) : (State.string o).step q Ascii.quote =
      .takeLast ((o.write Ascii.quote).close (q.next Ascii.quote)) := by
    simp only [State.step, stringByte, h.lead, if_true]
  have hend : (((p.after w).next Ascii.quote).after x).next Ascii.quote =
      p.after (w ++ literal x) := by
    rw [Position.after_append, ← Position.after_snoc]
    rfl
  rw [run_blanks hw, literal, List.cons_append, List.append_assoc, run_of_take hopen,
    run_through h.through, List.singleton_append, run_of_takeLast (hclose _), hend]
  rfl

theorem Closing.run_isUtf8 (h : Closing (p.after w) x o) (hw : Blanks w) (hu : IsUtf8 (literal x))
    (rest : Bytes) : ∃ text lexeme, utf8 text = o.text.reverse ∧ utf8 lexeme = literal x ∧
      (State.between.run p (w ++ (literal x ++ rest))).1 =
        token (.string text) lexeme (p.after w) (p.after (w ++ literal x)) := by
  obtain ⟨-, -, -, -, -, hstart⟩ := h.exists_parts
  obtain ⟨text, htext⟩ := h.isUtf8_iff.mpr hu
  obtain ⟨lexeme, hlexeme⟩ := hu
  refine ⟨text, lexeme, htext, hlexeme, ?_⟩
  have hcontents : text? (o.write Ascii.quote).text.reverse = some text :=
    text?_eq_some_iff.mpr htext
  rw [h.run hw, OpenString.close, hcontents, h.literal_eq, text?_eq_some_iff.mpr hlexeme, ← hstart]
  rfl

theorem Closing.run_not_isUtf8 (h : Closing (p.after w) x o) (hw : Blanks w)
    (hu : ¬IsUtf8 (literal x)) (rest : Bytes) :
    (State.between.run p (w ++ (literal x ++ rest))).1 = fail .invalidUtf8 none (p.after w) := by
  obtain ⟨-, -, -, -, -, hstart⟩ := h.exists_parts
  have hcontents : text? (o.write Ascii.quote).text.reverse = none :=
    Option.eq_none_iff_forall_ne_some.mpr fun text ht =>
      hu (h.isUtf8_iff.mp ⟨text, text?_eq_some_iff.mp ht⟩)
  rw [h.run hw, OpenString.close, hcontents, ← hstart]
  rfl

theorem closed_of_takeLast (h : s.step p b = .takeLast (.error e)) (he : e.fault = .invalidUtf8) :
    ∃ o : OpenString, s = .string o ∧ b = Ascii.quote ∧ o.lead = none := by
  cases s with
  | between =>
    simp only [State.step, Lexer.begin] at h
    repeat' split at h
    all_goals cases h
  | keyword word left start =>
    cases left with
    | nil => cases h
    | cons d left =>
      simp only [State.step] at h
      split at h <;> cases h
      cases he
  | number state literal start =>
    simp only [State.step] at h
    split at h <;> cases h
  | string o =>
    simp only [State.step, stringByte] at h
    split at h
    · rename_i hb
      split at h
      · cases h
        cases he
      · rename_i hlead
        exact ⟨o, rfl, hb, hlead⟩
    · repeat' split at h
      all_goals cases h <;> cases he
  | escape o slash =>
    simp only [State.step, escapeByte] at h
    repeat' split at h
    all_goals cases h <;> cases he
  | unicode o slash digits =>
    simp only [State.step, codeUnit] at h
    repeat' split at h
    all_goals cases h <;> cases he

theorem fault_of_endKeyword {word : Keyword} {start : Position} {next : Option UInt8}
    (h : endKeyword word start p next = .error e) : e.fault = .invalidToken := by
  simp only [endKeyword] at h
  split at h <;> cases h
  rfl

theorem fault_of_endNumber {state : LiteralState} {bs : Bytes} {start : Position}
    {next : Option UInt8} (h : endNumber state bs start p next = .error e) :
    e.fault = .invalidNumber := by
  simp only [endNumber] at h
  repeat' split at h
  all_goals cases h <;> rfl

theorem fault_of_leave (h : s.step p b = .leave (.error e)) : e.fault ≠ .invalidUtf8 := by
  intro he
  cases s with
  | between =>
    simp only [State.step, Lexer.begin] at h
    repeat' split at h
    all_goals cases h
    cases he
  | keyword word left start =>
    cases left with
    | nil => cases (fault_of_endKeyword (Step.leave.inj h)).symm.trans he
    | cons d left =>
      simp only [State.step] at h
      split at h <;> cases h
  | number state literal start =>
    simp only [State.step] at h
    split at h
    · cases h
    · cases (fault_of_endNumber (Step.leave.inj h)).symm.trans he
  | string o => exact string_step_ne_leave o _ b _ h
  | escape o slash => exact escape_step_ne_leave o slash _ b _ h
  | unicode o slash digits => exact unicode_step_ne_leave o slash digits _ b _ h

theorem fault_of_finish (h : s.finish p = .error e) : e.fault ≠ .invalidUtf8 := by
  intro he
  cases s with
  | between => cases h
  | keyword word left start =>
    cases left with
    | nil => cases (@fault_of_endKeyword p e word start none h).symm.trans he
    | cons d left =>
      cases h
      cases he
  | number state literal start =>
    cases (@fault_of_endNumber p e state literal start none h).symm.trans he
  | string o | escape o slash | unicode o slash digits =>
    cases h
    cases he

/-- Where bytes are found not to be well-formed, the machine has come through them to a closing
quote. -/
theorem exists_through (h : (s.run p bs).1 = .error e) (he : e.fault = .invalidUtf8) :
    ∃ x o rest, bs = x ++ Ascii.quote :: rest ∧ s.through? p x = some (.string o) ∧
      o.lead = none := by
  induction bs generalizing s p with
  | nil => exact absurd he (fault_of_finish h)
  | cons b bs ih =>
    rw [State.run] at h
    cases hs : s.step p b with
    | take next =>
      rw [hs] at h
      obtain ⟨x, o, rest, rfl, hx, ho⟩ := ih h
      exact ⟨b :: x, o, rest, rfl, (through?_of_take hs x).trans hx, ho⟩
    | takeLast outcome =>
      rw [hs] at h
      obtain ⟨o, rfl, rfl, ho⟩ := closed_of_takeLast (hs.trans (congrArg Step.takeLast h)) he
      exact ⟨[], o, bs, rfl, rfl, ho⟩
    | leave outcome =>
      rw [hs] at h
      exact absurd he (fault_of_leave (hs.trans (congrArg Step.leave h)))

/-- Behind some bytes that the lexer takes there is a string that the next quote closes, if the
lexer is in a string at all. -/
theorem exists_closing (h : State.between.through? p c = some (.string o)) (ho : o.lead = none) :
    ∃ w x, c = w ++ Ascii.quote :: x ∧ Blanks w ∧ Closing (p.after w) x o := by
  have hreached := Reached.through (.between (List.forall_mem_nil _)) h
  generalize hc : [] ++ c = d at hreached
  cases hreached with
  | @string w z _ ps hw hp hl hparts =>
    obtain rfl : c = w ++ o.literal.reverse := hc
    rw [hparts.literal] at h ⊢
    refine ⟨w, _, rfl, hw, ?_, ho⟩
    have hopen : State.between.step (p.after w) Ascii.quote = .take (opened (p.after w)) := rfl
    rw [through?_append, through?_blanks hw, Option.bind_some, through?_of_take hopen] at h
    exact h

/-- Bytes are found not to be well-formed at the quote that opens a string, if what stands between
this quote and the one that closes it is not. -/
theorem run_invalidUtf8_iff : (State.between.run p bs).1 = .error e ∧ e.fault = .invalidUtf8 ↔
    ∃ w x o rest, bs = w ++ (literal x ++ rest) ∧ Blanks w ∧ Closing (p.after w) x o ∧
      ¬IsUtf8 (literal x) ∧ e = ⟨.invalidUtf8, none, p.after w⟩ := by
  constructor
  · rintro ⟨h, he⟩
    obtain ⟨c, o, rest, rfl, hc, ho⟩ := exists_through h he
    obtain ⟨w, x, rfl, hw, hx⟩ := exists_closing hc ho
    have hbs : w ++ Ascii.quote :: x ++ Ascii.quote :: rest = w ++ (literal x ++ rest) := by
      simp [literal]
    rw [hbs] at h ⊢
    by_cases hu : IsUtf8 (literal x)
    · obtain ⟨text, lexeme, -, -, hrun⟩ := hx.run_isUtf8 hw hu rest
      cases hrun.symm.trans h
    · cases (hx.run_not_isUtf8 hw hu rest).symm.trans h
      exact ⟨w, x, o, rest, rfl, hw, hx, hu, rfl⟩
  · rintro ⟨w, x, o, rest, rfl, hw, hx, hu, rfl⟩
    exact ⟨hx.run_not_isUtf8 hw hu rest, rfl⟩

end Lexer

def ReadError.IsInvalidUtf8 : ReadError → Prop
  | lexical e => e.fault = .invalidUtf8
  | unexpected _ _ | tooDeep _ _ | input _ => False

namespace TokenStream
open Lexer

section Literals
variable {σ : Type} [Source σ] {t : TokenStream σ} {data bs rest w x : Bytes} {o : OpenString}

/-- What is read where a string is closed that has the bytes `x` between its quotes, behind the
blanks `w`. It is the string, if its literal is well-formed, and else a fault at its first quote. -/
structure ReadsClosed (t : TokenStream σ) (w x : Bytes) (o : OpenString) : Prop where
  token : IsUtf8 (literal x) → ∃ text lexeme, utf8 text = o.text.reverse ∧ utf8 lexeme = literal x ∧
    t.read.1 = .ok ⟨.string text, lexeme,
      ⟨t.position.after w, t.position.after (w ++ literal x)⟩⟩
  fault : t.read.1 = .error (.lexical ⟨.invalidUtf8, none, t.position.after w⟩) ↔
    ¬IsUtf8 (literal x)

theorem readsClosed_of_closing
    (h : Source.Alike t.source (Slice.mk data (w ++ (literal x ++ rest)))) (hw : Blanks w)
    (hx : Closing (t.position.after w) x o) : ReadsClosed t w x o := by
  obtain ⟨hread, -⟩ := read_alike h
  by_cases hu : IsUtf8 (literal x)
  · obtain ⟨text, lexeme, htext, hlexeme, hrun⟩ := hx.run_isUtf8 hw hu rest
    rw [hrun] at hread
    refine ⟨fun _ => ⟨text, lexeme, htext, hlexeme, hread⟩, fun heq => ?_, fun hn => absurd hu hn⟩
    cases hread.symm.trans heq
  · rw [hx.run_not_isUtf8 hw hu] at hread
    exact ⟨fun hu' => absurd hu' hu, fun _ => hu, fun _ => hread⟩

theorem read_string_iff (h : Source.Alike t.source (Slice.mk data bs)) :
    (∃ token s, t.read.1 = .ok token ∧ token.content = .string s) ↔
      ∃ w x o rest, bs = w ++ (literal x ++ rest) ∧ Blanks w ∧ Closing (t.position.after w) x o ∧
        IsUtf8 (literal x) := by
  constructor
  · rintro ⟨token, s, hread, hc⟩
    rw [(read_alike h).1, mapError_eq_ok] at hread
    obtain ⟨w, y, hbs, ⟨hw, htext, -, -⟩, -, -⟩ := stands_of_run (Prod.ext hread rfl)
    rw [hc] at htext
    cases htext with
    | string hs =>
      obtain ⟨x, hx, rfl⟩ := hs
      obtain ⟨ps, hps, rfl, -⟩ := exists_parts_of_spellings hx
      obtain ⟨o, ho, -⟩ := closing_iff_parts.mpr ⟨ps, hps, rfl, rfl⟩
      refine ⟨w, _, o, _, hbs.trans (List.append_assoc w _ _), hw, ho, ?_⟩
      exact (isUtf8_enclosed (by decide) (by decide)).mpr hx.exists_utf8
  · rintro ⟨w, x, o, rest, rfl, hw, hx, hu⟩
    obtain ⟨text, lexeme, -, -, hread⟩ := (readsClosed_of_closing h hw hx).token hu
    exact ⟨_, text, hread, rfl⟩

theorem read_invalidUtf8_iff (h : Source.Alike t.source (Slice.mk data bs)) {e : ReadError} :
    t.read.1 = .error e ∧ e.IsInvalidUtf8 ↔
      ∃ w x o rest, bs = w ++ (literal x ++ rest) ∧ Blanks w ∧ Closing (t.position.after w) x o ∧
        ¬IsUtf8 (literal x) ∧ e = .lexical ⟨.invalidUtf8, none, t.position.after w⟩ := by
  rw [(read_alike h).1, mapError_eq_error]
  constructor
  · rintro ⟨⟨fault, hrun, rfl⟩, he⟩
    obtain ⟨w, x, o, rest, hbs, hw, hx, hu, rfl⟩ := run_invalidUtf8_iff.mp ⟨hrun, he⟩
    exact ⟨w, x, o, rest, hbs, hw, hx, hu, rfl⟩
  · rintro ⟨w, x, o, rest, hbs, hw, hx, hu, rfl⟩
    obtain ⟨hrun, he⟩ := run_invalidUtf8_iff.mpr ⟨w, x, o, rest, hbs, hw, hx, hu, rfl⟩
    exact ⟨⟨_, hrun, rfl⟩, he⟩

end Literals

end TokenStream

end ExactJson
