import ExactJson.Proofs.Token.Grammar
import ExactJson.Token.Stream

/-! The lexer gives only tokens that stand in the document. The invariant says what the machine has
read in each of its states. -/
namespace ExactJson
open Grammar Text

@[simp] theorem Position.after_append (p : Position) (x y : Bytes) :
    p.after (x ++ y) = (p.after x).after y := List.foldl_append

theorem Position.after_snoc (p : Position) (x : Bytes) (b : UInt8) :
    p.after (x ++ [b]) = (p.after x).next b := p.after_append x [b]

namespace Lexer

inductive Pending : Option Nat → Bytes → Prop where
  | none : Pending none []
  | lead {u : Nat} {ds : Bytes} (h : Hex4 ds u) (hu : Escape.isLead u = true) :
      Pending (some u) (Ascii.backslash :: Ascii.lowerU :: ds)

/-- A string that has been opened with the quote, of which the parts `ps` and the bytes `x` have been
read. -/
structure OpenString.Holds (s : OpenString) (ps : List Part) (x : Bytes) : Prop where
  literal : s.literal.reverse = Ascii.quote :: (ps.flatMap Part.literal ++ x)
  text : s.text.reverse = ps.flatMap Part.text
  legal : ∀ p ∈ ps, p.Legal

/-- What the machine has read from the place `p` on when it is in a state: blanks `w` first, if it is
no longer between tokens. -/
inductive Reached (p : Position) : State → Bytes → Prop where
  | between {w : Bytes} (hw : Blanks w) : Reached p .between w
  | keyword {w x rest : Bytes} {word : Keyword} (hw : Blanks w)
      (h : utf8 word.spelling = x ++ rest) : Reached p (.keyword word rest (p.after w)) (w ++ x)
  | number {w x : Bytes} {s : LiteralState} (hw : Blanks w)
      (h : LiteralState.start.run? x.reverse = some s) :
      Reached p (.number s x (p.after w)) (w ++ x.reverse)
  | string {w x : Bytes} {s : OpenString} {ps : List Part} (hw : Blanks w)
      (hp : s.start = p.after w) (hl : Pending s.lead x) (h : s.Holds ps x) :
      Reached p (.string s) (w ++ s.literal.reverse)
  | escape {w x : Bytes} {s : OpenString} {ps : List Part} {slash : Position} (hw : Blanks w)
      (hp : s.start = p.after w) (hl : Pending s.lead x)
      (h : s.Holds ps (x ++ [Ascii.backslash])) :
      Reached p (.escape s slash) (w ++ s.literal.reverse)
  | unicode {w x digits : Bytes} {s : OpenString} {ps : List Part} {slash : Position}
      (hw : Blanks w) (hp : s.start = p.after w) (hl : Pending s.lead x)
      (h : s.Holds ps (x ++ Ascii.backslash :: Ascii.lowerU :: digits.reverse))
      (hd : digits.length ≤ 3) : Reached p (.unicode s slash digits) (w ++ s.literal.reverse)

namespace OpenString
variable {s : OpenString} {ps : List Part} {x : Bytes}

theorem Holds.write (h : s.Holds ps x) (b : UInt8) : (s.write b).Holds ps (x ++ [b]) where
  literal := by simp [OpenString.write, h.literal]
  text := h.text
  legal := h.legal

theorem Holds.addPart (h : s.Holds ps x) {p : Part} (hx : p.literal = x) (hp : p.Legal)
    {t : OpenString} (hl : t.literal = s.literal) (ht : t.text.reverse = s.text.reverse ++ p.text) :
    t.Holds (ps ++ [p]) [] where
  literal := by simp [hl, h.literal, ← hx]
  text := by simp [ht, h.text]
  legal q hq := by
    obtain hq | hq := List.mem_append.mp hq
    · exact h.legal q hq
    · exact List.mem_singleton.mp hq ▸ hp

theorem Holds.addChar {c : Char} (h : s.Holds ps x) (hx : EscapeText x c) :
    (s.addChar c).Holds (ps ++ [.escape x c]) [] :=
  h.addPart (p := .escape x c) rfl hx rfl (by simp [OpenString.addChar, Part.text, List.reverseAux_eq])

theorem Holds.close (h : s.Holds ps [Ascii.quote]) {p : Position} {t : Token}
    (hc : s.close p = .ok t) :
    (∃ text, t.content = .string text ∧ StringText s.literal.reverse text) ∧
      utf8 t.lexeme = s.literal.reverse ∧ t.span = ⟨s.start, p⟩ := by
  simp only [OpenString.close] at hc
  split at hc
  · rename_i text lexeme htext hlexeme
    cases hc
    have hcs := text?_eq_some_iff.mp htext
    rw [utf8_eq_flatMap, h.text] at hcs
    exact ⟨⟨text, rfl, _, spellings_of_parts h.legal hcs.symm, h.literal⟩,
      text?_eq_some_iff.mp hlexeme, rfl⟩
  · cases hc

end OpenString

theorem tokenText_of_mark? {b : UInt8} {c : TokenContent} (h : mark? b = some c) :
    TokenText c [b] := by
  simp only [mark?] at h
  repeat' split at h
  all_goals cases h
  all_goals
    subst b
    constructor

theorem utf8_spelling_of_starting? {b : UInt8} {word : Keyword}
    (h : Keyword.starting? b = some word) :
    utf8 word.spelling = [b] ++ (utf8 word.spelling).tail := by
  simp only [Keyword.starting?] at h
  repeat' split at h
  all_goals cases h
  all_goals
    subst b
    rfl

theorem tokenText_keyword (word : Keyword) : TokenText word.content (utf8 word.spelling) := by
  cases word <;> constructor

def Ended (p : Position) (c : Bytes) (t : Token) : Prop := ∃ w x, c = w ++ x ∧ t.Stands p w x

variable {p : Position} {s t : State} {c : Bytes} {b : UInt8} {token : Token}

theorem Reached.begin {w : Bytes} (hw : Blanks w) (h : Lexer.begin (p.after w) b = .take t) :
    Reached p t (w ++ [b]) := by
  simp only [Lexer.begin] at h
  split at h
  · rename_i hb
    cases h
    refine .between fun d hd => ?_
    obtain hd | hd := List.mem_append.mp hd
    · exact hw d hd
    · exact List.mem_singleton.mp hd ▸ hb
  · split at h
    · cases h
    · split at h
      · rename_i hq
        cases h
        subst hq
        have hopen : OpenString.Holds ⟨p.after w, [Ascii.quote], [], none⟩ [] [] :=
          ⟨rfl, rfl, by simp⟩
        exact .string hw rfl .none hopen
      · split at h
        · rename_i state hs
          cases h
          exact .number (x := [b]) hw (by simp [LiteralState.run?, hs])
        · split at h
          · rename_i word hword
            cases h
            exact .keyword hw (utf8_spelling_of_starting? hword)
          · cases h

theorem hex4_of_unit? {ds : Bytes} {u : Nat} (hd : ds.length = 4)
    (h : Escape.unit? ds = some u) : Hex4 ds u := by
  match ds, hd with
  | [_, _, _, _], _ => exact Escape.unit?_eq_some_iff.mp h

theorem escapeText_of_resolve? {lead : Option Nat} {x ds : Bytes} {u : Nat} {c : Char}
    (hl : Pending lead x) (hd : Hex4 ds u) (h : Escape.resolve? lead u = some (.char c)) :
    EscapeText (x ++ Ascii.backslash :: Ascii.lowerU :: ds) c := by
  cases hl with
  | none =>
    simp only [Escape.resolve?] at h
    split at h
    · cases h
    · split at h
      · cases h
      · simp only [Option.map_eq_some_iff, Escape.CodeUnit.char.injEq, exists_eq_right,
          Escape.char?_eq_some_iff] at h
        exact .unit (h ▸ hd)
  | @lead l _ hl hu =>
    simp only [Escape.resolve?, Option.map_eq_some_iff, Option.bind_eq_some_iff,
      Escape.CodeUnit.char.injEq, exists_eq_right, Escape.char?_eq_some_iff, Escape.pair?] at h
    obtain ⟨n, hn, hc⟩ := h
    split at hn
    · rename_i hv
      obtain rfl := Option.some.inj hn
      simp only [Bool.and_eq_true, Escape.isLead, Escape.isTrail, decide_eq_true_eq] at hv
      exact .pair hl hd hv.1 hv.2 hc
    · cases hn

theorem of_resolve?_lead {lead : Option Nat} {u l : Nat}
    (h : Escape.resolve? lead u = some (.lead l)) :
    lead = none ∧ l = u ∧ Escape.isLead u = true := by
  cases lead with
  | none =>
    simp only [Escape.resolve?] at h
    split at h
    · rename_i hu
      cases h
      exact ⟨rfl, rfl, hu⟩
    · split at h
      · cases h
      · simp at h
  | some k =>
    obtain ⟨_, _, hc⟩ := Option.map_eq_some_iff.mp h
    cases hc

section Strings
variable {w x : Bytes} {o : OpenString} {ps : List Part} {slash : Position}

theorem Reached.codeUnit (hw : Blanks w) (hp : o.start = p.after w) (hl : Pending o.lead x)
    {ds : Bytes} (hd : ds.length = 4)
    (h : o.Holds ps (x ++ Ascii.backslash :: Ascii.lowerU :: ds))
    (hs : Lexer.codeUnit o slash ds = .take t) : Reached p t (w ++ o.literal.reverse) := by
  simp only [Lexer.codeUnit] at hs
  split at hs
  · cases hs
  · rename_i u hu
    have hx := hex4_of_unit? hd hu
    split at hs
    · cases hs
    · rename_i c hr
      cases hs
      exact .string (s := o.addChar c) hw hp .none
        (h.addChar (escapeText_of_resolve? hl hx hr))
    · rename_i l hr
      cases hs
      obtain ⟨hn, rfl, hlead⟩ := of_resolve?_lead hr
      rw [hn] at hl
      cases hl
      exact .string (s := { o with lead := some l }) hw hp (.lead hx hlead)
        ⟨h.literal, h.text, h.legal⟩

theorem Reached.stringByte (hw : Blanks w) (hp : o.start = p.after w) (hl : Pending o.lead x)
    (h : o.Holds ps x) {q : Position} (hs : Lexer.stringByte o q b = .take t) :
    Reached p t (w ++ (o.write b).literal.reverse) := by
  simp only [Lexer.stringByte] at hs
  split at hs
  · split at hs <;> cases hs
  · rename_i hq
    split at hs
    · rename_i hb
      cases hs
      subst hb
      exact .escape (s := o.write _) hw hp hl (h.write _)
    · rename_i hb
      split at hs
      · cases hs
      · rename_i hc
        split at hs
        · cases hs
        · rename_i hn
          cases hs
          rw [hn] at hl
          cases hl
          have hpart : (Part.raw b).Legal := ⟨hq, hb, by simpa using hc⟩
          refine .string (s := (o.write b).addByte b) hw hp (x := []) ?_
            ((h.write b).addPart (p := .raw b) rfl hpart rfl ?_)
          · rw [show ((o.write b).addByte b).lead = none from hn]
            exact .none
          · simp [OpenString.addByte, Part.text]

theorem Reached.escapeByte (hw : Blanks w) (hp : o.start = p.after w) (hl : Pending o.lead x)
    (h : o.Holds ps (x ++ [Ascii.backslash])) (hs : Lexer.escapeByte o slash b = .take t) :
    Reached p t (w ++ (o.write b).literal.reverse) := by
  have hb := h.write b
  rw [List.append_assoc, List.singleton_append] at hb
  simp only [Lexer.escapeByte] at hs
  split at hs
  · rename_i hu
    cases hs
    subst hu
    exact .unicode (s := o.write _) hw hp hl hb (by simp)
  · split at hs
    · cases hs
    · rename_i hn
      rw [hn] at hl
      cases hl
      split at hs
      · rename_i c hc
        cases hs
        exact .string (s := (o.write b).addChar c) hw hp .none
          (hb.addChar (.short (Escape.short?_eq_some_iff.mp hc)))
      · cases hs

end Strings

theorem literal_write (o : OpenString) (b : UInt8) (w : Bytes) :
    w ++ (o.write b).literal.reverse = w ++ o.literal.reverse ++ [b] := by
  simp [OpenString.write]

theorem Reached.step (h : Reached p s c) (hs : s.step (p.after c) b = .take t) :
    Reached p t (c ++ [b]) := by
  cases h with
  | between hw => exact .begin hw hs
  | @keyword w x rest word hw hx =>
    cases rest with
    | nil => cases hs
    | cons d rest =>
      simp only [State.step] at hs
      split at hs
      · rename_i hb
        cases hs
        subst hb
        rw [List.append_assoc]
        exact .keyword hw (by rw [hx, List.append_assoc, List.singleton_append])
      · cases hs
  | @number w x s hw hx =>
    simp only [State.step] at hs
    split at hs
    · rename_i next hn
      cases hs
      rw [List.append_assoc, ← List.reverse_cons]
      refine .number hw ?_
      rw [List.reverse_cons, LiteralState.run?_append, hx]
      simp [LiteralState.run?, hn]
    · cases hs
  | string hw hp hl h =>
    rw [← literal_write]
    exact .stringByte hw hp hl h hs
  | escape hw hp hl h =>
    rw [← literal_write]
    exact .escapeByte hw hp hl h hs
  | @unicode w x digits o ps slash hw hp hl h hd =>
    have hb := h.write b
    rw [List.append_assoc, List.cons_append, List.cons_append, ← List.reverse_cons] at hb
    rw [← literal_write]
    simp only [State.step] at hs
    split at hs
    · rename_i hlt
      cases hs
      exact .unicode (s := o.write b) hw hp hl hb hlt
    · rename_i hlt
      refine .codeUnit (o := o.write b) hw hp hl ?_ hb hs
      simp only [List.length_reverse, List.length_cons]
      omega

theorem stands_endKeyword {w : Bytes} (hw : Blanks w) (word : Keyword) (next : Option UInt8)
    (h : endKeyword word (p.after w) (p.after (w ++ utf8 word.spelling)) next = .ok token) :
    token.Stands p w (utf8 word.spelling) ∧ token.content ≠ .endOfInput := by
  simp only [endKeyword] at h
  split at h
  · cases h
  · cases h
    refine ⟨⟨hw, tokenText_keyword word, rfl, rfl⟩, ?_⟩
    intro hc
    cases word <;> cases hc

theorem stands_endNumber {w x : Bytes} {n : LiteralState} (hw : Blanks w)
    (hx : LiteralState.start.run? x.reverse = some n) (next : Option UInt8)
    (h : endNumber n x (p.after w) (p.after (w ++ x.reverse)) next = .ok token) :
    token.Stands p w x.reverse ∧ token.content ≠ .endOfInput := by
  simp only [endNumber] at h
  split at h
  · rename_i form hf
    split at h
    · cases h
    · cases h
      have hn := LiteralState.numberText_iff.mpr ⟨n, hx, hf⟩
      exact ⟨⟨hw, .number hn, hn.utf8_ofAscii, rfl⟩, by simp⟩
  · cases h

theorem Reached.takeLast (h : Reached p s c) (hs : s.step (p.after c) b = .takeLast (.ok token)) :
    Ended p (c ++ [b]) token ∧ token.content ≠ .endOfInput := by
  cases h with
  | between hw =>
    simp only [State.step, Lexer.begin] at hs
    split at hs
    · cases hs
    · split at hs
      · rename_i content hm
        cases hs
        refine ⟨⟨c, [b], rfl, hw, tokenText_of_mark? hm, ?_, ?_⟩, ?_⟩
        · exact utf8_ofAscii fun d hd =>
            List.mem_singleton.mp hd ▸ ascii_delimiter b (mem_delimiters_of_mark? hm)
        · rw [Position.after_snoc]
        · rintro rfl
          cases tokenText_of_mark? hm
      · repeat' split at hs
        all_goals cases hs
  | @keyword w x rest word hw hx =>
    cases rest with
    | nil => cases hs
    | cons d rest =>
      simp only [State.step] at hs
      split at hs <;> cases hs
  | number hw hx =>
    simp only [State.step] at hs
    split at hs <;> cases hs
  | @string w x o ps hw hp hl h =>
    simp only [State.step, Lexer.stringByte] at hs
    split at hs
    · rename_i hb
      subst hb
      split at hs
      · cases hs
      · rename_i hn
        rw [hn] at hl
        cases hl
        obtain ⟨⟨text, hc, htext⟩, hlex, hspan⟩ := (h.write Ascii.quote).close (Step.takeLast.inj hs)
        rw [← literal_write]
        refine ⟨⟨w, _, rfl, hw, ?_, hlex, ?_⟩, ?_⟩
        · rw [hc]
          exact .string htext
        · rw [hspan, literal_write, Position.after_snoc, ← hp]
          rfl
        · rw [hc]
          intro he
          cases he
    · repeat' split at hs
      all_goals cases hs
  | escape hw hp hl h =>
    simp only [State.step, Lexer.escapeByte] at hs
    repeat' split at hs
    all_goals cases hs
  | unicode hw hp hl h hd =>
    simp only [State.step, Lexer.codeUnit] at hs
    repeat' split at hs
    all_goals cases hs

section Strings
variable (o : OpenString) (slash : Position) (digits : Bytes) (q : Position) (b : UInt8)
variable (outcome : Outcome)

/-! Inside of a string no byte is left. -/

theorem string_step_ne_leave : (State.string o).step q b ≠ .leave outcome := by
  intro h
  simp only [State.step, stringByte] at h
  repeat' split at h
  all_goals cases h

theorem escape_step_ne_leave : (State.escape o slash).step q b ≠ .leave outcome := by
  intro h
  simp only [State.step, escapeByte] at h
  repeat' split at h
  all_goals cases h

theorem unicode_step_ne_leave : (State.unicode o slash digits).step q b ≠ .leave outcome := by
  intro h
  simp only [State.step, codeUnit] at h
  repeat' split at h
  all_goals cases h

end Strings

theorem Reached.leave (h : Reached p s c) (hs : s.step (p.after c) b = .leave (.ok token)) :
    Ended p c token ∧ token.content ≠ .endOfInput := by
  cases h with
  | between hw => exact absurd hs (TokenStream.begin_ne_leave_ok _ b token)
  | @keyword w x rest word hw hx =>
    cases rest with
    | nil =>
      rw [List.append_nil] at hx
      subst hx
      obtain ⟨ht, hc⟩ := stands_endKeyword hw word (some b) (Step.leave.inj hs)
      exact ⟨⟨w, _, rfl, ht⟩, hc⟩
    | cons d rest =>
      simp only [State.step] at hs
      split at hs <;> cases hs
  | @number w x n hw hx =>
    simp only [State.step] at hs
    split at hs
    · cases hs
    · obtain ⟨ht, hc⟩ := stands_endNumber hw hx (some b) (Step.leave.inj hs)
      exact ⟨⟨w, _, rfl, ht⟩, hc⟩
  | string => exact absurd hs (string_step_ne_leave _ _ b _)
  | escape => exact absurd hs (escape_step_ne_leave _ _ _ b _)
  | unicode => exact absurd hs (unicode_step_ne_leave _ _ _ _ b _)

theorem Reached.finish (h : Reached p s c) (hs : s.finish (p.after c) = .ok token) :
    Ended p c token := by
  cases h with
  | between hw =>
    cases hs
    exact ⟨c, [], (List.append_nil c).symm, hw, .endOfInput, rfl, by rw [List.append_nil]⟩
  | @keyword w x rest word hw hx =>
    cases rest with
    | nil =>
      rw [List.append_nil] at hx
      subst hx
      exact ⟨w, _, rfl, (stands_endKeyword hw word none hs).1⟩
    | cons d rest => cases hs
  | @number w x n hw hx => exact ⟨w, _, rfl, (stands_endNumber hw hx none hs).1⟩
  | string hw hp hl h => cases hs
  | escape hw hp hl h => cases hs
  | unicode hw hp hl h hd => cases hs

/-- A token that the machine gives stands where the machine began, and the bytes behind it are left.
Only the end of the document is the token of the end. -/
theorem Reached.run (h : Reached p s c) {bs rest : Bytes} {q : Position}
    (hr : s.run (p.after c) bs = (.ok token, q, rest)) :
    ∃ w x, c ++ bs = w ++ x ++ rest ∧ token.Stands p w x ∧ q = p.after (w ++ x) ∧
      (token.content = .endOfInput → rest = []) := by
  induction bs generalizing s c with
  | nil =>
    simp only [State.run, Prod.mk.injEq] at hr
    obtain ⟨ho, rfl, rfl⟩ := hr
    obtain ⟨w, x, rfl, ht⟩ := h.finish ho
    exact ⟨w, x, rfl, ht, rfl, fun _ => rfl⟩
  | cons b bs ih =>
    simp only [State.run] at hr
    split at hr
    · rename_i next hs
      rw [← Position.after_snoc] at hr
      have hi := ih (h.step hs) hr
      rwa [List.append_assoc, List.singleton_append] at hi
    · rename_i outcome hs
      simp only [Prod.mk.injEq] at hr
      obtain ⟨rfl, rfl, rfl⟩ := hr
      obtain ⟨⟨w, x, hc, ht⟩, hne⟩ := h.takeLast hs
      refine ⟨w, x, ?_, ht, ?_, fun he => absurd he hne⟩
      · rw [← hc, List.append_assoc, List.singleton_append]
      · rw [← hc, Position.after_snoc]
    · rename_i outcome hs
      simp only [Prod.mk.injEq] at hr
      obtain ⟨rfl, rfl, rfl⟩ := hr
      obtain ⟨⟨w, x, rfl, ht⟩, hne⟩ := h.leave hs
      exact ⟨w, x, rfl, ht, rfl, fun he => absurd he hne⟩

theorem stands_of_run {bs rest : Bytes} {q : Position}
    (h : State.between.run p bs = (.ok token, q, rest)) :
    ∃ w x, bs = w ++ x ++ rest ∧ token.Stands p w x ∧ q = p.after (w ++ x) ∧
      (token.content = .endOfInput → rest = []) :=
  Reached.run (.between (w := []) fun _ hb => nomatch hb) h

end Lexer
end ExactJson
