import ExactJson.Proofs.Token.Begun
import ExactJson.Proofs.Token.Literals
import ExactJson.Proofs.Token.Respaced

/-! Numbers in a document. The lexer takes as many bytes as can still become a number, and a text is read
as one number exactly if it is a number from end to end. -/
namespace ExactJson
open Grammar Text TokenStream

namespace Grammar

def FractionText (x : Bytes) : Prop := ∃ ds, DigitText ds ∧ x = Ascii.dot :: ds

def ExponentText (x : Bytes) : Prop := ∃ e s ds, (e = Ascii.lowerE ∨ e = Ascii.upperE) ∧
  (s = [] ∨ s = [Ascii.plus] ∨ s = [Ascii.minus]) ∧ DigitText ds ∧ x = e :: (s ++ ds)

def formOf (fraction exponent : Bytes) : NumberForm :=
  if exponent ≠ [] then .exponent else if fraction ≠ [] then .fraction else .integer

/-- A literal with its sign, whole part, fraction and exponent, of which only the whole part has to be
there. -/
structure Parts (form : NumberForm) (bs s w f e : Bytes) : Prop where
  bytes : bs = s ++ w ++ f ++ e
  sign : Sign s
  whole : Whole w
  fraction : f = [] ∨ FractionText f
  exponent : e = [] ∨ ExponentText e
  form : form = formOf f e

variable {form : NumberForm} {bs s w f e m rest : Bytes}

theorem formOf_eq_integer : formOf f e = .integer ↔ f = [] ∧ e = [] := by
  by_cases he : e = [] <;> by_cases hf : f = [] <;> simp [formOf, he, hf]

theorem NumberText.exists_parts (h : NumberText form bs) : ∃ s w f e, Parts form bs s w f e := by
  induction h with
  | @integer s w hs hw => exact ⟨s, w, [], [], by simp, hs, hw, .inl rfl, .inl rfl, rfl⟩
  | @fraction m ds hm hds ih =>
    obtain ⟨s, w, f, e, rfl, hs, hw, hf, he, hform⟩ := ih
    obtain ⟨rfl, rfl⟩ := formOf_eq_integer.mp hform.symm
    exact ⟨s, w, Ascii.dot :: ds, [], by simp, hs, hw, .inr ⟨ds, hds, rfl⟩, .inl rfl, rfl⟩
  | @exponent form m t ds c hm hne hc ht hds ih =>
    obtain ⟨s, w, f, e, rfl, hs, hw, hf, he, hform⟩ := ih
    obtain rfl : e = [] := by
      by_contra h
      exact hne (hform.trans (if_pos h))
    exact ⟨s, w, f, c :: (t ++ ds), by simp, hs, hw, hf, .inr ⟨c, t, ds, hc, ht, hds, rfl⟩, rfl⟩

theorem Parts.numberText (h : Parts form bs s w f e) : NumberText form bs := by
  obtain ⟨rfl, hs, hw, hf, he, rfl⟩ := h
  have hfront : NumberText (formOf f []) (s ++ w ++ f) := by
    obtain rfl | ⟨ds, hds, rfl⟩ := hf
    · rw [List.append_nil]
      exact .integer hs hw
    · exact .fraction (.integer hs hw) hds
  obtain rfl | ⟨c, t, ds, hc, ht, hds, rfl⟩ := he
  · rwa [List.append_nil (s ++ w ++ f)]
  · refine .exponent hfront ?_ hc ht hds
    by_cases h : f = [] <;> simp [formOf, h]

theorem numberText_iff_parts : NumberText form bs ↔ ∃ s w f e, Parts form bs s w f e :=
  ⟨NumberText.exists_parts, fun ⟨_, _, _, _, h⟩ => h.numberText⟩

theorem NumberText.unique {form' : NumberForm} (h : NumberText form bs)
    (h' : NumberText form' bs) : form = form' := by
  obtain ⟨t, ht, hf⟩ := LiteralState.run?_of_numberText h
  obtain ⟨t', ht', hf'⟩ := LiteralState.run?_of_numberText h'
  cases ht.symm.trans ht'
  exact Option.some.inj (hf.symm.trans hf')

def Numeric (x : Bytes) : Prop := ∃ y form, NumberText form (x ++ y)

theorem numeric_iff {x : Bytes} : Numeric x ↔ ∃ s, LiteralState.start.run? x = some s := by
  refine ⟨fun ⟨y, form, h⟩ => ?_, fun ⟨s, hs⟩ => exists_numberText hs⟩
  obtain ⟨t, ht, -⟩ := LiteralState.run?_of_numberText h
  rw [LiteralState.run?_append] at ht
  obtain ⟨s, hs, -⟩ := Option.bind_eq_some_iff.mp ht
  exact ⟨s, hs⟩

structure LongestNumeric (m bs : Bytes) : Prop where
  begins : m <+: bs
  numeric : Numeric m
  longest : ∀ x, x <+: bs → Numeric x → x.length ≤ m.length

def LeadingZero (m rest : Bytes) : Prop :=
  (m = [Ascii.zero] ∨ m = [Ascii.minus, Ascii.zero]) ∧ rest.head?.any Ascii.isDigit = true

end Grammar

namespace LiteralState
variable {s : LiteralState} {bs m rest : Bytes}

/-- The automaton takes some of the bytes, and stops before one that does not go on with them. -/
theorem exists_stop (s : LiteralState) (bs : Bytes) : ∃ m rest t, bs = m ++ rest ∧
    s.run? m = some t ∧ ∀ b ∈ rest.head?, t.next? b = none := by
  induction bs generalizing s with
  | nil => exact ⟨[], [], s, rfl, rfl, nofun⟩
  | cons b bs ih =>
    cases h : s.next? b with
    | none =>
      refine ⟨[], b :: bs, s, rfl, rfl, ?_⟩
      rintro _ ⟨⟩
      exact h
    | some u =>
      obtain ⟨m, rest, t, rfl, ht, hstop⟩ := ih u
      refine ⟨b :: m, rest, t, rfl, ?_, hstop⟩
      rw [run?, h, Option.bind_some, ht]

theorem longestNumeric_iff : LongestNumeric m (m ++ rest) ↔
    ∃ s, start.run? m = some s ∧ ∀ b ∈ rest.head?, s.next? b = none := by
  constructor
  · rintro ⟨-, hm, hlongest⟩
    obtain ⟨s, hs⟩ := numeric_iff.mp hm
    refine ⟨s, hs, fun b hb => ?_⟩
    obtain ⟨rest, rfl⟩ := List.head?_eq_some_iff.mp hb
    cases hn : s.next? b with
    | none => rfl
    | some t =>
      have hmore : start.run? (m ++ [b]) = some t := by
        rw [run?_append, hs, Option.bind_some, run?, hn]
        rfl
      have hlen := hlongest (m ++ [b]) ⟨rest, by simp⟩ (numeric_iff.mpr ⟨t, hmore⟩)
      rw [List.length_append] at hlen
      exact absurd hlen (Nat.not_succ_le_self _)
  · rintro ⟨s, hs, hstop⟩
    refine ⟨⟨rest, rfl⟩, numeric_iff.mpr ⟨s, hs⟩, fun x hprefix hx => ?_⟩
    obtain ⟨y, hy⟩ := hprefix
    obtain ⟨t, ht⟩ := numeric_iff.mp hx
    obtain ⟨z, rfl, -⟩ | ⟨z, rfl, rfl⟩ := List.append_eq_append_iff.mp hy
    · simp
    · cases z with
      | nil => simp
      | cons b z =>
        rw [run?_append, hs, Option.bind_some, run?, hstop b rfl] at ht
        cases ht

theorem exists_longestNumeric (bs : Bytes) : ∃ m rest, bs = m ++ rest ∧ LongestNumeric m bs := by
  obtain ⟨m, rest, s, rfl, hs, hstop⟩ := exists_stop .start bs
  exact ⟨m, rest, rfl, longestNumeric_iff.mpr ⟨s, hs, hstop⟩⟩

theorem run?_eq_zero_iff : start.run? m = some zero ↔
    m = [Ascii.zero] ∨ m = [Ascii.minus, Ascii.zero] := by
  constructor
  · intro h
    have hm := Holds.start.run h
    rw [List.nil_append] at hm
    cases hm with
    | zero hs => exact hs.imp (congrArg (· ++ [Ascii.zero])) (congrArg (· ++ [Ascii.zero]))
  · rintro (rfl | rfl) <;> rfl

theorem longestNumeric_ne_nil (h : LongestNumeric m bs)
    (hb : ∃ b ∈ bs.head?, b = Ascii.minus ∨ Ascii.isDigit b = true) : m ≠ [] := by
  rintro rfl
  obtain ⟨s, hs, hstop⟩ := longestNumeric_iff.mp (List.nil_append bs ▸ h)
  cases hs
  obtain ⟨b, hb, hfirst⟩ := hb
  have hnone := hstop b hb
  simp only [next?, leading?] at hnone
  split at hnone
  · cases hnone
  · rename_i hminus
    split at hnone
    · cases hnone
    · rw [if_pos (hfirst.resolve_left hminus)] at hnone
      cases hnone

end LiteralState

namespace Lexer
variable {form : NumberForm} {s : LiteralState} {m : Bytes} {p q : Position}

theorem endNumber_eq (hs : LiteralState.start.run? m = some s) (rest : Bytes) :
    (∃ form, NumberText form m ∧ ¬LeadingZero m rest ∧ endNumber s m.reverse p q rest.head? =
      token (.number form) (ofAscii m) p q) ∨
    (∀ form, NumberText form m → LeadingZero m rest) ∧ endNumber s m.reverse p q rest.head? =
      fail .invalidNumber (rest.head?.bind Ascii.char?) q := by
  have hzero : s = .zero ∧ rest.head?.any Ascii.isDigit = true ↔ LeadingZero m rest := by
    rw [LeadingZero, ← LiteralState.run?_eq_zero_iff, hs, Option.some_inj]
  cases hf : s.form? with
  | none =>
    refine .inr ⟨fun form h => ?_, by simp only [endNumber, hf]⟩
    obtain ⟨t, ht, hform⟩ := LiteralState.run?_of_numberText h
    cases hs.symm.trans ht
    rw [hf] at hform
    cases hform
  | some form =>
    simp only [endNumber, hf, List.reverse_reverse]
    by_cases hz : LeadingZero m rest
    · exact .inr ⟨fun _ _ => hz, if_pos (hzero.mpr hz)⟩
    · exact .inl ⟨form, LiteralState.numberText_iff.mpr ⟨s, hs, hf⟩, hz, if_neg (hz ∘ hzero.mp)⟩

end Lexer

section Streams
variable {σ : Type} [Source σ] {t : TokenStream σ} {m rest : Bytes}

/-- What is read of the bytes `m` of a number that `rest` are behind. It is the number, or the fault that
is found where the bytes stop being numeric. -/
structure ReadsNumber (t : TokenStream σ) (m rest : Bytes) : Prop where
  token (form : NumberForm) : t.read.1 =
      .ok ⟨.number form, ofAscii m, ⟨t.position, t.position.after m⟩⟩ ↔
    NumberText form m ∧ ¬LeadingZero m rest
  fault : t.read.1 = .error (.lexical
      ⟨.invalidNumber, rest.head?.bind Ascii.char?, t.position.after m⟩) ↔
    ∀ form, NumberText form m → LeadingZero m rest
  position : t.read.2.position = t.position.after m
  left : (Source.drain t.read.2.source).1 = rest ∧ (Source.drain t.read.2.source).2.1 = none

theorem readsNumber_of_longest (h : Source.Alike t.source (Slice.ofBytes (m ++ rest)))
    (hb : ∃ b ∈ (m ++ rest).head?, b = Ascii.minus ∨ Ascii.isDigit b = true)
    (hm : LongestNumeric m (m ++ rest)) : ReadsNumber t m rest := by
  obtain ⟨s, hs, hstop⟩ := LiteralState.longestNumeric_iff.mp hm
  have hrun := @Lexer.run_literal t.position rest s m hs
    (LiteralState.longestNumeric_ne_nil hm hb) hstop
  obtain ⟨hread, hrel⟩ := read_alike h
  rw [hrun] at hread hrel
  have hdrain := hrel.source.drain
  rw [Slice.drain_eq] at hdrain
  obtain ⟨form', hform, hz, hend⟩ | ⟨hno, hend⟩ := Lexer.endNumber_eq hs rest
  · rw [hend] at hread
    refine ⟨fun form => ⟨fun heq => ?_, fun ⟨hf, _⟩ => ?_⟩, ⟨fun heq => ?_, fun hno => ?_⟩,
      hrel.position, hdrain⟩
    · cases hread.symm.trans heq
      exact ⟨hform, hz⟩
    · exact hform.unique hf ▸ hread
    · cases hread.symm.trans heq
    · exact absurd (hno form' hform) hz
  · rw [hend] at hread
    refine ⟨fun form => ⟨fun heq => ?_, fun ⟨hf, hz⟩ => absurd (hno form hf) hz⟩,
      ⟨fun _ => hno, fun _ => hread⟩, hrel.position, hdrain⟩
    cases hread.symm.trans heq

end Streams

theorem decimal?_eq_some_iff {text : String} {n : Number} : Number.decimal? text = some n ↔
    ∃ u form, Tokens (utf8 text) [u] ∧ u.content = .number form ∧ u.lexeme = text ∧
      n = .ofLiteral .exact form text := by
  rw [Number.decimal?, Option.map_eq_some_iff]
  constructor
  · rintro ⟨form, hform, rfl⟩
    have htext : TokenText (.number form) (utf8 text) :=
      .number (NumberForm.ofText?_eq_some_iff.mp hform)
    obtain ⟨u, hu, hbody⟩ :=
      @tokens_lexeme ⟨.number form, text, ⟨.start, .start⟩⟩ htext nofun
    exact ⟨u, form, hu, congrArg Prod.fst hbody, congrArg Prod.snd hbody, rfl⟩
  · rintro ⟨u, form, hu, hc, rfl, rfl⟩
    have htext := hu.tokenText u List.mem_cons_self
    rw [hc] at htext
    exact ⟨form, NumberForm.ofText?_eq_some_iff.mpr htext.numberText, rfl⟩

/-- Bytes are a literal of a form by its parts. Where a minus sign or a digit stands, the longest beginning
of what is left that can be extended to a number is read as a number if it is one, and not a zero before a
digit, and otherwise there is a fault right behind it. So a text is read as one number exactly if it makes
a number by itself. -/
theorem read_longest_number :
    (∀ (bs : Bytes) (form : NumberForm),
      (LiteralState.start.run? bs).bind LiteralState.form? = some form ↔
        ∃ s w f e, Parts form bs s w f e) ∧
    (∀ (text : String) (form : NumberForm), NumberForm.ofText? text = some form ↔
      ∃ s w f e, Parts form (utf8 text) s w f e) ∧
    (∀ {σ : Type} [Source σ] (t : TokenStream σ) (bs : Bytes),
      Source.Alike t.source (Slice.ofBytes bs) →
      (∃ b ∈ bs.head?, b = Ascii.minus ∨ Ascii.isDigit b = true) →
      (∃ m rest, bs = m ++ rest ∧ LongestNumeric m bs) ∧
        ∀ m rest, bs = m ++ rest → LongestNumeric m bs → ReadsNumber t m rest) ∧
    ∀ (text : String) (n : Number), Number.decimal? text = some n ↔
      ∃ u form, Tokens (utf8 text) [u] ∧ u.content = .number form ∧ u.lexeme = text ∧
        n = .ofLiteral .exact form text := by
  refine ⟨fun bs form => ?_, fun text form => ?_, fun t bs h hb => ⟨?_, ?_⟩, fun text n => ?_⟩
  · rw [Option.bind_eq_some_iff, ← LiteralState.numberText_iff, numberText_iff_parts]
  · rw [NumberForm.ofText?_eq_some_iff, numberText_iff_parts]
  · exact LiteralState.exists_longestNumeric bs
  · rintro m rest rfl hm
    exact readsNumber_of_longest h hb hm
  · exact decimal?_eq_some_iff

/-- A number with a word behind it, one that is cut in its exponent, and a zero before a digit. -/
theorem read_longest_number_cut :
    LongestNumeric (utf8 "-0.50") (utf8 "-0.50true") ∧
      LongestNumeric (utf8 "12e+") (utf8 "12e+" ++ [0xC3]) ∧
      LongestNumeric (utf8 "-0") (utf8 "-01") ∧
      (TokenStream.ofSource (Slice.ofBytes (utf8 "-0.50true"))).read.1 =
        .ok ⟨.number .fraction, "-0.50", ⟨.start, ⟨1, 6, 5⟩⟩⟩ ∧
      (TokenStream.ofSource (Slice.ofBytes (utf8 "12e+" ++ [0xC3]))).read.1 =
        .error (.lexical ⟨.invalidNumber, none, ⟨1, 5, 4⟩⟩) ∧
      (TokenStream.ofSource (Slice.ofBytes (utf8 "-01"))).read.1 =
        .error (.lexical ⟨.invalidNumber, some '1', ⟨1, 3, 2⟩⟩) := by
  have hfraction : LongestNumeric (utf8 "-0.50") (utf8 "-0.50" ++ utf8 "true") :=
    LiteralState.longestNumeric_iff.mpr ⟨.fraction, rfl, by rintro _ ⟨⟩; rfl⟩
  have hcut : LongestNumeric (utf8 "12e+") (utf8 "12e+" ++ [0xC3]) :=
    LiteralState.longestNumeric_iff.mpr ⟨.markSign, rfl, by rintro _ ⟨⟩; rfl⟩
  have hzero : LongestNumeric (utf8 "-0") (utf8 "-0" ++ utf8 "1") :=
    LiteralState.longestNumeric_iff.mpr ⟨.zero, rfl, by rintro _ ⟨⟩; rfl⟩
  have hform : ∀ form, ¬NumberText form (utf8 "12e+") := by
    intro form h
    obtain ⟨t, ht, hf⟩ := LiteralState.numberText_iff.mp h
    cases ht
    cases hf
  have read {m rest : Bytes} (hm : LongestNumeric m (m ++ rest))
      (hb : ∃ b ∈ (m ++ rest).head?, b = Ascii.minus ∨ Ascii.isDigit b = true) :
      ReadsNumber (TokenStream.ofSource (Slice.ofBytes (m ++ rest))) m rest :=
    (read_longest_number.2.2.1 _ _ (.refl _) hb).2 m rest rfl hm
  refine ⟨hfraction, hcut, hzero, ?_, ?_, ?_⟩
  · refine ((read hfraction ⟨_, rfl, .inl rfl⟩).token .fraction).mpr ⟨?_, ?_⟩
    · exact LiteralState.numberText_iff.mpr ⟨.fraction, rfl, rfl⟩
    · rw [LeadingZero]
      decide
  · exact (read hcut ⟨_, rfl, .inr rfl⟩).fault.mpr fun form h => absurd h (hform form)
  · exact (read hzero ⟨_, rfl, .inl rfl⟩).fault.mpr fun form _ => ⟨.inr rfl, rfl⟩

end ExactJson
