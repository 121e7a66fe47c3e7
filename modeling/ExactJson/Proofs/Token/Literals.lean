import ExactJson.Proofs.Text.LoneHalves
import ExactJson.Proofs.Token.Places

/-! String literals at the start of a document: those of texts are read as one token, and those with
half of a pair by itself are not. -/
namespace ExactJson
open Grammar Text TokenStream

variable {σ : Type} [Source σ] {source : σ} {data rest x z : Bytes} {s : String} {c : TokenContent}

/-- Reading gives one string token of the whole literal `x`, and leaves what stands behind it. -/
def ReadsLiteral (t : TokenStream σ) (x rest : Bytes) (s : String) : Prop :=
  ∃ token u, t.read = (.ok token, u) ∧ token.content = .string s ∧ utf8 token.lexeme = x ∧
    token.span = ⟨.start, .behind x⟩ ∧ u.position = .behind x ∧
    (Source.drain u.source).1 = rest ∧ (Source.drain u.source).2.1 = none

theorem read_of_alike (h : Source.Alike source (Slice.ofBytes data)) :
    (ofSource source).read.1 = (ofRest data .start data).read.1 ∧
      Related Source.Alike (ofSource source).read.2 (ofRest data .start data).read.2 := by
  obtain ⟨_, ⟨⟩, -⟩ | hread := (related_ofSource h).read Source.simulation_alike
  exact hread

theorem readsLiteral_of_stringText (hx : StringText x s)
    (h : Source.Alike source (Slice.ofBytes (x ++ rest))) :
    ReadsLiteral (ofSource source) x rest s := by
  obtain ⟨lexeme, hl⟩ := hx.exists_utf8
  have hspan : Position.start.after x = .behind x := Position.after_behind [] x
  obtain ⟨htoken, hrel⟩ := read_of_alike h
  have hread : (ofRest (x ++ rest) .start (x ++ rest)).read =
      (.ok ⟨.string s, lexeme, ⟨.start, .behind x⟩⟩, ofRest (x ++ rest) (.behind x) rest) := by
    rw [TokenStream.read, feed_ofRest, Lexer.run_stringText hx hl, hspan]
    rfl
  rw [hread] at htoken hrel
  have hdrain := hrel.source.drain
  rw [show (ofRest (x ++ rest) (.behind x) rest).source = .mk (x ++ rest) rest from rfl,
    Slice.drain_eq] at hdrain
  exact ⟨_, _, Prod.ext htoken rfl, rfl, hl, rfl, hrel.position, hdrain⟩

theorem stringText_of_quote (h : TokenText c (Ascii.quote :: z)) :
    ∃ s, StringText (Ascii.quote :: z) s := by
  cases h with
  | string h => exact ⟨_, h⟩
  | number h =>
    obtain ⟨t, ht, -⟩ := LiteralState.run?_of_numberText h
    cases ht

theorem stringText_of_read {token : Token} {u : TokenStream Slice}
    (h : (ofRest data .start (Ascii.quote :: rest)).read = (.ok token, u)) :
    ∃ x z s, StringText x s ∧ Ascii.quote :: rest = x ++ z := by
  obtain ⟨w, x, z, hdata, hstands, -, hend⟩ := stands_of_read h
  cases w with
  | cons b w =>
    have hb := hstands.blanks b List.mem_cons_self
    rw [← (List.cons.inj hdata).1] at hb
    cases hb
  | nil =>
    cases x with
    | nil =>
      have hz : Ascii.quote :: rest = z := hdata
      by_cases hc : token.content = .endOfInput
      · exact absurd (hz.trans (hend hc)) (by simp)
      · exact absurd (length_pos_of_tokenText hstands.text hc) (Nat.lt_irrefl 0)
    | cons b x =>
      obtain rfl := (List.cons.inj hdata).1
      obtain ⟨s, hs⟩ := stringText_of_quote hstands.text
      exact ⟨_, z, s, hs, hdata⟩

/-- Every spelling of a text, whichever of its spellings stands for each character, is read as the
text. A literal with a lone half anywhere in it is not read at all. -/
theorem read_literals :
    (∀ {x s}, StringText x s → ∀ rest, Source.Alike source (Slice.ofBytes (x ++ rest)) →
      ReadsLiteral (ofSource source) x rest s) ∧
    ∀ {before e after}, (∀ d ∈ before ++ e :: after, d.Legal) → Element.Lone before e after →
      ∀ rest, Source.Alike source (Slice.ofBytes (Ascii.quote ::
        ((before ++ e :: after).flatMap Element.bytes ++ Ascii.quote :: rest))) →
      ∃ fault, (ofSource source).read.1 = .error (.lexical fault) := by
  refine ⟨fun hx rest h => readsLiteral_of_stringText hx h,
    fun {before e after} hes hlone rest h => ?_⟩
  rw [(read_of_alike h).1]
  cases hr : (ofRest _ .start (Ascii.quote ::
    ((before ++ e :: after).flatMap Element.bytes ++ Ascii.quote :: rest))).read with
  | mk outcome u =>
    cases outcome with
    | error e =>
      obtain ⟨fault, rfl⟩ := lexical_of_read hr
      exact ⟨fault, rfl⟩
    | ok token =>
      obtain ⟨x, z, s, hx, hdata⟩ := stringText_of_read hr
      exact (Element.not_stringText hes hlone hx hdata).elim

/-- A pair in digits of both cases, a short escape and a raw character. Then half of a pair that has
a raw byte behind it. -/
theorem read_literals_mixed :
    StringText (utf8 "\"\\uD83d\\uDe00\\/é\"") "😀/é" ∧
      ReadsLiteral (ofSource (Slice.ofBytes (utf8 "\"\\uD83d\\uDe00\\/é\"" ++ [0xFF])))
        (utf8 "\"\\uD83d\\uDe00\\/é\"") [0xFF] "😀/é" ∧
      (∀ d ∈ [.raw 0x61] ++ .unit (utf8 "d83d") :: [.raw 0x62], Element.Legal d) ∧
      Element.Lone [.raw 0x61] (.unit (utf8 "d83d")) [.raw 0x62] ∧
      ∃ fault, (ofSource (Slice.ofBytes (utf8 "\"a\\ud83db\"]"))).read.1 =
        .error (.lexical fault) := by
  have hpair : EscapeText (utf8 "\\uD83d\\uDe00") '😀' :=
    @EscapeText.pair (utf8 "D83d") (utf8 "De00") 0xD83D 0xDE00 '😀' (Escape.unit?_eq_some_iff.mp rfl)
      (Escape.unit?_eq_some_iff.mp rfl) (by decide) (by decide) (by decide)
  have hraw : Spelling (String.utf8EncodeChar 'é') 'é' := .raw (by decide) (by decide) (by decide)
  have htext : StringText (utf8 "\"\\uD83d\\uDe00\\/é\"") "😀/é" :=
    ⟨_, .cons (.escape hpair) (.cons (.escape (.short .solidus)) (.cons hraw .nil)), by decide⟩
  have hlegal : ∀ d ∈ [.raw 0x61] ++ .unit (utf8 "d83d") :: [.raw 0x62], Element.Legal d := by
    simp only [List.cons_append, List.nil_append, List.forall_mem_cons, Element.Legal]
    exact ⟨by decide, rfl, by decide, List.forall_mem_nil _⟩
  have hlone : Element.Lone [.raw 0x61] (.unit (utf8 "d83d")) [.raw 0x62] :=
    .inl ⟨⟨0xD83D, Escape.unit?_eq_some_iff.mp rfl, by decide, by decide⟩, by rintro _ ⟨⟩ ⟨⟩⟩
  exact ⟨htext, (@read_literals Slice _ (Slice.ofBytes _)).1 htext _ (.refl _), hlegal, hlone,
    (@read_literals Slice _ (Slice.ofBytes _)).2 hlegal hlone (utf8 "]") (.refl _)⟩

end ExactJson
