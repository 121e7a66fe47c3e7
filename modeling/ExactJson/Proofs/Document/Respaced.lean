import ExactJson.Proofs.Token.Respaced

/-! Documents whose tokens are the same. The reader looks at nothing but what the tokens are, so that it
answers with the same value, or with the same error about the token at the same place. -/
namespace ExactJson
open Grammar Text TokenStream

def ReadError.about (u : Token) : ReadError → ReadError
  | unexpected _ expected => unexpected u expected
  | tooDeep limit _ => tooDeep limit u.span.start
  | lexical e => lexical e
  | input e => input e

inductive SameAnswer (options : ReadOptions) (ts us : List Token) :
    Except ReadError Value → Except ReadError Value → Prop where
  | value (v : Value) : SameAnswer options ts us (.ok v) (.ok v)
  | error {i : Nat} {t u : Token} {e : ReadError} (ht : ts[i]? = some t) (hu : us[i]? = some u)
      (he : DocumentState.Blames options e t) :
      SameAnswer options ts us (.error e) (.error (e.about u))

variable {options : ReadOptions} {ts us : List Token} {t u : Token} {data w : Bytes}
variable {ps : List (String × Bytes)}

theorem SameAnswer.cons {a b : Except ReadError Value} (h : SameAnswer options ts us a b) :
    SameAnswer options (t :: ts) (u :: us) a b := by
  cases h with
  | value v => exact .value v
  | @error i t u e ht hu he => exact @SameAnswer.error _ _ _ (i + 1) t u e ht hu he

namespace DocumentState
variable {stack : List Frame}

def Move.about (u : Token) : Move → Move
  | take next => take next
  | accept v => accept v
  | refuse e => refuse (e.about u)

theorem enter_about (next : DocumentState) :
    enter options stack u next = (enter options stack t next).about u := by
  simp only [enter]
  split <;> rfl

theorem beginValue_about (h : u.body = t.body) (expected : KindSet) (stack : List Frame) :
    beginValue options expected stack u = (beginValue options expected stack t).about u := by
  obtain ⟨content, lexeme, span⟩ := t
  cases u
  cases h
  cases content with
  | openBrace | openBracket => exact enter_about _
  | _ => rfl

/-- What the machine does with a token depends on its content and its text alone. -/
theorem move_about (h : u.body = t.body) (options : ReadOptions) (s : DocumentState) :
    s.move options u = (s.move options t).about u := by
  cases s with
  | value stack => exact beginValue_about h _ stack
  | firstItem stack =>
    by_cases hc : t.content = .closeBracket
    · rw [move_closeBracket hc, move_closeBracket ((content_eq_of_body h).trans hc)]
      rfl
    · have hu : u.content ≠ .closeBracket := content_eq_of_body h ▸ hc
      rw [move_firstItem hc, move_firstItem hu]
      exact beginValue_about h _ _
  | itemEnd | firstName | name | colon | memberEnd | documentEnd =>
    obtain ⟨content, lexeme, span⟩ := t
    cases u
    cases h
    cases content <;> rfl

end DocumentState

namespace DocumentReader
variable {σ τ : Type} [Source σ] [Source τ] {x x' : TokenStream σ} {y y' : TokenStream τ}

theorem sameAnswer_of_reads (h : Reads x ts x') (hu : Reads y us y')
    (hbody : us.map Token.body = ts.map Token.body) (hend : ∃ t ∈ ts, t.content = .endOfInput)
    (s : DocumentState) : SameAnswer options ts us (answer options s x) (answer options s y) := by
  induction h generalizing us y s with
  | nil x =>
    obtain ⟨t, ht, -⟩ := hend
    cases ht
  | @cons x x' _ t ts hread _ ih =>
    cases hu with
    | nil => cases hbody
    | @cons _ y' _ u us hread' hus =>
      obtain ⟨hsame, hbody⟩ := List.cons.inj hbody
      have hmove := DocumentState.move_about hsame options s
      cases hm : s.move options t with
      | take next =>
        rw [hm] at hmove
        rw [answer_of_take hread hm, answer_of_take hread' hmove]
        -- The end of the document is not taken, so it is still to come.
        have hkind := DocumentState.kind_of_move_eq_take hm
        obtain ⟨a, ha, hc⟩ := hend
        obtain rfl | ha := List.mem_cons.mp ha
        · exact absurd (TokenContent.kind_eq_endOfInput.mpr hc) hkind
        · exact (ih hus hbody ⟨a, ha, hc⟩ next).cons
      | accept v =>
        rw [hm] at hmove
        rw [answer_of_accept hread hm, answer_of_accept hread' hmove]
        exact .value v
      | refuse e =>
        rw [hm] at hmove
        rw [answer_of_refuse hread hm, answer_of_refuse hread' hmove]
        exact @SameAnswer.error _ _ _ 0 t u e rfl rfl (DocumentState.blames_of_move hm)

end DocumentReader

theorem sameAnswer_of_tokens {data' : Bytes} (h : Tokens data ts) (hu : Tokens data' us)
    (hbody : us.map Token.body = ts.map Token.body) (options : ReadOptions) :
    SameAnswer options (ts ++ [.atEnd data]) (us ++ [.atEnd data']) (readBytes data options)
      (readBytes data' options) := by
  obtain ⟨x, hts⟩ := h.exists_reads_atEnd
  obtain ⟨y, hus⟩ := hu.exists_reads_atEnd
  rw [readBytes_eq_answer, readBytes_eq_answer]
  refine DocumentReader.sameAnswer_of_reads hts hus ?_ ⟨.atEnd data, by simp, rfl⟩ (.value [])
  rw [List.map_append, List.map_append, hbody]
  rfl

structure Token.Carries (t : Token) : Prop where
  string : t.kind = .string → ∃ s, t.string? = some s ∧ StringText (utf8 t.lexeme) s
  number : t.kind = .number → ∃ form, t.form? = some form ∧ NumberForm.ofText? t.lexeme = some form

theorem Token.carries (h : TokenText t.content (utf8 t.lexeme)) : t.Carries := by
  obtain ⟨content, lexeme, span⟩ := t
  cases content with
  | string s =>
    refine ⟨fun _ => ⟨s, rfl, ?_⟩, nofun⟩
    cases h with
    | string h => exact h
  | number form =>
    exact ⟨nofun, fun _ => ⟨form, rfl, NumberForm.ofText?_eq_some_iff.mpr h.numberText⟩⟩
  | boolean b => cases b <;> exact ⟨nofun, nofun⟩
  | openBrace | closeBrace | openBracket | closeBracket | colon | comma | null | endOfInput =>
    exact ⟨nofun, nofun⟩

/-- The text of each token of a document is that token by itself, too, and carries what it does there.
With any blanks between them, before and behind, the texts are read as the same tokens, and the document
that they make is answered with the same value, or with the same error about the same token. -/
theorem tokens_respaced (h : Tokens data ts) :
    (∀ t ∈ ts, t.Carries ∧ ∃ u, Tokens (utf8 t.lexeme) [u] ∧ u.body = t.body) ∧
    ∀ w ps, Spaced w ps → ps.map Prod.fst = ts.map Token.lexeme →
      ∃ us, Tokens (joined w ps) us ∧ us.map Token.body = ts.map Token.body ∧
        ∀ options, SameAnswer options (ts ++ [.atEnd data]) (us ++ [.atEnd (joined w ps)])
          (readBytes data options) (readBytes (joined w ps) options) := by
  have htext := h.tokenText
  refine ⟨fun t ht => ⟨Token.carries (htext t ht), tokens_lexeme (htext t ht) (h.1 t ht)⟩, ?_⟩
  intro w ps hs hps
  obtain ⟨us, hus, hbody⟩ := tokens_joined htext h.1 hs hps
  exact ⟨us, hus, hbody, sameAnswer_of_tokens h hus hbody⟩

/-- Two tokens that touch, and the same with blanks around them. -/
theorem tokens_respaced_bracket :
    ∃ ts us, Tokens (utf8 "[1") ts ∧ Spaced [Ascii.space] [("[", [Ascii.tab]), ("1", [])] ∧
      Tokens (utf8 " [\t1") us ∧ us.map Token.body = ts.map Token.body ∧
        SameAnswer {} (ts ++ [.atEnd (utf8 "[1")]) (us ++ [.atEnd (utf8 " [\t1")])
          (readBytes (utf8 "[1") {}) (readBytes (utf8 " [\t1") {}) := by
  have hnumber : NumberText .integer [0x31] := LiteralState.numberText_iff.mpr ⟨.whole, rfl, rfl⟩
  have hbracket : Token.Stands ⟨.openBracket, "[", ⟨.start, ⟨1, 2, 1⟩⟩⟩ .start [] [Ascii.openBracket] :=
    ⟨.nil, .openBracket, rfl, rfl⟩
  have hone : Token.Stands ⟨.number .integer, "1", ⟨⟨1, 2, 1⟩, ⟨1, 3, 2⟩⟩⟩ ⟨1, 2, 1⟩ [] [0x31] :=
    ⟨.nil, .number hnumber, rfl, rfl⟩
  have hend : Token.Stands ⟨.endOfInput, "", ⟨⟨1, 3, 2⟩, ⟨1, 3, 2⟩⟩⟩ ⟨1, 3, 2⟩ [] [] :=
    ⟨.nil, .endOfInput, rfl, rfl⟩
  have hfirst : (ofRest (utf8 "[1") .start ([] ++ [Ascii.openBracket] ++ [0x31])).read = _ :=
    read_of_stands hbracket trivial
  have hsecond : (ofRest (utf8 "[1") ⟨1, 2, 1⟩ ([] ++ [0x31] ++ [])).read = _ :=
    read_of_stands hone .nil
  have hthird : (ofRest (utf8 "[1") ⟨1, 3, 2⟩ ([] ++ [] ++ [])).read = _ := read_of_stands hend rfl
  have htokens : Tokens (utf8 "[1") [⟨.openBracket, "[", ⟨.start, ⟨1, 2, 1⟩⟩⟩,
      ⟨.number .integer, "1", ⟨⟨1, 2, 1⟩, ⟨1, 3, 2⟩⟩⟩] :=
    ⟨by simp, _, _, _, .cons hfirst (.cons hsecond (.nil _)), hthird, rfl⟩
  have hspaced : Spaced [Ascii.space] [("[", [Ascii.tab]), ("1", [])] :=
    ⟨by simp [Blanks, Ascii.isBlank], by simp [Blanks, Ascii.isBlank], by simp⟩
  obtain ⟨us, hus, hbody, hanswer⟩ := (tokens_respaced htokens).2 _ _ hspaced rfl
  exact ⟨_, us, htokens, hspaced, hus, hbody, hanswer {}⟩

end ExactJson
