import ExactJson.Proofs.Token.Completeness

/-! Tokens that are read one after another, and where they stand in bytes that are in memory. -/
namespace ExactJson
open Grammar

namespace TokenStream

section Streams
variable {σ : Type} [Source σ] {t u v : TokenStream σ} {ts us : List Token} {token : Token}

inductive Reads : TokenStream σ → List Token → TokenStream σ → Prop where
  | nil (t : TokenStream σ) : Reads t [] t
  | cons {t u v : TokenStream σ} {token : Token} {ts : List Token} (h : t.read = (.ok token, u))
      (hs : Reads u ts v) : Reads t (token :: ts) v

theorem Reads.append (h : Reads t ts u) (hs : Reads u us v) : Reads t (ts ++ us) v := by
  induction h with
  | nil => exact hs
  | cons h _ ih => exact .cons h (ih hs)

theorem Reads.eq_of_nil (h : Reads t [] u) : t = u := by
  cases h
  rfl

theorem Reads.of_append (h : Reads t (ts ++ us) v) : ∃ u, Reads t ts u ∧ Reads u us v := by
  induction ts generalizing t with
  | nil => exact ⟨t, .nil t, h⟩
  | cons token ts ih =>
    cases h with
    | cons h hs =>
      obtain ⟨u, hts, hus⟩ := ih hs
      exact ⟨u, .cons h hts, hus⟩

/-- Up to the end there is one sequence of tokens. -/
theorem Reads.unique {v' w : TokenStream σ} {a b : Token} (h : Reads t ts u) (hs : Reads t us v)
    (hts : ∀ s ∈ ts, s.content ≠ .endOfInput) (hus : ∀ s ∈ us, s.content ≠ .endOfInput)
    (hu : u.read = (.ok a, v')) (hv : v.read = (.ok b, w)) (ha : a.content = .endOfInput)
    (hb : b.content = .endOfInput) : ts = us := by
  induction h generalizing us with
  | nil =>
    cases hs with
    | nil => rfl
    | cons h _ =>
      rw [hu] at h
      cases h
      exact absurd ha (hus a List.mem_cons_self)
  | cons h _ ih =>
    cases hs with
    | nil =>
      rw [hv] at h
      cases h
      exact absurd hb (hts b List.mem_cons_self)
    | cons h' hs =>
      rw [h] at h'
      cases h'
      rw [ih hs (fun s hs => hts s (List.mem_cons_of_mem _ hs))
        (fun s hs => hus s (List.mem_cons_of_mem _ hs)) hu]

end Streams

def ofRest (data : Bytes) (p : Position) (bs : Bytes) : TokenStream Slice := ⟨⟨data, bs⟩, p, false⟩

variable {data bs : Bytes} {p : Position} {token : Token} {t u : TokenStream Slice}

theorem feed_slice (state : Lexer.State) (data : Bytes) (p : Position) (bs : Bytes)
    (finished : Bool) : feed state (.mk (Slice.mk data bs) p finished) =
      ((state.run p bs).1.mapError .lexical,
        .mk (.mk data (state.run p bs).2.2) (state.run p bs).2.1 finished) := by
  induction bs generalizing state p with
  | nil =>
    rw [feed]
    rfl
  | cons b bs ih =>
    rw [feed]
    simp only [Source.peek, List.head?_cons, Lexer.State.run]
    cases hs : state.step p b with
    | take next => exact ih next (p.next b)
    | takeLast outcome => rfl
    | leave outcome => rfl

theorem feed_ofRest (state : Lexer.State) (data : Bytes) (p : Position) (bs : Bytes) :
    feed state (ofRest data p bs) = ((state.run p bs).1.mapError .lexical,
      ofRest data (state.run p bs).2.1 (state.run p bs).2.2) :=
  feed_slice state data p bs false

@[simp] theorem mapError_eq_ok {outcome : Lexer.Outcome} :
    outcome.mapError ReadError.lexical = .ok token ↔ outcome = .ok token := by
  cases outcome with
  | error e => constructor <;> rintro ⟨⟩
  | ok t =>
    constructor
    · rintro ⟨⟩
      rfl
    · rintro ⟨⟩
      rfl

@[simp] theorem mapError_eq_error {outcome : Lexer.Outcome} {e : ReadError} :
    outcome.mapError ReadError.lexical = .error e ↔
      ∃ fault, outcome = .error fault ∧ e = .lexical fault := by
  cases outcome with
  | error fault =>
    constructor
    · rintro ⟨⟩
      exact ⟨fault, rfl, rfl⟩
    · rintro ⟨_, ⟨⟩, rfl⟩
      rfl
  | ok t =>
    constructor
    · rintro ⟨⟩
    · rintro ⟨_, ⟨⟩, -⟩

/-- A token that is read stands in the bytes, and the bytes behind it are left. -/
theorem stands_of_read (h : (ofRest data p bs).read = (.ok token, u)) :
    ∃ w x rest, bs = w ++ x ++ rest ∧ token.Stands p w x ∧
      u = ofRest data (p.after (w ++ x)) rest ∧ (token.content = .endOfInput → rest = []) := by
  rw [read, feed_ofRest] at h
  have hrun := mapError_eq_ok.mp (congrArg Prod.fst h)
  obtain ⟨w, x, hbs, hs, hp, hend⟩ := Lexer.stands_of_run (Prod.ext hrun rfl)
  exact ⟨w, x, _, hbs, hs, hp ▸ (congrArg Prod.snd h).symm, hend⟩

theorem lexical_of_read {e : ReadError} (h : (ofRest data p bs).read = (.error e, u)) :
    ∃ fault, e = .lexical fault := by
  rw [read, feed_ofRest] at h
  obtain ⟨fault, -, he⟩ := mapError_eq_error.mp (congrArg Prod.fst h)
  exact ⟨fault, he⟩

theorem read_of_stands {w x rest : Bytes} (h : token.Stands p w x) (he : Ends token.content rest) :
    (ofRest data p (w ++ x ++ rest)).read =
      (.ok token, ofRest data (p.after (w ++ x)) rest) := by
  rw [read, feed_ofRest, Lexer.run_of_stands h he]
  rfl

theorem length_pos_of_tokenText {c : TokenContent} {x : Bytes} (h : TokenText c x)
    (hc : c ≠ .endOfInput) : 0 < x.length := by
  cases h with
  | string h =>
    obtain ⟨y, -, rfl⟩ := h
    simp
  | number h =>
    obtain ⟨t, ht, hf⟩ := LiteralState.run?_of_numberText h
    cases x with
    | nil =>
      cases ht
      cases hf
    | cons b x => simp
  | endOfInput => exact absurd rfl hc
  | trueWord | falseWord | nullWord | openBrace | closeBrace | openBracket | closeBracket | colon
  | comma => decide

theorem Reads.ofRest {ts : List Token} (h : Reads (ofRest data p bs) ts u) :
    ∃ q rest, u = TokenStream.ofRest data q rest ∧ (∀ t ∈ ts, ∃ q w x, t.Stands q w x) ∧
      ((∀ t ∈ ts, t.content ≠ .endOfInput) → ts.length + rest.length ≤ bs.length) := by
  induction ts generalizing p bs with
  | nil =>
    cases h
    exact ⟨p, bs, rfl, fun _ ht => (List.not_mem_nil ht).elim, fun _ => by simp⟩
  | cons t ts ih =>
    cases h with
    | cons h hs =>
      obtain ⟨w, x, rest, rfl, ht, rfl, -⟩ := stands_of_read h
      obtain ⟨q, left, hu, hall, hlen⟩ := ih hs
      refine ⟨q, left, hu, ?_, fun hend => ?_⟩
      · rintro t' (_ | ⟨_, ht'⟩)
        · exact ⟨p, w, x, ht⟩
        · exact hall t' ht'
      · have hx := length_pos_of_tokenText ht.text (hend t List.mem_cons_self)
        have hrest := hlen fun t' ht' => hend t' (List.mem_cons_of_mem t ht')
        simp only [List.length_cons, List.length_append]
        omega

end TokenStream
end ExactJson
