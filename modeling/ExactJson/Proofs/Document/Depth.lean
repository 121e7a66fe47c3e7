import ExactJson.Proofs.Document.Expected

/-! The limit on nesting stops a document at the first bracket that goes too deep, and changes nothing
else. How deep a bracket is can be counted in the tokens before it. -/
namespace ExactJson
open Grammar TokenStream DocumentReader

namespace TokenKind

def opens : TokenKind → Bool
  | openBrace | openBracket => true
  | _ => false

def closes : TokenKind → Bool
  | closeBrace | closeBracket => true
  | _ => false

end TokenKind

def nesting (ks : List TokenKind) : Nat := ks.countP TokenKind.opens - ks.countP TokenKind.closes

namespace DocumentState
variable {limit : Nat} {s t : DocumentState} {a : Symbol} {as : List Symbol}
variable {stack : List Frame} {token : Token}

theorem neutral_of_value? {v : Value} (h : a.value? = some v) :
    a.kind.opens = false ∧ a.kind.closes = false := by
  cases a with
  | string | number | null => exact ⟨rfl, rfl⟩
  | boolean b => cases b <;> exact ⟨rfl, rfl⟩
  | openBrace | closeBrace | openBracket | closeBracket | colon | comma => cases h

theorem Takes.containers_eq (h : Takes limit s a t) :
    t.containers + (if a.kind.closes then 1 else 0) =
      s.containers + if a.kind.opens then 1 else 0 := by
  cases h with
  | scalar hb hv =>
    obtain ⟨ho, hc⟩ := neutral_of_value? hv
    rw [containers_complete, hb.containers_eq, ho, hc]
  | openBrace hb | openBracket hb =>
    rw [hb.containers_eq]
    rfl
  | emptyArray | closeArray | emptyObject | closeObject =>
    rw [containers_complete]
    rfl
  | itemComma | firstName | name | colon | memberComma => rfl

theorem Run.containers_eq (h : Run limit s as t) :
    t.containers + (as.map Symbol.kind).countP TokenKind.closes =
      s.containers + (as.map Symbol.kind).countP TokenKind.opens := by
  induction h with
  | nil => rfl
  | @cons s t u a as h _ ih =>
    have hstep := h.containers_eq
    rw [List.map_cons, List.countP_cons, List.countP_cons]
    omega

theorem Takes.containers_le_limit (h : Takes limit s a t) (hs : s.containers ≤ limit) :
    t.containers ≤ limit := by
  cases h with
  | openBrace hb hd | openBracket hb hd => exact hd
  | scalar hb =>
    rw [containers_complete, ← hb.containers_eq]
    exact hs
  | emptyArray | closeArray | emptyObject | closeObject =>
    rw [containers_complete]
    exact Nat.le_of_succ_le hs
  | itemComma | firstName | name | colon | memberComma => exact hs

theorem Run.containers_le_limit (h : Run limit s as t) (hs : s.containers ≤ limit) :
    t.containers ≤ limit := by
  induction h with
  | nil => exact hs
  | cons h _ ih => exact ih (h.containers_le_limit hs)

/-- What a limit can have to do with a token inside some containers: it decides whether a bracket or
brace opens one more, and nothing else. -/
def Limits (containers : Nat) (token : Token) (moves : Nat → Move) : Prop :=
  (token.kind.opens = true ∧ ∃ next, ∀ limit, moves limit =
      if limit < containers + 1 then .refuse (.tooDeep limit token.span.start) else .take next) ∨
    ∃ m, (∀ limit, moves limit = m) ∧ (token.kind.opens = true → ∀ next, m ≠ .take next)

theorem Limits.lt_of_take {containers : Nat} {moves : Nat → Move} {next : DocumentState}
    (h : Limits containers token moves) (ho : token.kind.opens = true)
    (hm : moves limit = .take next) : containers < limit := by
  obtain ⟨-, _, hlimit⟩ | ⟨m, hlimit, hne⟩ := h
  · rw [hlimit] at hm
    split at hm
    · cases hm
    · omega
  · rw [hlimit] at hm
    exact absurd hm (hne ho next)

theorem limits_beginValue (policy : FractionPolicy) (expected : KindSet) (stack : List Frame)
    (token : Token) :
    Limits stack.length token fun limit => beginValue ⟨limit, policy⟩ expected stack token := by
  obtain ⟨c, lexeme, span⟩ := token
  cases c with
  | openBrace | openBracket => exact .inl ⟨rfl, _, fun _ => rfl⟩
  | string | null | closeBrace | closeBracket | colon | comma | endOfInput =>
    exact .inr ⟨_, fun _ => rfl, fun h => absurd h Bool.false_ne_true⟩
  | number form =>
    exact .inr ⟨.take (complete (.number (.ofLiteral policy form lexeme)) stack), fun _ => rfl,
      fun h => absurd h Bool.false_ne_true⟩
  | boolean b =>
    cases b <;> exact .inr ⟨_, fun _ => rfl, fun h => absurd h Bool.false_ne_true⟩

theorem limits_move (policy : FractionPolicy) (s : DocumentState) (token : Token) :
    Limits s.containers token fun limit => s.move ⟨limit, policy⟩ token := by
  cases s with
  | value stack => exact limits_beginValue policy _ stack token
  | firstItem stack =>
    by_cases hc : token.content = .closeBracket
    · refine .inr ⟨.take (complete (.array []) stack), fun _ => by simp [move, hc], fun h => ?_⟩
      simp [Token.kind, hc, TokenContent.kind, TokenKind.opens] at h
    · simp only [move_firstItem hc]
      exact limits_beginValue policy _ (.array [] :: stack) token
  | itemEnd | firstName | name | colon | memberEnd | documentEnd =>
    obtain ⟨c, lexeme, span⟩ := token
    cases c with
    | boolean | openBrace | openBracket =>
      exact .inr ⟨_, fun _ => rfl, fun _ _ => Move.noConfusion⟩
    | closeBrace | closeBracket | colon | comma | string | number | null | endOfInput =>
      exact .inr ⟨_, fun _ => rfl, fun h => absurd h Bool.false_ne_true⟩

end DocumentState

namespace DocumentReader
variable {σ : Type} [Source σ] {options : ReadOptions} {policy : FractionPolicy} {limit limit' : Nat}
variable {s s' : DocumentState} {t u : TokenStream σ} {ts us more : List Token} {token : Token}

/-- The containers that are open are counted by the brackets and braces that have been taken. -/
theorem Follows.nesting_eq (h : Follows options (.value []) t ts s u) :
    nesting (ts.map Token.kind) = s.containers := by
  obtain ⟨as, has, hr⟩ := h.run
  have hkinds : ts.map Token.kind = as.map Symbol.kind :=
    map_of_symbols has fun _ _ _ ha => (Token.kind_of_symbol? ha).symm
  have hcount := hr.containers_eq
  rw [show (DocumentState.value []).containers = 0 from rfl] at hcount
  rw [nesting, hkinds]
  omega

theorem Follows.containers_le (h : Follows options (.value []) t ts s u) :
    s.containers ≤ options.maxDepth := by
  obtain ⟨as, -, hr⟩ := h.run
  exact hr.containers_le_limit (Nat.zero_le _)

theorem Follows.raise (h : Follows ⟨limit, policy⟩ s t ts s' u) (hl : limit ≤ limit') :
    Follows ⟨limit', policy⟩ s t ts s' u := by
  obtain ⟨as, has, hr⟩ := h.run
  exact .of_run h.reads has (hr.mono hl)

theorem Follows.nesting_lt (h : Follows ⟨limit, policy⟩ (.value []) t (us ++ token :: more) s u)
    (ho : token.kind.opens = true) : nesting (us.map Token.kind) < limit := by
  obtain ⟨s₁, t₁, hus, hmore⟩ := h.split
  rw [hus.nesting_eq]
  cases hmore with
  | cons _ hm _ => exact (DocumentState.limits_move policy s₁ token).lt_of_take ho hm

end DocumentReader

variable {data : Bytes} {policy : FractionPolicy} {limit limit' depth : Nat} {ts : List Token}
variable {t : Token}

/-- When the document is read, `t` opens a container behind the tokens `ts`, inside so many others. -/
def OpensAt (data : Bytes) (options : ReadOptions) (depth : Nat) (ts : List Token) (t : Token) :
    Prop :=
  (∃ s u, Follows options (.value []) (TokenStream.ofSource (Slice.ofBytes data)) (ts ++ [t]) s u) ∧
    t.kind.opens = true ∧ nesting (ts.map Token.kind) = depth

def OpensFirst (data : Bytes) (options : ReadOptions) (depth : Nat) (ts : List Token) (t : Token) :
    Prop :=
  OpensAt data options depth ts t ∧
    ∀ us b more, ts = us ++ b :: more → b.kind.opens = true → nesting (us.map Token.kind) ≠ depth

theorem OpensAt.lt_length (h : OpensAt data ⟨limit, policy⟩ depth ts t) : depth < data.length := by
  obtain ⟨⟨s, u, hf⟩, ho, rfl⟩ := h
  obtain ⟨as, has, -⟩ := hf.run
  obtain ⟨q, rest, -, -, hlen⟩ := Reads.ofRest (p := .start) hf.reads
  have hbytes := hlen (content_ne_of_symbols has)
  have hcount := List.countP_le_length (p := TokenKind.opens) (l := ts.map Token.kind)
  rw [List.length_append, List.length_singleton] at hbytes
  rw [List.length_map] at hcount
  rw [nesting]
  omega

theorem OpensAt.lt_limit (h : OpensAt data ⟨limit, policy⟩ depth ts t) : depth < limit := by
  obtain ⟨⟨s, u, hf⟩, ho, rfl⟩ := h
  exact hf.nesting_lt ho

/-- Under two limits a document is read in the same way, unless the smaller one is exceeded: then by
the first bracket that is so deep. -/
theorem readBytes_raise (data : Bytes) (policy : FractionPolicy) (hl : limit ≤ limit') :
    (∃ ts t, OpensFirst data ⟨limit', policy⟩ limit ts t ∧
        readBytes data ⟨limit, policy⟩ = .error (.tooDeep limit t.span.start)) ∨
      (∀ ts t, ¬ OpensAt data ⟨limit', policy⟩ limit ts t) ∧
        readBytes data ⟨limit, policy⟩ = readBytes data ⟨limit', policy⟩ := by
  obtain rfl | hlt := Nat.eq_or_lt_of_le hl
  · exact .inr ⟨fun us b h => Nat.lt_irrefl _ h.lt_limit, rfl⟩
  obtain ⟨ts, s, u, hf, hend⟩ := exists_follows ⟨limit, policy⟩ (.value []) (ofRest data .start data)
  have hf' := hf.raise hl
  -- No bracket that has been taken is as deep as the limit, so such a one would have to come next.
  have hnext (us : List Token) (b : Token) (h : OpensAt data ⟨limit', policy⟩ limit us b) :
      ∃ t v n, u.read = (.ok t, v) ∧ s.move ⟨limit', policy⟩ t = .take n := by
    obtain ⟨⟨s₁, u₁, hus⟩, ho, hn⟩ := h
    obtain ⟨rest, rfl⟩ | h := hf'.mem_or_take hus
    · exact absurd hn (Nat.ne_of_lt (hf.nesting_lt ho))
    · exact h
  rw [readBytes_eq_answer, readBytes_eq_answer, hf.answer, hf'.answer]
  obtain ⟨e, v, hread⟩ | ⟨t, v, hread, hnot⟩ := hend
  · refine .inr ⟨fun us b h => ?_, by rw [answer_of_error hread, answer_of_error hread]⟩
    obtain ⟨t, v', n, hread', -⟩ := hnext us b h
    cases hread.symm.trans hread'
  · obtain ⟨ho, next, hlimit⟩ | ⟨m, hlimit, -⟩ := DocumentState.limits_move policy s t
    · have hlimit (k : Nat) : s.move ⟨k, policy⟩ t = _ := hlimit k
      have hfull : limit < s.containers + 1 := Nat.lt_of_not_le fun hle =>
        hnot next ((hlimit limit).trans (if_neg (Nat.not_lt_of_le hle)))
      have hopen : s.containers ≤ limit := hf.containers_le
      have htake : s.move ⟨limit', policy⟩ t = .take next := by
        rw [hlimit, if_neg (by omega)]
      refine .inl ⟨ts, t, ⟨⟨⟨next, v, hf'.snoc hread htake⟩, ho, ?_⟩, ?_⟩, ?_⟩
      · rw [hf.nesting_eq]
        omega
      · rintro us b more rfl hb
        exact Nat.ne_of_lt (hf.nesting_lt hb)
      · exact answer_of_refuse hread ((hlimit limit).trans (if_pos hfull))
    · have hsame (k : Nat) : s.move ⟨k, policy⟩ t = m := hlimit k
      refine .inr ⟨fun us b h => ?_, ?_⟩
      · obtain ⟨t', v', n, hread', hm⟩ := hnext us b h
        cases hread.symm.trans hread'
        exact hnot n ((hsame limit).trans ((hsame limit').symm.trans hm))
      · cases hm : m with
        | take n => exact absurd ((hsame limit).trans hm) (hnot n)
        | accept w =>
          rw [answer_of_accept hread ((hsame _).trans hm), answer_of_accept hread ((hsame _).trans hm)]
        | refuse e =>
          rw [answer_of_refuse hread ((hsame _).trans hm), answer_of_refuse hread ((hsame _).trans hm)]

/-- The limit on nesting is met exactly at the first bracket that is inside so many containers, and
changes nothing otherwise. -/
theorem readBytes_limit (h : data.length ≤ limit') :
    ((∃ ts t, OpensAt data ⟨limit', policy⟩ limit ts t) →
      ∃ ts t, OpensFirst data ⟨limit', policy⟩ limit ts t ∧
        readBytes data ⟨limit, policy⟩ = .error (.tooDeep limit t.span.start)) ∧
    ((∀ ts t, ¬ OpensAt data ⟨limit', policy⟩ limit ts t) →
      readBytes data ⟨limit, policy⟩ = readBytes data ⟨limit', policy⟩) ∧
    (∀ tree, ItemText policy data tree →
      ((∃ v, readBytes data ⟨limit, policy⟩ = .ok v) ↔ tree.depth ≤ limit)) ∧
    ∀ larger, limit ≤ larger → (∀ l p, readBytes data ⟨limit, policy⟩ ≠ .error (.tooDeep l p)) →
      readBytes data ⟨larger, policy⟩ = readBytes data ⟨limit, policy⟩ := by
  have hraise : (∃ ts t, OpensFirst data ⟨limit', policy⟩ limit ts t ∧
        readBytes data ⟨limit, policy⟩ = .error (.tooDeep limit t.span.start)) ∨
      (∀ ts t, ¬ OpensAt data ⟨limit', policy⟩ limit ts t) ∧
        readBytes data ⟨limit, policy⟩ = readBytes data ⟨limit', policy⟩ := by
    obtain hle | hle := Nat.le_total limit limit'
    · exact readBytes_raise data policy hle
    · -- Neither limit can be met, for want of bytes.
      obtain ⟨ts, t, ⟨hopens, -⟩, -⟩ | ⟨-, heq⟩ := readBytes_raise data policy hle
      · exact absurd hopens.lt_length (Nat.not_lt_of_le h)
      · refine .inr ⟨fun ts t hopens => ?_, heq.symm⟩
        exact absurd hopens.lt_limit (Nat.not_lt_of_le hle)
  refine ⟨fun ⟨ts, t, hopens⟩ => ?_, fun hnone => ?_, fun tree htree => ⟨?_, fun hd => ?_⟩,
    fun larger hle hne => ?_⟩
  · exact hraise.resolve_right fun hnone => hnone.1 ts t hopens
  · obtain ⟨ts, t, ⟨hopens, -⟩, -⟩ | ⟨-, heq⟩ := hraise
    · exact absurd hopens (hnone ts t)
    · exact heq
  · rintro ⟨v, hv⟩
    obtain ⟨other, -, hother, -, hd, -⟩ := exists_of_readBytes hv
    exact itemText_unique htree hother ▸ hd
  · have hitem : ItemText (ReadOptions.mk limit policy).fractions data tree := htree
    exact ⟨_, readBytes_of_itemText hitem hd⟩
  · obtain ⟨ts, t, -, hdeep⟩ | ⟨-, heq⟩ := readBytes_raise data policy hle
    · exact absurd hdeep (hne _ _)
    · exact heq.symm

/-- The second bracket is one too many, before the fault behind it. -/
theorem readBytes_limit_second :
    (Text.utf8 "[[x").length ≤ 3 ∧
      OpensAt (Text.utf8 "[[x") ⟨3, .exact⟩ 1 [⟨.openBracket, "[", ⟨⟨1, 1, 0⟩, ⟨1, 2, 1⟩⟩⟩]
        ⟨.openBracket, "[", ⟨⟨1, 2, 1⟩, ⟨1, 3, 2⟩⟩⟩ ∧
      ∃ ts t, OpensFirst (Text.utf8 "[[x") ⟨3, .exact⟩ 1 ts t ∧
        readBytes (Text.utf8 "[[x") ⟨1, .exact⟩ = .error (.tooDeep 1 t.span.start) := by
  have hlen : (Text.utf8 "[[x").length ≤ 3 := by decide
  have hfirst : Token.Stands ⟨.openBracket, "[", ⟨⟨1, 1, 0⟩, ⟨1, 2, 1⟩⟩⟩ ⟨1, 1, 0⟩ []
      [Ascii.openBracket] := ⟨.nil, .openBracket, rfl, rfl⟩
  have hsecond : Token.Stands ⟨.openBracket, "[", ⟨⟨1, 2, 1⟩, ⟨1, 3, 2⟩⟩⟩ ⟨1, 2, 1⟩ []
      [Ascii.openBracket] := ⟨.nil, .openBracket, rfl, rfl⟩
  have hread₁ : (ofRest (Text.utf8 "[[x") ⟨1, 1, 0⟩
    ([] ++ [Ascii.openBracket] ++ [Ascii.openBracket, 0x78])).read = _ :=
      read_of_stands hfirst trivial
  have hread₂ : (ofRest (Text.utf8 "[[x") ⟨1, 2, 1⟩ ([] ++ [Ascii.openBracket] ++ [0x78])).read = _ :=
    read_of_stands hsecond trivial
  have hopens : OpensAt (Text.utf8 "[[x") ⟨3, .exact⟩ 1
      [⟨.openBracket, "[", ⟨⟨1, 1, 0⟩, ⟨1, 2, 1⟩⟩⟩]
      ⟨.openBracket, "[", ⟨⟨1, 2, 1⟩, ⟨1, 3, 2⟩⟩⟩ :=
    ⟨⟨_, _, .cons hread₁ rfl (.cons hread₂ rfl (.nil _ _))⟩, rfl, rfl⟩
  exact ⟨hlen, hopens, (readBytes_limit hlen).1 ⟨_, _, hopens⟩⟩

end ExactJson
