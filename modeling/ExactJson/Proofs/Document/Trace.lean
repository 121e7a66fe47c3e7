import ExactJson.Document.Reader
import ExactJson.Proofs.Document.Machine
import ExactJson.Proofs.Token.Reads

/-! How far the reader follows a document: the tokens that it has taken, the state that they lead to
and what is left. What it answers depends on these alone. -/
namespace ExactJson.DocumentReader
open TokenStream (Reads)
variable {σ : Type} [Source σ] {options : ReadOptions}

inductive Follows (options : ReadOptions) : DocumentState → TokenStream σ → List Token →
    DocumentState → TokenStream σ → Prop where
  | nil (s : DocumentState) (t : TokenStream σ) : Follows options s t [] s t
  | cons {s s' s'' : DocumentState} {t u v : TokenStream σ} {token : Token} {ts : List Token}
      (h : t.read = (.ok token, u)) (hm : s.move options token = .take s')
      (hf : Follows options s' u ts s'' v) : Follows options s t (token :: ts) s'' v

def answer (options : ReadOptions) (s : DocumentState) (t : TokenStream σ) :
    Except ReadError Value :=
  match t.read with
  | (.error e, _) => .error e
  | (.ok token, tokens) => (goOn s ⟨tokens, token, options⟩).1

variable {s s' : DocumentState} {t u : TokenStream σ} {ts : List Token} {token : Token}

theorem goOn_fst (s : DocumentState) (r : DocumentReader σ) :
    (goOn s r).1 = match s.move r.options r.current with
      | .refuse e => .error e
      | .accept v => .ok v
      | .take next => answer r.options next r.tokens := by
  rw [goOn]
  split
  · rename_i h
    rw [h]
  · rename_i h
    rw [h]
  · rename_i next h
    simp only [h, answer]
    split <;> rename_i hr <;> rw [hr]

theorem readSource_eq_answer (source : σ) (options : ReadOptions) :
    readSource source options = answer options (.value []) (TokenStream.ofSource source) := by
  simp only [readSource, ofSource, answer]
  cases h : (TokenStream.ofSource source).read with
  | mk r tokens =>
    cases r with
    | error e => rfl
    | ok token => rfl

theorem answer_of_error {e : ReadError} (h : t.read = (.error e, u)) :
    answer options s t = .error e := by
  simp only [answer, h]

theorem answer_of_accept {v : Value} (h : t.read = (.ok token, u))
    (hm : s.move options token = .accept v) : answer options s t = .ok v := by
  simp only [answer, h, goOn_fst, hm]

theorem answer_of_refuse {e : ReadError} (h : t.read = (.ok token, u))
    (hm : s.move options token = .refuse e) : answer options s t = .error e := by
  simp only [answer, h, goOn_fst, hm]

theorem answer_of_take (h : t.read = (.ok token, u)) (hm : s.move options token = .take s') :
    answer options s t = answer options s' u := by
  rw [answer]
  simp only [h, goOn_fst, hm]

theorem Follows.answer (h : Follows options s t ts s' u) :
    answer options s t = answer options s' u := by
  induction h with
  | nil => rfl
  | cons h hm _ ih => rw [answer_of_take h hm, ih]

theorem Follows.reads (h : Follows options s t ts s' u) : Reads t ts u := by
  induction h with
  | nil => exact .nil _
  | cons h _ _ ih => exact .cons h ih

theorem Follows.append {us : List Token} {s₁ : DocumentState} {t₁ : TokenStream σ}
    (h : Follows options s t ts s₁ t₁) (hs : Follows options s₁ t₁ us s' u) :
    Follows options s t (ts ++ us) s' u := by
  induction h with
  | nil => exact hs
  | cons h hm _ ih => exact .cons h hm (ih hs)

theorem Follows.snoc (h : Follows options s t ts s' u) {v : TokenStream σ} {next : DocumentState}
    (hu : u.read = (.ok token, v)) (hm : s'.move options token = .take next) :
    Follows options s t (ts ++ [token]) next v :=
  h.append (.cons hu hm (.nil next v))

theorem Follows.split {us : List Token} (h : Follows options s t (us ++ ts) s' u) :
    ∃ s₁ t₁, Follows options s t us s₁ t₁ ∧ Follows options s₁ t₁ ts s' u := by
  induction us generalizing s t with
  | nil => exact ⟨s, t, .nil s t, h⟩
  | cons token us ih =>
    cases h with
    | cons hread hm hf =>
      obtain ⟨s₁, t₁, hus, hts⟩ := ih hf
      exact ⟨s₁, t₁, .cons hread hm hus, hts⟩

theorem Follows.mem_or_take {us : List Token} {s₁ : DocumentState} {t₁ : TokenStream σ}
    (h : Follows options s t ts s' u) (hu : Follows options s t (us ++ [token]) s₁ t₁) :
    (∃ rest, ts = us ++ token :: rest) ∨
      ∃ next v n, u.read = (.ok next, v) ∧ s'.move options next = .take n := by
  induction h generalizing us with
  | nil s t =>
    cases us with
    | nil =>
      cases hu with
      | cons hread hm _ => exact .inr ⟨_, _, _, hread, hm⟩
    | cons a us =>
      cases hu with
      | cons hread hm _ => exact .inr ⟨_, _, _, hread, hm⟩
  | cons hread hm _ ih =>
    cases us with
    | nil =>
      cases hu with
      | cons hread' _ _ =>
        cases hread.symm.trans hread'
        exact .inl ⟨_, rfl⟩
    | cons a us =>
      cases hu with
      | cons hread' hm' hu =>
        cases hread.symm.trans hread'
        cases hm.symm.trans hm'
        exact (ih hu).imp_left fun ⟨rest, hrest⟩ => ⟨rest, congrArg (_ :: ·) hrest⟩

theorem Follows.run (h : Follows options s t ts s' u) :
    ∃ as, ts.map (Token.symbol? options.fractions) = as.map some ∧
      DocumentState.Run options.maxDepth s as s' := by
  induction h with
  | nil => exact ⟨[], rfl, .nil _⟩
  | cons _ hm _ ih =>
    obtain ⟨a, ha, ht⟩ := DocumentState.takes_of_move hm
    obtain ⟨as, has, hr⟩ := ih
    exact ⟨a :: as, by rw [List.map_cons, List.map_cons, ha, has], .cons ht hr⟩

theorem Follows.of_run {as : List Symbol} (h : Reads t ts u)
    (ha : ts.map (Token.symbol? options.fractions) = as.map some)
    (hr : DocumentState.Run options.maxDepth s as s') : Follows options s t ts s' u := by
  induction hr generalizing t ts with
  | nil s =>
    obtain rfl := List.map_eq_nil_iff.mp ha
    cases h
    exact .nil s _
  | cons ht _ ih =>
    cases h with
    | nil => cases ha
    | cons h hs =>
      obtain ⟨hhead, htail⟩ := List.cons.inj ha
      exact .cons h (DocumentState.move_of_takes hhead ht) (ih hs htail)

theorem exists_follows (options : ReadOptions) (s : DocumentState) (t : TokenStream σ) :
    ∃ ts s' u, Follows options s t ts s' u ∧ ((∃ e v, u.read = (.error e, v)) ∨
      ∃ token v, u.read = (.ok token, v) ∧ ∀ n, s'.move options token ≠ .take n) := by
  have step (s : DocumentState) (r : DocumentReader σ) : r.options = options →
      ∀ t : TokenStream σ, t.read = (.ok r.current, r.tokens) → ∃ ts s' u,
        Follows options s t ts s' u ∧ ((∃ e v, u.read = (.error e, v)) ∨
          ∃ token v, u.read = (.ok token, v) ∧ ∀ n, s'.move options token ≠ .take n) := by
    fun_induction goOn s r with
    | case1 s r e hm =>
      rintro rfl t ht
      refine ⟨[], s, t, .nil s t, .inr ⟨r.current, r.tokens, ht, fun n hn => ?_⟩⟩
      rw [hm] at hn
      cases hn
    | case2 s r v hm =>
      rintro rfl t ht
      refine ⟨[], s, t, .nil s t, .inr ⟨r.current, r.tokens, ht, fun n hn => ?_⟩⟩
      rw [hm] at hn
      cases hn
    | case3 s r next hm e tokens hread =>
      rintro rfl t ht
      exact ⟨[r.current], next, r.tokens, .cons ht hm (.nil next r.tokens),
        .inl ⟨e, tokens, hread⟩⟩
    | case4 s r next hm token tokens hread ih =>
      rintro rfl t ht
      obtain ⟨ts, s', u, hf, hend⟩ := ih rfl r.tokens hread
      exact ⟨r.current :: ts, s', u, .cons ht hm hf, hend⟩
  cases h : t.read with
  | mk r u =>
    cases r with
    | error e => exact ⟨[], s, t, .nil s t, .inl ⟨e, u, h⟩⟩
    | ok token => exact step s ⟨u, token, options⟩ rfl t h

inductive Stops (options : ReadOptions) (s : DocumentState) (t : TokenStream σ) :
    Except ReadError Value → Prop where
  | unread {u : TokenStream σ} {e : ReadError} (h : t.read = (.error e, u)) :
      Stops options s t (.error e)
  | refused {u : TokenStream σ} {token : Token} {e : ReadError} (h : t.read = (.ok token, u))
      (hm : s.move options token = .refuse e) : Stops options s t (.error e)
  | accepted {u : TokenStream σ} {token : Token} {v : Value} (h : t.read = (.ok token, u))
      (hm : s.move options token = .accept v) : Stops options s t (.ok v)

theorem Stops.answer_eq {a : Except ReadError Value} (h : Stops options s t a) :
    answer options s t = a := by
  cases h with
  | unread h => exact answer_of_error h
  | refused h hm => exact answer_of_refuse h hm
  | accepted h hm => exact answer_of_accept h hm

/-- The reader follows a document until it stops, and answers what it stops with. -/
theorem exists_stops (options : ReadOptions) (s : DocumentState) (t : TokenStream σ) :
    ∃ ts s' u, Follows options s t ts s' u ∧ Stops options s' u (answer options s t) := by
  obtain ⟨ts, s', u, hf, hend⟩ := exists_follows options s t
  refine ⟨ts, s', u, hf, ?_⟩
  rw [hf.answer]
  obtain ⟨e, v, hread⟩ | ⟨token, v, hread, hnot⟩ := hend
  · rw [answer_of_error hread]
    exact .unread hread
  · cases hm : s'.move options token with
    | take n => exact absurd hm (hnot n)
    | refuse e =>
      rw [answer_of_refuse hread hm]
      exact .refused hread hm
    | accept w =>
      rw [answer_of_accept hread hm]
      exact .accepted hread hm

end ExactJson.DocumentReader
