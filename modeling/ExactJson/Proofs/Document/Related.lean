import ExactJson.Proofs.Document.Trace
import ExactJson.Proofs.Token.Related

/-! Documents over related sources. What is read from them is the same up to the first failure, however
often the reader is used. -/
namespace ExactJson

namespace DocumentReader

section Readings
variable {σ : Type} [Source σ]

def readings (r : DocumentReader σ) : Nat → List (Except ReadError Value)
  | 0 => []
  | n + 1 => r.read.1 :: r.read.2.readings n

theorem goOn_eq (s : DocumentState) (r : DocumentReader σ) :
    r.goOn s = match s.move r.options r.current with
      | .refuse e => (.error e, r)
      | .accept v => (.ok v, r)
      | .take next => match r.tokens.read.1 with
        | .error e => (.error e, { r with tokens := r.tokens.read.2 })
        | .ok token => goOn next { r with tokens := r.tokens.read.2, current := token } := by
  rw [goOn]
  split <;> rename_i h <;> simp only [h]
  split <;> rename_i ht <;> simp only [ht]

theorem ofSource_eq (source : σ) (options : ReadOptions) :
    ofSource source options =
      (TokenStream.ofSource source).read.1.map fun token =>
        ⟨(TokenStream.ofSource source).read.2, token, options⟩ := by
  simp only [ofSource]
  cases (TokenStream.ofSource source).read with
  | mk outcome t => cases outcome <;> rfl

theorem read_of_ofSource {source : σ} {options : ReadOptions} {r : DocumentReader σ}
    (h : ofSource source options = .ok r) :
    (TokenStream.ofSource source).read = (.ok r.current, r.tokens) ∧ r.options = options := by
  rw [ofSource] at h
  split at h
  · cases h
  · rename_i hread
    cases h
    exact ⟨hread, rfl⟩

theorem ofSource_of_read {source : σ} {token : Token} {tokens : TokenStream σ}
    (options : ReadOptions) (h : (TokenStream.ofSource source).read = (.ok token, tokens)) :
    ofSource source options = .ok ⟨tokens, token, options⟩ := by
  simp only [ofSource, h]

theorem goOn_of_take {s next : DocumentState} {r : DocumentReader σ} {token : Token}
    {tokens : TokenStream σ} (hm : s.move r.options r.current = .take next)
    (ht : r.tokens.read = (.ok token, tokens)) :
    r.goOn s = goOn next ⟨tokens, token, r.options⟩ := by
  rw [goOn_eq, hm]
  simp only [ht]

@[simp] theorem options_goOn (s : DocumentState) (r : DocumentReader σ) :
    (r.goOn s).2.options = r.options := by
  fun_induction goOn s r with
  | case1 | case2 | case3 => rfl
  | case4 s r next hm token tokens hread ih => exact ih

end Readings

variable {σ τ : Type} {breaks : IoError → Prop} {R : σ → τ → Prop} {options : ReadOptions}
variable {r : DocumentReader σ} {q : DocumentReader τ}

structure Related (R : σ → τ → Prop) (r : DocumentReader σ) (q : DocumentReader τ) : Prop where
  tokens : TokenStream.Related R r.tokens q.tokens
  current : r.current = q.current
  options : r.options = q.options

variable [Source σ] [Source τ]

theorem Related.goOn (hR : Source.Simulation breaks R) (h : Related R r q) (s : DocumentState) :
    Agree breaks (Related R) (r.goOn s) (q.goOn s) := by
  fun_induction DocumentReader.goOn s r generalizing q with
  | case1 s r e hm | case2 s r v hm =>
    rw [goOn_eq s q, ← h.current, ← h.options, hm]
    exact .inr ⟨rfl, h⟩
  | case3 s r next hm e tokens hread =>
    rw [goOn_eq s q, ← h.current, ← h.options, hm]
    have ht := h.tokens.read hR
    rw [hread] at ht
    obtain ⟨e', he, heq⟩ | ⟨heq, hnext⟩ := ht
    · exact .inl ⟨e', he, congrArg (Except.error ·) (Except.error.inj heq)⟩
    · simp only [← heq]
      exact .inr ⟨rfl, hnext, rfl, rfl⟩
  | case4 s r next hm token tokens hread ih =>
    rw [goOn_eq s q, ← h.current, ← h.options, hm]
    have ht := h.tokens.read hR
    rw [hread] at ht
    obtain ⟨e', he, heq⟩ | ⟨heq, hnext⟩ := ht
    · cases heq
    · simp only [← heq]
      exact ih ⟨hnext, rfl, rfl⟩

theorem Related.read (hR : Source.Simulation breaks R) (h : Related R r q) :
    Agree breaks (Related R) r.read q.read := h.goOn hR (.value [])

theorem Related.readings (hR : Source.Simulation breaks R) (hb : ∀ e, ¬ breaks e)
    (h : Related R r q) (n : Nat) : r.readings n = q.readings n := by
  induction n generalizing r q with
  | zero => rfl
  | succ n ih =>
    obtain ⟨e, he, -⟩ | ⟨hread, hnext⟩ := h.read hR
    · exact absurd he (hb e)
    · rw [DocumentReader.readings, DocumentReader.readings, hread, ih hnext]

theorem ofSource_related (hR : Source.Simulation breaks R) {s : σ} {s' : τ} (h : R s s')
    (options : ReadOptions) : (∃ e, breaks e ∧ ofSource s options = .error (.input e)) ∨
      (∃ e, ofSource s options = .error e ∧ ofSource s' options = .error e) ∨
      ∃ r q, ofSource s options = .ok r ∧ ofSource s' options = .ok q ∧ Related R r q := by
  rw [ofSource_eq s, ofSource_eq s']
  obtain ⟨e, he, ht⟩ | ⟨ht, hr⟩ := (TokenStream.related_ofSource h).read hR
  · rw [ht]
    exact .inl ⟨e, he, rfl⟩
  · rw [ht]
    cases (TokenStream.ofSource s').read.1 with
    | error e => exact .inr (.inl ⟨e, rfl, rfl⟩)
    | ok token => exact .inr (.inr ⟨_, _, rfl, rfl, hr, rfl, rfl⟩)

/-- Where nothing breaks, readers of related sources answer alike whenever they are used. -/
theorem readings_ofSource (hR : Source.Simulation breaks R) (hb : ∀ e, ¬ breaks e) {s : σ} {s' : τ}
    (h : R s s') (options : ReadOptions) (n : Nat) :
    (ofSource s options).map (fun r => r.readings n) =
      (ofSource s' options).map (fun r => r.readings n) := by
  obtain ⟨e, he, -⟩ | ⟨e, hs, hs'⟩ | ⟨r, q, hs, hs', hr⟩ := ofSource_related hR h options
  · exact absurd he (hb e)
  · rw [hs, hs']
    rfl
  · rw [hs, hs']
    exact congrArg Except.ok (hr.readings hR hb n)

theorem Follows.related (hR : Source.Simulation breaks R) {s s' : DocumentState}
    {t t' : TokenStream σ} {u : TokenStream τ} {ts : List Token} (h : Follows options s t ts s' t')
    (hr : TokenStream.Related R t u) :
    ∃ u', Follows options s u ts s' u' ∧ TokenStream.Related R t' u' := by
  induction h generalizing u with
  | nil s t => exact ⟨u, .nil s u, hr⟩
  | cons hread hm _ ih =>
    have hagree := hr.read hR
    rw [hread] at hagree
    obtain ⟨e, -, he⟩ | ⟨heq, hnext⟩ := hagree
    · cases he
    · obtain ⟨u', hf, hu'⟩ := ih hnext
      exact ⟨u', .cons (Prod.ext heq.symm rfl) hm hf, hu'⟩

end DocumentReader

open DocumentReader

/-- A document is read in the same way from related sources, unless the first breaks. -/
theorem readSource_related {σ τ : Type} [Source σ] [Source τ] {breaks : IoError → Prop}
    {R : σ → τ → Prop} (hR : Source.Simulation breaks R) {s : σ} {s' : τ} (h : R s s')
    (options : ReadOptions) : (∃ e, breaks e ∧ readSource s options = .error (.input e)) ∨
      readSource s options = readSource s' options := by
  rw [readSource, readSource]
  obtain ⟨e, he, hs⟩ | ⟨e, hs, hs'⟩ | ⟨r, q, hs, hs', hr⟩ := ofSource_related hR h options
  · rw [hs]
    exact .inl ⟨e, he, rfl⟩
  · rw [hs, hs']
    exact .inr rfl
  · rw [hs, hs']
    exact (hr.read hR).imp_right And.left

end ExactJson
