import ExactJson.Proofs.Source.Calls
import ExactJson.Token.Stream

/-! Token streams over related sources. A relation between sources that their calls keep is kept by
everything that a stream does with them, and the tokens are the same up to the first failure. -/
namespace ExactJson

def Agree {α σ τ : Type} (breaks : IoError → Prop) (R : σ → τ → Prop) (a : Except ReadError α × σ)
    (b : Except ReadError α × τ) : Prop :=
  (∃ e, breaks e ∧ a.1 = .error (.input e)) ∨ a.1 = b.1 ∧ R a.2 b.2

namespace TokenStream

inductive Request where
  | read
  | next
deriving DecidableEq, Repr

section Requests
variable {σ : Type} [Source σ]

def request (t : TokenStream σ) : Request → Option (Except ReadError Token) × TokenStream σ
  | .read => (some t.read.1, t.read.2)
  | .next => match t.next? with
    | none => (none, t)
    | some (outcome, u) => (some outcome, u)

def answers (t : TokenStream σ) : List Request → List (Option (Except ReadError Token))
  | [] => []
  | r :: rs => (t.request r).1 :: answers (t.request r).2 rs

def after (t : TokenStream σ) : List Request → TokenStream σ
  | [] => t
  | r :: rs => after (t.request r).2 rs

theorem feed_eq (state : Lexer.State) (t : TokenStream σ) :
    t.feed state = match (Source.peek t.source).1 with
      | .error e => (.error (.input e), { t with source := (Source.peek t.source).2 })
      | .ok none => ((state.finish t.position).mapError .lexical,
          { t with source := (Source.peek t.source).2 })
      | .ok (some b) => match state.step t.position b with
        | .take next => feed next { t with
            source := Source.skip (Source.peek t.source).2
            position := t.position.next b }
        | .takeLast outcome => (outcome.mapError .lexical, { t with
            source := Source.skip (Source.peek t.source).2
            position := t.position.next b })
        | .leave outcome => (outcome.mapError .lexical,
            { t with source := (Source.peek t.source).2 }) := by
  rw [feed]
  split <;> rename_i h <;> exact h ▸ rfl

def isLast : Except ReadError Token → Bool
  | .ok token => token.kind = .endOfInput
  | .error _ => true

theorem request_next_of_finished {t : TokenStream σ} (h : t.finished = true) :
    t.request .next = (none, t) := by
  simp [request, next?, h]

theorem request_next {t : TokenStream σ} (h : t.finished = false) :
    t.request .next = (some t.read.1, { t.read.2 with finished := isLast t.read.1 }) := by
  simp only [request, next?, h, Bool.false_eq_true, if_false]
  cases t.read with
  | mk outcome u => cases outcome <;> rfl

end Requests

variable {σ τ : Type} {breaks : IoError → Prop} {R : σ → τ → Prop}
variable {t t' : TokenStream σ} {u : TokenStream τ} {ts : List Token}

structure Related (R : σ → τ → Prop) (t : TokenStream σ) (u : TokenStream τ) : Prop where
  source : R t.source u.source
  position : t.position = u.position
  finished : t.finished = u.finished

theorem related_ofSource {s : σ} {s' : τ} (h : R s s') :
    Related R (TokenStream.ofSource s) (TokenStream.ofSource s') := ⟨h, rfl, rfl⟩

variable [Source σ] [Source τ]

theorem Related.feed (hR : Source.Simulation breaks R) (h : Related R t u) (state : Lexer.State) :
    Agree breaks (Related R) (t.feed state) (u.feed state) := by
  induction hn : Source.bound t.source using Nat.strongRecOn generalizing state t u with
  | ind n ih =>
    obtain ⟨s, p, finished⟩ := t
    obtain ⟨s', _, _⟩ := u
    obtain ⟨hr, rfl, rfl⟩ := h
    rw [feed_eq state ⟨s, p, finished⟩, feed_eq state ⟨s', p, finished⟩]
    obtain ⟨e, he, hs⟩ | ⟨hs, hr'⟩ := hR.peek hr
    · simp only [hs]
      exact .inl ⟨e, he, rfl⟩
    · simp only [← hs]
      cases hp : (Source.peek s).1 with
      | error e => exact .inr ⟨rfl, hr', rfl, rfl⟩
      | ok next =>
        cases next with
        | none => exact .inr ⟨rfl, hr', rfl, rfl⟩
        | some b =>
          dsimp only
          have hlt : Source.bound (Source.skip (Source.peek s).2) < n := hn ▸ Source.bound_skip s b hp
          cases state.step p b with
          | take next => exact ih _ hlt ⟨hR.skip hr hp, rfl, rfl⟩ next rfl
          | takeLast outcome => exact .inr ⟨rfl, hR.skip hr hp, rfl, rfl⟩
          | leave outcome => exact .inr ⟨rfl, hr', rfl, rfl⟩

theorem Related.read (hR : Source.Simulation breaks R) (h : Related R t u) :
    Agree breaks (Related R) t.read u.read := h.feed hR .between

theorem Related.request (hR : Source.Simulation breaks R) (h : Related R t u) (r : Request) :
    (∃ e, breaks e ∧ (t.request r).1 = some (.error (.input e))) ∨
      (t.request r).1 = (u.request r).1 ∧ Related R (t.request r).2 (u.request r).2 := by
  obtain ⟨e, he, ht⟩ | ⟨ht, hr⟩ := h.read hR
  · cases r with
    | read => exact .inl ⟨e, he, congrArg some ht⟩
    | next =>
      cases hf : t.finished with
      | false => exact .inl ⟨e, he, by rw [request_next hf, ht]⟩
      | true =>
        rw [request_next_of_finished hf, request_next_of_finished (h.finished ▸ hf)]
        exact .inr ⟨rfl, h⟩
  · refine .inr ?_
    cases r with
    | read => exact ⟨congrArg some ht, hr⟩
    | next =>
      cases hf : t.finished with
      | false =>
        rw [request_next hf, request_next (h.finished ▸ hf), ht]
        exact ⟨rfl, hr.source, hr.position, rfl⟩
      | true =>
        rw [request_next_of_finished hf, request_next_of_finished (h.finished ▸ hf)]
        exact ⟨rfl, h⟩

theorem Related.requests (hR : Source.Simulation breaks R) (hb : ∀ e, ¬ breaks e)
    (h : Related R t u) (rs : List Request) :
    t.answers rs = u.answers rs ∧ Related R (t.after rs) (u.after rs) := by
  induction rs generalizing t u with
  | nil => exact ⟨rfl, h⟩
  | cons r rs ih =>
    obtain ⟨e, he, -⟩ | ⟨hr, hnext⟩ := h.request hR r
    · exact absurd he (hb e)
    · obtain ⟨hrs, hafter⟩ := ih hnext
      exact ⟨by rw [answers, answers, hr, hrs], hafter⟩

end TokenStream
end ExactJson
