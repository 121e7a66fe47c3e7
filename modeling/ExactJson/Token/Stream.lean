import ExactJson.Error
import ExactJson.Token.Lexer

/-!
The tokens of a source, one at a time. A token is read only when it is asked for, and no byte is
taken that is not part of it or of the blanks before it.
-/
namespace ExactJson

structure TokenStream (σ : Type) where
  source : σ
  position : Position
  /-- Whether the last token or an error has been listed. -/
  finished : Bool

namespace TokenStream
variable {σ : Type}

def ofSource (source : σ) : TokenStream σ := ⟨source, .start, false⟩

variable [Source σ]

def feed (state : Lexer.State) (t : TokenStream σ) : Except ReadError Token × TokenStream σ :=
  match _h : Source.peek t.source with
  | (.error e, s) => (.error (.input e), { t with source := s })
  | (.ok none, s) => ((state.finish t.position).mapError .lexical, { t with source := s })
  | (.ok (some b), s) =>
    match state.step t.position b with
    | .take next =>
      feed next { t with source := Source.skip s, position := t.position.next b }
    | .takeLast outcome =>
      (outcome.mapError .lexical,
        { t with source := Source.skip s, position := t.position.next b })
    | .leave outcome => (outcome.mapError .lexical, { t with source := s })
termination_by Source.bound t.source
decreasing_by
  have := Source.bound_skip t.source b (by rw [_h])
  rwa [_h] at this

theorem bound_feed (state : Lexer.State) (t : TokenStream σ) :
    Source.bound (t.feed state).2.source ≤ Source.bound t.source := by
  fun_induction feed state t with
  | case1 state t e s h => simpa [h] using Source.bound_peek t.source
  | case2 state t s h => simpa [h] using Source.bound_peek t.source
  | case3 state t b s h next hs ih =>
    have := Source.bound_skip t.source b (by rw [h])
    rw [h] at this
    exact Nat.le_trans ih (Nat.le_of_lt this)
  | case4 state t b s h outcome hs =>
    have := Source.bound_skip t.source b (by rw [h])
    rw [h] at this
    exact Nat.le_of_lt this
  | case5 state t b s h outcome hs => simpa [h] using Source.bound_peek t.source

def read (t : TokenStream σ) : Except ReadError Token × TokenStream σ := feed .between t

theorem begin_ne_leave_ok (p : Position) (b : UInt8) (token : Token) :
    Lexer.begin p b ≠ .leave (.ok token) := by
  simp only [Lexer.begin, Lexer.fail]
  repeat' split
  all_goals simp

/-- A token other than the end of the document takes at least one byte. -/
theorem bound_read {t u : TokenStream σ} {token : Token} (h : t.read = (.ok token, u))
    (ht : token.kind ≠ .endOfInput) : Source.bound u.source < Source.bound t.source := by
  rw [read, feed] at h
  split at h
  · cases h
  · cases h
    exact absurd rfl ht
  · rename_i b s hs
    have hb := Source.bound_skip t.source b (by rw [hs])
    rw [hs] at hb
    split at h
    · rename_i next hn
      have := bound_feed next { t with source := Source.skip s, position := t.position.next b }
      rw [h] at this
      exact Nat.lt_of_le_of_lt this hb
    · simp only [Prod.mk.injEq] at h
      rw [← h.2]
      exact hb
    · rename_i outcome hn
      cases outcome with
      | error e => cases h
      | ok token => exact absurd hn (begin_ne_leave_ok t.position b token)

theorem bound_read_le {t u : TokenStream σ} {token : Token} (h : t.read = (.ok token, u)) :
    Source.bound u.source ≤ Source.bound t.source := by
  have := bound_feed .between t
  rw [← read, h] at this
  exact this

/-- Lists the next token or error. The list ends with the end of the document or the first error. -/
def next? (t : TokenStream σ) : Option (Except ReadError Token × TokenStream σ) :=
  if t.finished then none
  else match t.read with
    | (.ok token, u) => some (.ok token, { u with finished := token.kind = .endOfInput })
    | (.error e, u) => some (.error e, { u with finished := true })

def restart [Rewind σ] (t : TokenStream σ) : Option ReadError × TokenStream σ :=
  match Rewind.rewind t.source with
  | (some e, s) => (some (.input e), { t with source := s })
  | (none, s) => (none, { t with source := s, position := .start, finished := false })

end TokenStream
end ExactJson
