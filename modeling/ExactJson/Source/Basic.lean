import ExactJson.Text.Utf8

/-!
Where the bytes of a document come from. A source shows its next byte before it gives it away, and
has finitely many bytes to give.
-/
namespace ExactJson

/-- An interruption is no failure: it is an answer of its own, upon which the same is asked again. -/
inductive IoErrorKind where
  | connectionReset
  | unsupported
  | brokenPipe
  | writeZero
deriving DecidableEq, Repr

structure IoError where
  kind : IoErrorKind
  message : String
deriving DecidableEq, Repr

/-- A source of bytes. `peek` shows the next byte and `skip` drops it. -/
class Source (σ : Type) where
  peek : σ → Except IoError (Option UInt8) × σ
  skip : σ → σ
  /-- No fewer than the bytes that are still to come. -/
  bound : σ → Nat
  bound_peek (s : σ) : bound (peek s).2 ≤ bound s
  bound_skip (s : σ) (b : UInt8) (h : (peek s).1 = .ok (some b)) :
    bound (skip (peek s).2) < bound s

class Rewind (σ : Type) where
  rewind : σ → Option IoError × σ

namespace Source
variable {σ : Type} [Source σ]

def next (s : σ) : Except IoError (Option UInt8) × σ :=
  match peek s with
  | (.ok (some b), t) => (.ok (some b), skip t)
  | r => r

def drain (s : σ) : Bytes × Option IoError × σ :=
  match _h : peek s with
  | (.error e, t) => ([], some e, t)
  | (.ok none, t) => ([], none, t)
  | (.ok (some b), t) =>
    let (bs, e, u) := drain (skip t)
    (b :: bs, e, u)
termination_by bound s
decreasing_by
  have := bound_skip s b (by rw [_h])
  rwa [_h] at this

end Source

structure Slice where
  data : Bytes
  rest : Bytes
deriving DecidableEq, Repr

namespace Slice

def ofBytes (data : Bytes) : Slice := ⟨data, data⟩

instance : Source Slice where
  peek s := (.ok s.rest.head?, s)
  skip s := { s with rest := s.rest.tail }
  bound s := s.rest.length
  bound_peek _ := Nat.le_refl _
  bound_skip s b h := by
    cases hs : s.rest with
    | nil => simp [hs] at h
    | cons c cs => simp

instance : Rewind Slice where
  rewind s := (none, { s with rest := s.data })

end Slice
end ExactJson
