import ExactJson.Layout.Basic
import ExactJson.Source.Basic

/-!
Sinks, which take bytes a few at a time, may be interrupted, and may fail. Bytes that a sink did not
take because it was interrupted are offered again. Writing stops at the first failure, and what was
taken until then stays.
-/
namespace ExactJson

inductive Uptake where
  | took (n : Nat)
  | interrupted
  | failed (e : IoError)
deriving DecidableEq, Repr

class Sink (σ : Type) where
  offer : σ → Bytes → Uptake × σ

namespace Sink
variable {σ : Type}

def unlessFailed (next : σ → Option (Option IoError × σ)) :
    Option IoError × σ → Option (Option IoError × σ)
  | (some e, t) => some (some e, t)
  | (none, t) => next t

theorem isSome_bind_unlessFailed {r : Option (Option IoError × σ)}
    {next : σ → Option (Option IoError × σ)} (hr : r.isSome) (hnext : ∀ t, (next t).isSome) :
    (r.bind (unlessFailed next)).isSome := by
  obtain ⟨⟨_ | e, t⟩, rfl⟩ := Option.isSome_iff_exists.mp hr
  · exact hnext t
  · rfl

variable [Sink σ]

def stuck : IoError := ⟨.writeZero, "failed to write whole buffer"⟩

/-- One offer of bytes. What is then left of them is for `again`. -/
def offerOnce (again : σ → Bytes → Option (Option IoError × σ)) (s : σ) (bs : Bytes) :
    Option (Option IoError × σ) :=
  if bs = [] then some (none, s)
  else match offer s bs with
    | (.interrupted, t) => again t bs
    | (.failed e, t) => some (some e, t)
    | (.took 0, t) => some (some stuck, t)
    | (.took (n + 1), t) => again t (bs.drop (n + 1))

/-- Offers bytes until all of them are taken, or there is a failure. This has no end where the sink
is interrupted again and again. -/
def putBytes? (s : σ) (bs : Bytes) : Option (Option IoError × σ) :=
  -- By `apply`, since an occurrence in a term would keep its place in the file.
  offerOnce (by apply putBytes?) s bs
partial_fixpoint monotonicity by
  intro f g hfg s bs
  dsimp only [offerOnce]
  by_cases hbs : bs = []
  · rw [if_pos hbs, if_pos hbs]
    constructor
  · rw [if_neg hbs, if_neg hbs]
    obtain ⟨n | _ | e, t⟩ := offer s bs
    · cases n with
      | zero => constructor
      | succ n => exact hfg t _
    · exact hfg t bs
    · constructor

def putBlanks? (s : σ) : Nat → Option (Option IoError × σ)
  | 0 => some (none, s)
  | n + 1 => (putBytes? s [Ascii.space]).bind (unlessFailed fun t => putBlanks? t n)

def putPiece? (s : σ) : Piece → Option (Option IoError × σ)
  | .text text => putBytes? s (Text.utf8 text)
  | .blanks n => putBlanks? s n

def putPieces? (s : σ) : List Piece → Option (Option IoError × σ)
  | [] => some (none, s)
  | p :: ps => (putPiece? s p).bind (unlessFailed fun t => putPieces? t ps)

def write? (l : Layout) (s : σ) (v : Value) : Option (Option IoError × σ) :=
  putPieces? s (v.pieces l)

/-- Writes values one after another. One that fails is given up, and the next is tried. -/
def writeAll? (l : Layout) (s : σ) : List Value → Option (List (Option IoError) × σ)
  | [] => some ([], s)
  | v :: vs => do
    let (failure, t) ← write? l s v
    let (failures, u) ← writeAll? l t vs
    return (failure :: failures, u)

/-- Sinks that are interrupted only so often before they answer. -/
class Answering (σ : Type) [Sink σ] where
  interruptions : σ → Nat
  interruptions_lt {s t : σ} {bs : Bytes} (h : offer s bs = (.interrupted, t)) :
    interruptions t < interruptions s

theorem isSome_putBytes? [Answering σ] (s : σ) (bs : Bytes) : (putBytes? s bs).isSome := by
  rw [putBytes?, offerOnce]
  split
  · rfl
  · split
    · exact isSome_putBytes? _ bs
    · rfl
    · rfl
    · exact isSome_putBytes? _ _
termination_by (bs.length, Answering.interruptions s)
decreasing_by
  · exact Prod.Lex.right _ (Answering.interruptions_lt ‹_›)
  · have := List.length_pos_iff.2 ‹bs ≠ []›
    refine Prod.Lex.left _ _ ?_
    simp only [List.length_drop]
    omega

section Answering
variable [Answering σ]

theorem isSome_putBlanks? (s : σ) (n : Nat) : (putBlanks? s n).isSome := by
  induction n generalizing s with
  | zero => rfl
  | succ n ih => exact isSome_bind_unlessFailed (isSome_putBytes? s _) ih

theorem isSome_putPiece? (s : σ) (p : Piece) : (putPiece? s p).isSome := by
  cases p with
  | text text => exact isSome_putBytes? s _
  | blanks n => exact isSome_putBlanks? s n

theorem isSome_putPieces? (s : σ) (ps : List Piece) : (putPieces? s ps).isSome := by
  induction ps generalizing s with
  | nil => rfl
  | cons p ps ih => exact isSome_bind_unlessFailed (isSome_putPiece? s p) ih

theorem isSome_writeAll? (l : Layout) (s : σ) (vs : List Value) : (writeAll? l s vs).isSome := by
  induction vs generalizing s with
  | nil => rfl
  | cons v vs ih =>
    obtain ⟨⟨failure, t⟩, hv⟩ := Option.isSome_iff_exists.mp (isSome_putPieces? s (v.pieces l))
    obtain ⟨⟨failures, u⟩, hvs⟩ := Option.isSome_iff_exists.mp (ih t)
    simp [writeAll?, write?, hv, hvs]

def writeAll (l : Layout) (s : σ) (vs : List Value) : List (Option IoError) × σ :=
  (writeAll? l s vs).get (isSome_writeAll? l s vs)

@[simp] theorem some_writeAll (l : Layout) (s : σ) (vs : List Value) :
    some (writeAll l s vs) = writeAll? l s vs :=
  Option.some_get (isSome_writeAll? l s vs)

end Answering
end Sink

/-- A sink that takes at most `step` bytes at once and `limit` bytes in all, and then fails. -/
structure BoundedSink where
  step : Option Nat
  limit : Option Nat
  failure : IoError
  received : Array UInt8

namespace BoundedSink

def room (s : BoundedSink) (n : Nat) : Nat :=
  min (min (s.step.getD n) n) (s.limit.getD (s.received.size + n) - s.received.size)

instance : Sink BoundedSink where
  offer s bs :=
    if s.limit.any (· ≤ s.received.size) then (.failed s.failure, s)
    else (.took (s.room bs.length), { s with received := s.received ++ bs.take (s.room bs.length) })

instance : Sink.Answering BoundedSink where
  interruptions _ := 0
  interruptions_lt {s t bs} h := by
    simp only [Sink.offer] at h
    split at h <;> cases h

end BoundedSink
end ExactJson
