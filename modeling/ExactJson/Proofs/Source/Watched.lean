import ExactJson.Proofs.Source.Calls

/-! Bytes in memory that are watched as they are read: which have been taken, and what has been seen of
those behind them. -/
namespace ExactJson

/-- Bytes in memory of which some have been taken. In front of the others the next byte, or that there is
none, has been seen or not. -/
structure Watched where
  taken : Bytes
  rest : Bytes
  front : Option (Option UInt8)

namespace Watched

def ofBytes (data : Bytes) : Watched := ⟨[], data, none⟩

instance : Source Watched where
  peek s := (.ok s.rest.head?, { s with front := some s.rest.head? })
  skip s := ⟨s.taken ++ s.rest.head?.toList, s.rest.tail, none⟩
  bound s := s.rest.length
  bound_peek _ := Nat.le_refl _
  bound_skip s b h := by
    cases hs : s.rest with
    | nil => simp [hs] at h
    | cons c cs => simp

def examined (s : Watched) : Bytes := s.taken ++ s.front.join.toList

def SeenEnd (s : Watched) : Prop := s.front = some none

theorem simulation_slice :
    Source.Simulation (fun _ => False) fun (s : Watched) (t : Slice) => s.rest = t.rest where
  peek h := .inr ⟨congrArg (fun bs : Bytes => Except.ok bs.head?) h, h⟩
  skip h _ := congrArg List.tail h

theorem alike_slice (data : Bytes) : Source.Alike (ofBytes data) (Slice.ofBytes data) :=
  simulation_slice.alike (fun _ => id) rfl

end Watched

/-- What has been seen in front of some bytes, if anything, is the first of them, or that there are none.
-/
def Shows (front : Option (Option UInt8)) (rest : Bytes) : Prop := ∀ b ∈ front, b = rest.head?

variable {front : Option (Option UInt8)} {rest more : Bytes}

theorem shows_none (rest : Bytes) : Shows none rest := nofun

theorem shows_head (rest : Bytes) : Shows (some rest.head?) rest := by
  rintro _ ⟨⟩
  rfl

theorem Shows.eq_nil (h : Shows (some none) rest) : rest = [] :=
  List.head?_eq_none_iff.mp (h none rfl).symm

theorem Shows.eq_cons {b : UInt8} (h : Shows (some (some b)) rest) : ∃ bs, rest = b :: bs :=
  List.head?_eq_some_iff.mp (h (some b) rfl).symm

theorem Shows.of_head (h : Shows front rest) (hmore : more.head? = rest.head?) :
    Shows front more := fun b hb => (h b hb).trans hmore.symm

theorem Shows.exists_append (h : Shows front rest) : ∃ bs, rest = front.join.toList ++ bs := by
  match front, h with
  | none, _ => exact ⟨rest, rfl⟩
  | some none, h => exact ⟨[], h.eq_nil⟩
  | some (some b), h => exact h.eq_cons

theorem shows_append (h : front ≠ some none) (bs : Bytes) :
    Shows front (front.join.toList ++ bs) := by
  match front, h with
  | none, _ => exact shows_none _
  | some none, h => exact absurd rfl h
  | some (some b), _ => exact shows_head (b :: bs)

end ExactJson
