import ExactJson.Proofs.Source.Chunks
import ExactJson.Source.Memory

/-! A reader over bytes in memory delivers them, whatever it is asked for at a time and however it
stutters. -/
namespace ExactJson.MemoryReader

def front (r : MemoryReader) : Bytes := (r.data.toList.take r.stop).drop r.offset

def ending (r : MemoryReader) : Ending :=
  if r.failAt.any (· ≤ r.data.size) then .failed r.failure else .finished

variable {r : MemoryReader} {n : Nat}

theorem next_eq (r : MemoryReader) (n : Nat) :
    r.next n = r.front.take (min (r.step.getD n) n) := by
  simp only [next, front, Array.toList_extract, List.extract_eq_take_drop]
  rw [List.drop_take, List.take_take]
  congr 1
  omega

theorem front_eq_append (r : MemoryReader) (n : Nat) :
    r.front = r.next n ++ { r with offset := r.offset + (r.next n).length }.front := by
  have hrest : { r with offset := r.offset + (r.next n).length }.front =
      r.front.drop (r.next n).length := List.drop_drop.symm
  have htake : r.next n = r.front.take (r.next n).length := by
    rw [next_eq, List.length_take, ← List.take_eq_take_min]
  calc r.front
    _ = r.front.take (r.next n).length ++ r.front.drop (r.next n).length :=
      (List.take_append_drop _ _).symm
    _ = _ := by rw [← htake, ← hrest]

theorem ending_of_atFailure (ho : r.offset ≤ r.data.size) (hf : r.atFailure = true) :
    r.ending = .failed r.failure ∧ r.front = [] := by
  simp only [atFailure, Option.any_eq_true, decide_eq_true_eq] at hf
  obtain ⟨k, hk, hle⟩ := hf
  constructor
  · exact if_pos (by simp [hk, Nat.le_trans hle ho])
  · apply List.drop_eq_nil_of_le
    simp only [stop, hk, Option.getD_some, List.length_take, Array.length_toList]
    omega

theorem ending_of_next (hn : 0 < n) (hs : ∀ k ∈ r.step, 0 < k) (hf : r.atFailure = false)
    (h : r.next n = []) : r.ending = .finished ∧ r.front = [] := by
  have hpos : 0 < min (r.step.getD n) n := by
    cases hk : r.step with
    | none => simpa using hn
    | some k => exact Nat.lt_min.mpr ⟨hs k hk, hn⟩
  rw [next_eq] at h
  have hfront : r.front = [] := (List.take_eq_nil_iff.mp h).resolve_left (by omega)
  have hlen := congrArg List.length hfront
  simp [front, stop] at hlen
  refine ⟨if_neg ?_, hfront⟩
  cases hk : r.failAt with
  | none => simp
  | some k =>
    simp [atFailure, hk] at hf hlen ⊢
    omega

theorem delivers (hn : 0 < n) (hs : ∀ k ∈ r.step, 0 < k) (ho : r.offset ≤ r.data.size) :
    Delivers n r.ending r r.front := by
  induction hw : r.work using Nat.strongRecOn generalizing r with
  | ind w ih =>
    by_cases hi : 0 < r.interrupts
    · have hread : Reader.read n r = (.interrupted, { r with interrupts := r.interrupts - 1 }) :=
        if_pos hi
      have hlt : work { r with interrupts := r.interrupts - 1 } < w := by
        simp only [work] at hw ⊢
        omega
      exact .interrupted hread (@ih _ hlt { r with interrupts := r.interrupts - 1 } hs ho rfl)
    · cases hf : r.atFailure with
      | true =>
        have hread : Reader.read n r = (.failed r.failure, r) := by
          simp [Reader.read, read, hi, hf]
        obtain ⟨hend, hfront⟩ := ending_of_atFailure ho hf
        rw [hend, hfront]
        exact .ending hread
      | false =>
        have hread : Reader.read n r =
            (.bytes (r.next n), { r with offset := r.offset + (r.next n).length }) := by
          simp [Reader.read, read, hi, hf]
        cases hnext : r.next n with
        | nil =>
          obtain ⟨he, hfront⟩ := ending_of_next hn hs hf hnext
          rw [he, hfront]
          exact .ending (hnext ▸ hread)
        | cons b bs =>
          have hl := (r.length_next n).2
          rw [front_eq_append r n]
          rw [hnext] at hread hl ⊢
          have hlt : work { r with offset := r.offset + (b :: bs).length } < w := by
            simp only [work, List.length_cons] at hw hl ⊢
            omega
          have ho' : r.offset + (b :: bs).length ≤ r.data.size := by omega
          exact .piece hread
            (@ih _ hlt { r with offset := r.offset + (b :: bs).length } hs ho' rfl)

end ExactJson.MemoryReader
