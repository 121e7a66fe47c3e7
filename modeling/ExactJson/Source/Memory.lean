import ExactJson.Source.Chunked

/-!
A reader over bytes in memory that can stutter and break, as a connection does.
-/
namespace ExactJson

/-- A reader that is interrupted some times, gives at most `step` bytes at once, and fails with
`failure` when it comes to the offset `failAt`. -/
structure MemoryReader where
  data : Array UInt8
  offset : Nat
  interrupts : Nat
  step : Option Nat
  failAt : Option Nat
  failure : IoError
  seekFailure : Option IoError

namespace MemoryReader

def stop (r : MemoryReader) : Nat := min (r.failAt.getD r.data.size) r.data.size

def atFailure (r : MemoryReader) : Bool := r.failAt.any (· ≤ r.offset)

def next (r : MemoryReader) (n : Nat) : Bytes :=
  (r.data.extract r.offset (r.offset + min (min (r.step.getD n) n) (r.stop - r.offset))).toList

def read (n : Nat) (r : MemoryReader) : Reply × MemoryReader :=
  if 0 < r.interrupts then (.interrupted, { r with interrupts := r.interrupts - 1 })
  else if r.atFailure then (.failed r.failure, r)
  else (.bytes (r.next n), { r with offset := r.offset + (r.next n).length })

theorem length_next (r : MemoryReader) (n : Nat) :
    (r.next n).length ≤ n ∧ (r.next n).length ≤ r.data.size - r.offset := by
  simp only [next, Array.length_toList, Array.size_extract]
  omega

def work (r : MemoryReader) : Nat := r.data.size - r.offset + r.interrupts

theorem length_le_of_read (n : Nat) (r : MemoryReader) (bs : Bytes)
    (h : (r.read n).1 = .bytes bs) : bs.length ≤ n := by
  have := (r.length_next n).1
  simp only [read] at h
  split at h
  · cases h
  · split at h
    · cases h
    · cases h
      exact this

theorem work_of_bytes (n : Nat) (r : MemoryReader) (bs : Bytes) (h : (r.read n).1 = .bytes bs) :
    (r.read n).2.work + bs.length ≤ r.work := by
  have := (r.length_next n).2
  simp only [read, work] at h ⊢
  split at h
  · cases h
  · split at h
    · cases h
    · rename_i h₁ h₂
      cases h
      simp only [h₁, h₂]
      simp
      omega

theorem work_of_interrupted (n : Nat) (r : MemoryReader) (h : (r.read n).1 = .interrupted) :
    (r.read n).2.work < r.work := by
  simp only [read, work] at h ⊢
  split
  · simp
    omega
  · rename_i h₁
    rw [if_neg h₁] at h
    split at h <;> cases h

theorem work_of_failed (n : Nat) (r : MemoryReader) (e : IoError)
    (h : (r.read n).1 = .failed e) : (r.read n).2.work ≤ r.work := by
  simp only [read, work] at h ⊢
  split at h
  · cases h
  · split at h
    · rename_i h₁ h₂
      simp [h₁, h₂]
    · cases h

instance : Reader MemoryReader where
  read := read
  work := work
  length_le := length_le_of_read
  work_bytes := work_of_bytes
  work_interrupted := work_of_interrupted
  work_failed := work_of_failed

instance : SeekStart MemoryReader where
  seekStart r := match r.seekFailure with
    | some e => (some e, r)
    | none => (none, { r with offset := 0 })

end MemoryReader
end ExactJson
