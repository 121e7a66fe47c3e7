import ExactJson.Source.Basic

/-!
Sources that pull a document from a reader in chunks, so that it is never in memory as a whole. The
reader is asked for more only when all it has given is used up; interruptions are tried again. The
chunks share one buffer, in which a short chunk leaves bytes of longer ones behind it.
-/
namespace ExactJson

inductive Reply where
  | bytes (bs : Bytes)
  | interrupted
  | failed (e : IoError)
deriving DecidableEq, Repr

/-- Something that gives bytes when it is asked. It gives no more than it is asked for, and is
interrupted only finitely often. -/
class Reader (ρ : Type) where
  read : Nat → ρ → Reply × ρ
  /-- No fewer than the bytes and interruptions that are still to come. -/
  work : ρ → Nat
  length_le (n : Nat) (r : ρ) (bs : Bytes) (h : (read n r).1 = .bytes bs) : bs.length ≤ n
  work_bytes (n : Nat) (r : ρ) (bs : Bytes) (h : (read n r).1 = .bytes bs) :
    work (read n r).2 + bs.length ≤ work r
  work_interrupted (n : Nat) (r : ρ) (h : (read n r).1 = .interrupted) :
    work (read n r).2 < work r
  work_failed (n : Nat) (r : ρ) (e : IoError) (h : (read n r).1 = .failed e) :
    work (read n r).2 ≤ work r

class SeekStart (ρ : Type) where
  seekStart : ρ → Option IoError × ρ

/-- A reader with the buffer that it fills. The first `filled` bytes of the buffer are the chunk that
came last, and the first `used` of these have been given away. -/
structure Chunked (ρ : Type) where
  reader : ρ
  buffer : Array UInt8
  used : Nat
  filled : Nat
  exhausted : Bool

namespace Chunked
variable {ρ : Type}

def defaultCapacity : Nat := 4096

def ofReader (reader : ρ) (capacity : Nat) : Chunked ρ :=
  ⟨reader, Array.replicate (max capacity 1) 0, 0, 0, false⟩

def overwrite (buffer : Array UInt8) (i : Nat) : Bytes → Array UInt8
  | [] => buffer
  | b :: bs => overwrite (buffer.setIfInBounds i b) (i + 1) bs

variable [Reader ρ]

/-- Asks the reader until there is a byte to give, or none is left, or it fails. -/
def fill (s : Chunked ρ) : Option IoError × Chunked ρ :=
  if s.used < s.filled ∨ s.exhausted then (none, s)
  else match _h : Reader.read s.buffer.size s.reader with
    | (.bytes [], r) => (none, { s with reader := r, exhausted := true })
    | (.bytes (b :: bs), r) =>
      (none, { s with
        reader := r
        buffer := overwrite s.buffer 0 (b :: bs)
        used := 0
        filled := bs.length + 1 })
    | (.interrupted, r) => fill { s with reader := r }
    | (.failed e, r) => (some e, { s with reader := r })
termination_by Reader.work s.reader
decreasing_by
  have := Reader.work_interrupted s.buffer.size s.reader (by rw [_h])
  rwa [_h] at this

def peek (s : Chunked ρ) : Except IoError (Option UInt8) × Chunked ρ :=
  match s.fill with
  | (some e, t) => (.error e, t)
  | (none, t) => (.ok (if t.used < t.filled then t.buffer[t.used]? else none), t)

def bound (s : Chunked ρ) : Nat := s.filled - s.used + Reader.work s.reader

theorem bound_fill (s : Chunked ρ) : s.fill.2.bound ≤ s.bound := by
  fun_induction fill s with
  | case1 => exact Nat.le_refl _
  | case2 s hs r h =>
    have := Reader.work_bytes s.buffer.size s.reader [] (by rw [h])
    rw [h] at this
    simp only [bound]
    simp at this
    omega
  | case3 s hs b bs r h =>
    have := Reader.work_bytes s.buffer.size s.reader (b :: bs) (by rw [h])
    rw [h] at this
    simp only [bound]
    simp at this
    omega
  | case4 s hs r h ih =>
    have := Reader.work_interrupted s.buffer.size s.reader (by rw [h])
    rw [h] at this
    simp only [bound] at ih ⊢
    simp at this
    omega
  | case5 s hs e r h =>
    have := Reader.work_failed s.buffer.size s.reader e (by rw [h])
    rw [h] at this
    simp only [bound]
    simp at this
    omega

@[simp] theorem snd_peek (s : Chunked ρ) : s.peek.2 = s.fill.2 := by
  simp only [peek]
  split <;> simp_all

theorem used_lt_of_peek {s : Chunked ρ} {b : UInt8} (h : s.peek.1 = .ok (some b)) :
    s.fill.2.used < s.fill.2.filled := by
  simp only [peek] at h
  split at h
  · cases h
  · rename_i t ht
    simp only [ht]
    split at h
    · assumption
    · cases h

instance : Source (Chunked ρ) where
  peek := peek
  skip s := { s with used := s.used + 1 }
  bound := bound
  bound_peek s := by simpa using bound_fill s
  bound_skip s b h := by
    have := used_lt_of_peek h
    have := bound_fill s
    simp only [snd_peek, bound] at *
    omega

/-- Goes back to the first byte of the reader and forgets what it gave. What is in the buffer stays
there, behind the end of a chunk without bytes. -/
instance [SeekStart ρ] : Rewind (Chunked ρ) where
  rewind s := match SeekStart.seekStart s.reader with
    | (some e, r) => (some e, { s with reader := r })
    | (none, r) => (none, { s with reader := r, used := 0, filled := 0, exhausted := false })

end Chunked
end ExactJson
