import ExactJson.Proofs.Source.Asking

/-! What a chunked source forgets when it goes back to its first byte. The buffer keeps the bytes of
older chunks, and no call shows them. -/
namespace ExactJson.Chunked

section Buffers
variable {ρ : Type} {s t : Chunked ρ}

structure Same (s t : Chunked ρ) : Prop where
  reader : s.reader = t.reader
  used : s.used = t.used
  filled : s.filled = t.filled
  exhausted : s.exhausted = t.exhausted
  size : s.buffer.size = t.buffer.size
  chunk : s.buffer.toList.take s.filled = t.buffer.toList.take t.filled

theorem Same.buffered (h : Same s t) : s.buffered = t.buffered := by
  rw [Chunked.buffered, Chunked.buffered, h.chunk, h.used]

theorem Same.asking (h : Same s t) (hs : ¬(s.used < s.filled ∨ s.exhausted = true)) :
    ¬(t.used < t.filled ∨ t.exhausted = true) := by
  rwa [h.used, h.filled, h.exhausted] at hs

theorem Same.skip (h : Same s t) :
    Same { s with used := s.used + 1 } { t with used := t.used + 1 } :=
  ⟨h.reader, congrArg (· + 1) h.used, h.filled, h.exhausted, h.size, h.chunk⟩

theorem same_ofReader {capacity : Nat} (hs : s.buffer.size = max capacity 1) (reader : ρ) :
    Same { s with reader, used := 0, filled := 0, exhausted := false }
      (ofReader reader capacity) :=
  ⟨rfl, rfl, rfl, rfl, hs.trans Array.size_replicate.symm, rfl⟩

variable [SeekStart ρ] {e : IoError} {r : ρ}

theorem rewind_of_failed (h : SeekStart.seekStart s.reader = (some e, r)) :
    Rewind.rewind s = (some e, { s with reader := r }) := by
  simp only [Rewind.rewind, h]

theorem rewind_of_done (h : SeekStart.seekStart s.reader = (none, r)) :
    Rewind.rewind s =
      (none, { s with reader := r, used := 0, filled := 0, exhausted := false }) := by
  simp only [Rewind.rewind, h]

theorem Same.rewind (h : Same s t) :
    (Rewind.rewind s).1 = (Rewind.rewind t).1 ∧
      Same (Rewind.rewind s).2 (Rewind.rewind t).2 := by
  cases hs : SeekStart.seekStart s.reader with
  | mk outcome r =>
    have ht : SeekStart.seekStart t.reader = (outcome, r) := h.reader ▸ hs
    cases outcome with
    | some e =>
      rw [rewind_of_failed hs, rewind_of_failed ht]
      exact ⟨rfl, rfl, h.used, h.filled, h.exhausted, h.size, h.chunk⟩
    | none =>
      rw [rewind_of_done hs, rewind_of_done ht]
      exact ⟨rfl, rfl, rfl, rfl, rfl, h.size, rfl⟩

end Buffers

variable {ρ : Type} [Reader ρ] {s t : Chunked ρ}

theorem Same.read (h : Same s t) :
    Reader.read s.buffer.size s.reader = Reader.read t.buffer.size t.reader := by
  rw [h.size, h.reader]

theorem Same.fill (h : Same s t) : s.fill.1 = t.fill.1 ∧ Same s.fill.2 t.fill.2 := by
  fun_induction Chunked.fill s generalizing t with
  | case1 s hs =>
    rw [h.used, h.filled, h.exhausted] at hs
    rw [Chunked.fill, if_pos hs]
    exact ⟨rfl, h⟩
  | case2 s hs r hr =>
    rw [fill_of_asking (h.asking hs), ← h.read, hr]
    exact ⟨rfl, rfl, h.used, h.filled, rfl, h.size, h.chunk⟩
  | case3 s hs b bs r hr =>
    have hlen : (b :: bs).length ≤ s.buffer.size := length_le_of_read hr
    have hlen' : (b :: bs).length ≤ t.buffer.size := h.size ▸ hlen
    rw [fill_of_asking (h.asking hs), ← h.read, hr]
    refine ⟨rfl, rfl, rfl, rfl, h.exhausted, ?_, ?_⟩
    · exact (size_overwrite _ _ _).trans (h.size.trans (size_overwrite _ _ _).symm)
    · -- The new chunk takes the place of both old ones.
      exact (buffered_overwrite r hlen).trans (buffered_overwrite r hlen').symm
  | case4 s hs r hr ih =>
    rw [fill_of_asking (h.asking hs), ← h.read, hr]
    exact ih ⟨rfl, h.used, h.filled, h.exhausted, h.size, h.chunk⟩
  | case5 s hs e r hr =>
    rw [fill_of_asking (h.asking hs), ← h.read, hr]
    exact ⟨rfl, rfl, h.used, h.filled, h.exhausted, h.size, h.chunk⟩

theorem simulation_same : Source.Simulation (fun _ => False) (Same (ρ := ρ)) where
  peek {s t} h := by
    obtain ⟨he, hf⟩ := h.fill
    exact .inr ⟨by simp only [fst_sourcePeek, he, hf.buffered], by simpa using hf⟩
  skip {s t b} h _ := by
    simp only [snd_sourcePeek]
    exact h.fill.2.skip

structure Sized (n : Nat) (P : ρ → Prop) (s : Chunked ρ) : Prop where
  size : s.buffer.size = n
  reader : P s.reader

variable {n : Nat} {P : ρ → Prop}

theorem Sized.fill (hP : ∀ n r, P r → P (Reader.read n r).2) (h : Sized n P s) :
    Sized n P s.fill.2 := by
  have hread := hP s.buffer.size s.reader h.reader
  fun_induction Chunked.fill s with
  | case1 => exact h
  | case2 s hs r hr | case5 s hs e r hr =>
    rw [hr] at hread
    exact ⟨h.size, hread⟩
  | case3 s hs b bs r hr =>
    rw [hr] at hread
    exact ⟨(size_overwrite s.buffer 0 (b :: bs)).trans h.size, hread⟩
  | case4 s hs r hr ih =>
    rw [hr] at hread
    exact ih ⟨h.size, hread⟩ (hP _ r hread)

theorem simulation_sized (n : Nat) (hP : ∀ n r, P r → P (Reader.read n r).2) :
    Source.Simulation (fun _ => False) (fun (s t : Chunked ρ) => s = t ∧ Sized n P s) where
  peek {s t} h := by
    obtain ⟨rfl, hs⟩ := h
    rw [snd_sourcePeek]
    exact .inr ⟨rfl, rfl, hs.fill hP⟩
  skip {s t b} h _ := by
    obtain ⟨rfl, hs⟩ := h
    rw [snd_sourcePeek]
    exact ⟨rfl, (hs.fill hP).size, (hs.fill hP).reader⟩

end ExactJson.Chunked
