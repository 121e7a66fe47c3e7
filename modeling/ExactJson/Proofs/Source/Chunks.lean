import ExactJson.Proofs.Source.Calls
import ExactJson.Source.Chunked

/-! A chunked source has the bytes of its reader to give, in whatever chunks they come: those that are
left in the buffer, and those that the reader still has. -/
namespace ExactJson

inductive Ending where
  | finished
  | failed (e : IoError)
deriving DecidableEq, Repr

def Ending.reply : Ending → Reply
  | finished => .bytes []
  | failed e => .failed e

/-- A reader that gives the bytes when it is asked for `n` at a time, in any pieces and with any
interruptions between them, and then ends. -/
inductive Delivers {ρ : Type} [Reader ρ] (n : Nat) (ending : Ending) : ρ → Bytes → Prop where
  | ending {r r' : ρ} (h : Reader.read n r = (ending.reply, r')) : Delivers n ending r []
  | piece {r r' : ρ} {b : UInt8} {bs rest : Bytes} (h : Reader.read n r = (.bytes (b :: bs), r'))
      (hr : Delivers n ending r' rest) : Delivers n ending r (b :: bs ++ rest)
  | interrupted {r r' : ρ} {data : Bytes} (h : Reader.read n r = (.interrupted, r'))
      (hr : Delivers n ending r' data) : Delivers n ending r data

namespace Delivers
variable {ρ : Type} [Reader ρ] {n : Nat} {ending : Ending} {r r' : ρ} {data : Bytes}

theorem of_end (h : Delivers n ending r data) (hr : Reader.read n r = (.bytes [], r')) :
    ending = .finished ∧ data = [] := by
  cases h with
  | ending he =>
    cases ending with
    | finished => exact ⟨rfl, rfl⟩
    | failed e => cases hr.symm.trans he
  | piece hp => cases hr.symm.trans hp
  | interrupted hi => cases hr.symm.trans hi

theorem of_piece (h : Delivers n ending r data) {b : UInt8} {bs : Bytes}
    (hr : Reader.read n r = (.bytes (b :: bs), r')) :
    ∃ rest, data = b :: bs ++ rest ∧ Delivers n ending r' rest := by
  cases h with
  | ending he => cases ending <;> cases hr.symm.trans he
  | piece hp hd =>
    cases hr.symm.trans hp
    exact ⟨_, rfl, hd⟩
  | interrupted hi => cases hr.symm.trans hi

theorem of_interrupted (h : Delivers n ending r data)
    (hr : Reader.read n r = (.interrupted, r')) : Delivers n ending r' data := by
  cases h with
  | ending he => cases ending <;> cases hr.symm.trans he
  | piece hp => cases hr.symm.trans hp
  | interrupted hi hd =>
    cases hr.symm.trans hi
    exact hd

theorem of_failed (h : Delivers n ending r data) {e : IoError}
    (hr : Reader.read n r = (.failed e, r')) : ending = .failed e ∧ data = [] := by
  cases h with
  | ending he =>
    cases ending with
    | finished => cases hr.symm.trans he
    | failed e' =>
      cases hr.symm.trans he
      exact ⟨rfl, rfl⟩
  | piece hp => cases hr.symm.trans hp
  | interrupted hi => cases hr.symm.trans hi

end Delivers

namespace Chunked
variable {ρ : Type}

@[simp] theorem size_overwrite (buffer : Array UInt8) (i : Nat) (bs : Bytes) :
    (overwrite buffer i bs).size = buffer.size := by
  induction bs generalizing buffer i with
  | nil => rfl
  | cons b bs ih => rw [overwrite, ih, Array.size_setIfInBounds]

theorem take_overwrite {buffer : Array UInt8} {i : Nat} {bs : Bytes}
    (h : i + bs.length ≤ buffer.size) :
    (overwrite buffer i bs).toList.take (i + bs.length) = buffer.toList.take i ++ bs := by
  induction bs generalizing buffer i with
  | nil => simp [overwrite]
  | cons b bs ih =>
    rw [List.length_cons] at h
    have hb : (buffer.setIfInBounds i b).toList.take (i + 1) = buffer.toList.take i ++ [b] := by
      rw [Array.toList_setIfInBounds, List.take_add_one, List.take_set_of_le (Nat.le_refl i),
        List.getElem?_set_self (by simp; omega)]
      rfl
    have hs := @ih (buffer.setIfInBounds i b) (i + 1) (by rw [Array.size_setIfInBounds]; omega)
    rw [hb, List.append_assoc, List.singleton_append] at hs
    rw [overwrite, ← hs, List.length_cons]
    congr 1
    omega

def buffered (s : Chunked ρ) : Bytes := (s.buffer.toList.take s.filled).drop s.used

/-- The chunk is in the buffer, and no more has been given away than it has. -/
structure Fits (s : Chunked ρ) : Prop where
  used_le : s.used ≤ s.filled
  filled_le : s.filled ≤ s.buffer.size

variable {s : Chunked ρ}

theorem length_buffered (h : s.Fits) : s.buffered.length = s.filled - s.used := by
  have := h.filled_le
  simp [buffered]
  omega

theorem head?_buffered (s : Chunked ρ) :
    s.buffered.head? = if s.used < s.filled then s.buffer[s.used]? else none := by
  rw [buffered, List.head?_drop, List.getElem?_take]
  simp

theorem buffered_eq_nil (h : ¬ s.used < s.filled) : s.buffered = [] := by
  apply List.drop_eq_nil_of_le
  have := List.length_take_le s.filled s.buffer.toList
  omega

theorem buffered_ne_nil (h : s.Fits) (hu : s.used < s.filled) : s.buffered ≠ [] := by
  have hl := length_buffered h
  intro hn
  rw [hn, List.length_nil] at hl
  omega

theorem buffered_skip (s : Chunked ρ) :
    ({ s with used := s.used + 1 } : Chunked ρ).buffered = s.buffered.tail := by
  simp [buffered, List.tail_drop]

theorem fits_ofReader (reader : ρ) (capacity : Nat) : (ofReader reader capacity).Fits :=
  ⟨Nat.le_refl 0, Nat.zero_le _⟩

theorem Fits.skip (h : s.Fits) (hu : s.used < s.filled) :
    ({ s with used := s.used + 1 } : Chunked ρ).Fits :=
  ⟨hu, h.filled_le⟩

theorem buffered_overwrite (reader : ρ) {bs : Bytes} (h : bs.length ≤ s.buffer.size) :
    ({ s with reader, buffer := overwrite s.buffer 0 bs, used := 0, filled := bs.length } :
      Chunked ρ).buffered = bs := by
  have ht := take_overwrite (i := 0) (by rwa [Nat.zero_add])
  rw [Nat.zero_add] at ht
  simpa [buffered] using ht

variable [Reader ρ] {ending : Ending} {rest more : Bytes}

theorem length_le_of_read {n : Nat} {r r' : ρ} {bs : Bytes}
    (h : Reader.read n r = (.bytes bs, r')) : bs.length ≤ n :=
  Reader.length_le n r bs (by rw [h])

theorem Fits.fill (h : s.Fits) : s.fill.2.Fits := by
  fun_induction Chunked.fill s with
  | case1 | case2 | case5 => exact ⟨h.used_le, h.filled_le⟩
  | case3 s hs b bs r hr =>
    exact ⟨Nat.zero_le _, (size_overwrite s.buffer 0 (b :: bs)).symm ▸ length_le_of_read hr⟩
  | case4 s hs r hr ih => exact ih ⟨h.used_le, h.filled_le⟩

inductive Ahead (ending : Ending) (s : Chunked ρ) : Bytes → Prop where
  | reading {more : Bytes} (hx : s.exhausted = false)
      (h : Delivers s.buffer.size ending s.reader more) : Ahead ending s (s.buffered ++ more)
  | exhausted (hx : s.exhausted = true) (he : ending = .finished) : Ahead ending s s.buffered

theorem ahead_ofReader {reader : ρ} {capacity : Nat} {data : Bytes}
    (h : Delivers (max capacity 1) ending reader data) :
    Ahead ending (ofReader reader capacity) data := by
  have hsize : (ofReader reader capacity).buffer.size = max capacity 1 := Array.size_replicate
  exact .reading rfl (hsize.symm ▸ h)

theorem Ahead.skip (h : Ahead ending s rest) (hu : s.buffered ≠ []) :
    Ahead ending { s with used := s.used + 1 } rest.tail := by
  cases h with
  | reading hx h =>
    rw [List.tail_append_of_ne_nil hu, ← buffered_skip]
    exact .reading hx h
  | exhausted hx he =>
    rw [← buffered_skip]
    exact .exhausted hx he

theorem Ahead.delivers (h : Ahead ending s rest) (hs : ¬(s.used < s.filled ∨ s.exhausted = true)) :
    s.exhausted = false ∧ s.buffered = [] ∧ Delivers s.buffer.size ending s.reader rest := by
  have hnil := buffered_eq_nil fun hu => hs (.inl hu)
  cases h with
  | exhausted hx => exact absurd (.inr hx) hs
  | reading hx h =>
    rw [hnil]
    exact ⟨hx, rfl, h⟩

theorem Ahead.of_reading (hx : s.exhausted = false) (hn : s.buffered = [])
    (h : Delivers s.buffer.size ending s.reader rest) : Ahead ending s rest := by
  have ha := Ahead.reading hx h
  rwa [hn] at ha

theorem Ahead.fill (hf : s.Fits) (h : Ahead ending s rest) :
    (∃ e, ending = .failed e ∧ s.fill.1 = some e) ∨
      s.fill.1 = none ∧ Ahead ending s.fill.2 rest ∧ s.fill.2.buffered.head? = rest.head? ∧
        (rest = [] → ending = .finished) := by
  fun_induction Chunked.fill s generalizing rest with
  | case1 s hs =>
    refine .inr ⟨rfl, h, ?_⟩
    cases h with
    | exhausted hx he => exact ⟨rfl, fun _ => he⟩
    | reading hx h =>
      have hne := buffered_ne_nil hf (hs.resolve_right (by simp [hx]))
      obtain ⟨b, bs, hb⟩ := List.exists_cons_of_ne_nil hne
      simp [hb]
  | case2 s hs r hr =>
    obtain ⟨-, hn, hd⟩ := h.delivers hs
    obtain ⟨rfl, rfl⟩ := hd.of_end hr
    refine .inr ⟨rfl, ?_, congrArg List.head? hn, fun _ => rfl⟩
    rw [← hn]
    exact .exhausted rfl rfl
  | case3 s hs b bs r hr =>
    obtain ⟨hx, -, hd⟩ := h.delivers hs
    obtain ⟨rest, rfl, hd⟩ := hd.of_piece hr
    have hb := buffered_overwrite r (length_le_of_read hr)
    have ha := @Ahead.reading _ _ ending { s with
      reader := r, buffer := overwrite s.buffer 0 (b :: bs), used := 0, filled := bs.length + 1 }
      rest hx (by rwa [size_overwrite])
    rw [← List.length_cons (a := b), hb] at ha
    refine .inr ⟨rfl, ha, ?_, fun hnil => absurd hnil (List.cons_ne_nil _ _)⟩
    rw [← List.length_cons (a := b), hb]
    rfl
  | case4 s hs r hr ih =>
    obtain ⟨hx, hn, hd⟩ := h.delivers hs
    exact ih ⟨hf.used_le, hf.filled_le⟩ (.of_reading hx hn (hd.of_interrupted hr))
  | case5 s hs e r hr =>
    obtain ⟨-, -, hd⟩ := h.delivers hs
    exact .inl ⟨e, (hd.of_failed hr).1, rfl⟩

@[simp] theorem snd_sourcePeek (s : Chunked ρ) : (Source.peek s).2 = s.fill.2 := snd_peek s

theorem fst_sourcePeek (s : Chunked ρ) : (Source.peek s).1 = match s.fill.1 with
    | some e => .error e
    | none => .ok s.fill.2.buffered.head? := by
  simp only [Source.peek, peek]
  split
  · rename_i h
    rw [h]
  · rename_i h
    rw [h, head?_buffered]

/-- What the source is like while the reader delivers its bytes: these bytes in memory, and any more
behind them if the reader fails there. -/
def Mirrors (ending : Ending) (more : Bytes) (s : Chunked ρ) (t : Slice) : Prop :=
  s.Fits ∧ ∃ rest, Ahead ending s rest ∧ t.rest = rest ++ more

theorem simulation_mirrors (hm : ending = .finished → more = []) :
    Source.Simulation (fun e => ending = .failed e) (Mirrors (ρ := ρ) ending more) where
  peek {s t} h := by
    obtain ⟨hf, rest, ha, ht⟩ := h
    rw [snd_sourcePeek, fst_sourcePeek]
    obtain ⟨e, he, hs⟩ | ⟨hs, ha', hhead, hend⟩ := ha.fill hf
    · exact .inl ⟨e, he, by rw [hs]⟩
    · refine .inr ⟨?_, hf.fill, rest, ha', ht⟩
      rw [hs, hhead, show (Source.peek t).1 = .ok t.rest.head? from rfl, ht]
      cases rest with
      | nil => rw [hm (hend rfl), List.nil_append]
      | cons b rest => rfl
  skip {s t b} h hb := by
    obtain ⟨hf, rest, ha, ht⟩ := h
    have hu := used_lt_of_peek hb
    rw [fst_sourcePeek] at hb
    rw [snd_sourcePeek]
    obtain ⟨e, -, hs⟩ | ⟨-, ha', hhead, -⟩ := ha.fill hf
    · rw [hs] at hb
      cases hb
    · have hne := buffered_ne_nil hf.fill hu
      refine ⟨hf.fill.skip hu, rest.tail, ha'.skip hne, ?_⟩
      obtain ⟨c, cs, hc⟩ := List.exists_cons_of_ne_nil hne
      cases rest with
      | nil => simp [hc] at hhead
      | cons d rest =>
        rw [show (Source.skip (Source.peek t).2).rest = t.rest.tail from rfl, ht]
        rfl

theorem mirrors_ofReader {reader : ρ} {capacity : Nat} {data : Bytes} (more : Bytes)
    (h : Delivers (max capacity 1) ending reader data) :
    Mirrors ending more (ofReader reader capacity) (Slice.ofBytes (data ++ more)) :=
  ⟨fits_ofReader reader capacity, data, ahead_ofReader h, rfl⟩

/-- Over a reader that delivers some bytes a source answers every call as these bytes in memory do. -/
theorem alike_of_delivers {reader : ρ} {capacity : Nat} {data : Bytes}
    (h : Delivers (max capacity 1) .finished reader data) :
    Source.Alike (ofReader reader capacity) (Slice.ofBytes data) := by
  have hs := mirrors_ofReader [] h
  rw [List.append_nil] at hs
  exact (simulation_mirrors fun _ => rfl).alike (fun e he => Ending.noConfusion he) hs

end Chunked
end ExactJson
