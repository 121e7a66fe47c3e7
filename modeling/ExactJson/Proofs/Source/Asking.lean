import ExactJson.Proofs.Source.Chunks

/-! When a chunked source asks its reader, and that it gives away exactly what it was given. The reader
is watched by one that writes down its answers, which the source does not notice. -/
namespace ExactJson

def Reply.given : Reply → Bytes
  | bytes bs => bs
  | interrupted | failed _ => []

structure Logged (ρ : Type) where
  reader : ρ
  log : List Reply

namespace Logged
variable {ρ : Type}

def pulled (r : Logged ρ) : Bytes := r.log.flatMap Reply.given

variable [Reader ρ]

instance : Reader (Logged ρ) where
  read n r := ((Reader.read n r.reader).1,
    ⟨(Reader.read n r.reader).2, r.log ++ [(Reader.read n r.reader).1]⟩)
  work r := Reader.work r.reader
  length_le n r := Reader.length_le n r.reader
  work_bytes n r := Reader.work_bytes n r.reader
  work_interrupted n r := Reader.work_interrupted n r.reader
  work_failed n r := Reader.work_failed n r.reader

theorem of_read {n : Nat} {r r' : Logged ρ} {reply : Reply} (h : Reader.read n r = (reply, r')) :
    Reader.read n r.reader = (reply, r'.reader) ∧ r'.log = r.log ++ [reply] := by
  cases h
  exact ⟨rfl, rfl⟩

end Logged

namespace Chunked
variable {ρ : Type}

def unlogged (s : Chunked (Logged ρ)) : Chunked ρ :=
  ⟨s.reader.reader, s.buffer, s.used, s.filled, s.exhausted⟩

/-- What holds of a source with a buffer of `n` bytes that has given some bytes away: it has kept all
the others that it has pulled, and knows of the end. -/
structure Accounted (n : Nat) (given : Bytes) (s : Chunked (Logged ρ)) : Prop where
  fits : s.Fits
  size : s.buffer.size = n
  pulled : given ++ s.buffered = s.reader.pulled
  exhausted : .bytes [] ∈ s.reader.log → s.exhausted = true

theorem accounted_ofReader (reader : ρ) (capacity : Nat) :
    Accounted (max capacity 1) [] (ofReader (⟨reader, []⟩ : Logged ρ) capacity) where
  fits := fits_ofReader _ capacity
  size := Array.size_replicate
  pulled := rfl
  exhausted h := absurd h List.not_mem_nil

theorem pulled_snoc {r r' : Logged ρ} {reply : Reply} (h : r'.log = r.log ++ [reply]) :
    r'.pulled = r.pulled ++ reply.given := by
  simp [Logged.pulled, h]

variable [Reader ρ] {s : Chunked (Logged ρ)} {n : Nat} {given : Bytes}

theorem fill_of_asking {s : Chunked ρ} (h : ¬(s.used < s.filled ∨ s.exhausted = true)) :
    s.fill = match Reader.read s.buffer.size s.reader with
      | (.bytes [], r) => (none, { s with reader := r, exhausted := true })
      | (.bytes (b :: bs), r) => (none, { s with
          reader := r
          buffer := overwrite s.buffer 0 (b :: bs)
          used := 0
          filled := bs.length + 1 })
      | (.interrupted, r) => fill { s with reader := r }
      | (.failed e, r) => (some e, { s with reader := r }) := by
  rw [Chunked.fill, if_neg h]
  split <;> rename_i hr <;> rw [hr]

@[simp] theorem fill_unlogged (s : Chunked (Logged ρ)) :
    s.unlogged.fill = (s.fill.1, s.fill.2.unlogged) := by
  fun_induction Chunked.fill s with
  | case1 s hs =>
    rw [Chunked.fill]
    exact if_pos hs
  | case2 s hs r hr | case3 s hs b bs r hr | case5 s hs e r hr =>
    rw [fill_of_asking (s := s.unlogged) hs]
    simp only [unlogged, (Logged.of_read hr).1]
  | case4 s hs r hr ih =>
    rw [fill_of_asking (s := s.unlogged) hs]
    simp only [unlogged, (Logged.of_read hr).1] at ih ⊢
    exact ih

theorem simulation_unlogged : Source.Simulation (fun _ => False)
    (fun (s : Chunked (Logged ρ)) (t : Chunked ρ) => s.unlogged = t) where
  peek {s t} h := by
    subst h
    refine .inr ⟨?_, by simp⟩
    simp only [Source.peek, peek, fill_unlogged]
    cases s.fill with
    | mk e u => cases e <;> rfl
  skip {s t b} h _ := by
    subst h
    simp only [snd_sourcePeek, fill_unlogged]
    rfl

theorem Accounted.of_read (h : Accounted n given s) {r : Logged ρ} {reply : Reply} {exhausted : Bool}
    (hr : Reader.read s.buffer.size s.reader = (reply, r)) (hg : reply.given = [])
    (hx : s.exhausted = true → exhausted = true) (he : reply = .bytes [] → exhausted = true) :
    Accounted n given { s with reader := r, exhausted } where
  fits := ⟨h.fits.used_le, h.fits.filled_le⟩
  size := h.size
  pulled := by
    rw [pulled_snoc (Logged.of_read hr).2, hg, List.append_nil]
    exact h.pulled
  exhausted hm := by
    rw [(Logged.of_read hr).2] at hm
    obtain hm | hm := List.mem_append.mp hm
    · exact hx (h.exhausted hm)
    · exact he (List.mem_singleton.mp hm).symm

theorem Accounted.fill (h : Accounted n given s) : Accounted n given s.fill.2 := by
  fun_induction Chunked.fill s with
  | case1 => exact h
  | case2 s hs r hr => exact h.of_read hr rfl (fun _ => rfl) fun _ => rfl
  | case3 s hs b bs r hr =>
    have hlog := (Logged.of_read hr).2
    have hb := buffered_overwrite r (length_le_of_read hr)
    have hnil := buffered_eq_nil fun hu => hs (.inl hu)
    have hsize := size_overwrite s.buffer 0 (b :: bs)
    refine ⟨⟨Nat.zero_le _, hsize.symm ▸ length_le_of_read hr⟩, hsize.trans h.size, ?_, fun hm => ?_⟩
    · rw [List.length_cons] at hb
      rw [hb, pulled_snoc hlog, ← h.pulled, hnil, List.append_nil]
      rfl
    · rw [hlog] at hm
      obtain hm | hm := List.mem_append.mp hm
      · exact h.exhausted hm
      · cases List.mem_singleton.mp hm
  | case4 s hs r hr ih => exact ih (h.of_read hr rfl id Reply.noConfusion)
  | case5 s hs e r hr => exact h.of_read hr rfl id Reply.noConfusion

theorem Accounted.call (h : Accounted n given s) (c : Source.Call) :
    Accounted n (given ++ c.taken (Source.call s c).1) (Source.call s c).2 := by
  have hf := h.fill
  have hpeek := snd_sourcePeek s
  by_cases hc : c = .next ∧ ∃ b, (Source.peek s).1 = .ok (some b)
  · obtain ⟨rfl, b, hb⟩ := hc
    have hu := used_lt_of_peek hb
    have hhead : s.fill.2.buffered.head? = some b := by
      rw [fst_sourcePeek] at hb
      split at hb
      · cases hb
      · exact Except.ok.inj hb
    simp only [Source.call, Source.next_of_some hb, hpeek, Source.Call.taken]
    refine ⟨hf.fits.skip hu, hf.size, ?_, hf.exhausted⟩
    have hskip : (Source.skip s.fill.2).buffered = s.fill.2.buffered.tail := buffered_skip s.fill.2
    obtain ⟨bs, hbs⟩ := List.head?_eq_some_iff.mp hhead
    have hpulled := hf.pulled
    rw [hbs] at hpulled hskip
    rw [hskip, List.append_assoc]
    exact hpulled
  · have hcall : (Source.call s c).2 = s.fill.2 ∧ c.taken (Source.call s c).1 = [] := by
      cases c with
      | peek => exact ⟨hpeek, rfl⟩
      | next =>
        have hne : ∀ b, (Source.peek s).1 ≠ .ok (some b) := fun b hb => hc ⟨rfl, b, hb⟩
        rw [Source.call, Source.next_of_ne hne]
        exact ⟨hpeek, Source.Call.taken_of_ne hne⟩
    rw [hcall.1, hcall.2, List.append_nil]
    exact hf

theorem Accounted.calls (h : Accounted n given s) (cs : List Source.Call) :
    Accounted n (given ++ Source.taken cs (Source.answers s cs)) (Source.after s cs) := by
  induction cs generalizing s given with
  | nil => simpa [Source.taken, Source.answers, Source.after] using h
  | cons c cs ih =>
    rw [Source.answers, Source.taken_cons, ← List.append_assoc]
    exact ih (h.call c)

def AskedOnce (before after : List Reply) : Prop :=
  ∃ n reply, reply ≠ .interrupted ∧ after = before ++ (List.replicate n .interrupted ++ [reply])

/-- A source asks its reader only when it has no byte left and has not seen the end. -/
theorem Accounted.log_fill (h : Accounted n given s) : s.fill.2.reader.log = s.reader.log ∨
    s.buffered = [] ∧ .bytes [] ∉ s.reader.log ∧ AskedOnce s.reader.log s.fill.2.reader.log := by
  by_cases hs : s.used < s.filled ∨ s.exhausted = true
  · rw [Chunked.fill, if_pos hs]
    exact .inl rfl
  · refine .inr ⟨buffered_eq_nil fun hu => hs (.inl hu), fun hm => hs (.inr (h.exhausted hm)), ?_⟩
    clear h
    fun_induction Chunked.fill s with
    | case1 s hx => exact absurd hx hs
    | case2 s _ r hr | case3 s _ b bs r hr | case5 s _ e r hr =>
      exact ⟨0, _, Reply.noConfusion, (Logged.of_read hr).2⟩
    | case4 s _ r hr ih =>
      obtain ⟨n, reply, hne, hlog⟩ := ih hs
      refine ⟨n + 1, reply, hne, hlog.trans ?_⟩
      rw [(Logged.of_read hr).2, List.replicate_succ, List.append_assoc]
      rfl

theorem log_call (s : Chunked (Logged ρ)) (c : Source.Call) :
    (Source.call s c).2.reader.log = s.fill.2.reader.log := by
  have hpeek := snd_sourcePeek s
  cases c with
  | peek => rw [Source.call, hpeek]
  | next =>
    by_cases hb : ∃ b, (Source.peek s).1 = .ok (some b)
    · obtain ⟨b, hb⟩ := hb
      rw [Source.call, Source.next_of_some hb, hpeek]
      rfl
    · rw [Source.call, Source.next_of_ne fun b h => hb ⟨b, h⟩, hpeek]

/-- What the log of a reader shows behind some calls of its source, and at the next one. -/
structure Ledger (reader : ρ) (capacity : Nat) (cs : List Source.Call)
    (s : Chunked (Logged ρ)) : Prop where
  unlogged : s.unlogged = Source.after (ofReader reader capacity) cs
  used_le : s.used ≤ s.filled
  filled_le : s.filled ≤ s.buffer.size
  size : s.buffer.size = max capacity 1
  /-- Nothing is lost, repeated or out of order. -/
  pulled : Source.taken cs (Source.answers (ofReader reader capacity) cs) ++ s.buffered =
    s.reader.pulled
  /-- The reader is asked only when it has to be, and again only if it was interrupted. -/
  asked (c : Source.Call) : (Source.call s c).2.reader.log = s.reader.log ∨
    s.buffered = [] ∧ .bytes [] ∉ s.reader.log ∧
      AskedOnce s.reader.log (Source.call s c).2.reader.log

theorem ledger (reader : ρ) (capacity : Nat) (cs : List Source.Call) :
    Ledger reader capacity cs (Source.after (ofReader (⟨reader, []⟩ : Logged ρ) capacity) cs) := by
  obtain ⟨hanswers, hafter⟩ := simulation_unlogged.calls (fun _ => id)
    (show (ofReader (⟨reader, []⟩ : Logged ρ) capacity).unlogged = ofReader reader capacity from rfl)
    cs
  have h := (accounted_ofReader reader capacity).calls cs
  rw [hanswers, List.nil_append] at h
  refine ⟨hafter, h.fits.used_le, h.fits.filled_le, h.size, h.pulled, fun c => ?_⟩
  rw [log_call]
  exact h.log_fill

end Chunked
end ExactJson
