import ExactJson.Proofs.Source.Memory
import ExactJson.Proofs.Source.Rewinding
import ExactJson.Proofs.Token.Places

/-! Streams that are restarted. Nothing that was asked of a stream before shows behind a restart, and
nothing has changed behind one that failed. -/
namespace ExactJson.TokenStream
open Text

inductive Call where
  | request (r : Request)
  | restart
deriving DecidableEq, Repr

inductive Answer where
  | token (outcome : Option (Except ReadError Token))
  | restarted (failure : Option ReadError)

section Calls
variable {σ : Type} [Source σ] [Rewind σ]

def call (t : TokenStream σ) : Call → Answer × TokenStream σ
  | .request r => (.token (t.request r).1, (t.request r).2)
  | .restart => (.restarted t.restart.1, t.restart.2)

def behindCalls (t : TokenStream σ) : List Call → TokenStream σ
  | [] => t
  | c :: cs => (t.call c).2.behindCalls cs

def observe (t : TokenStream σ) : List Call → List (Answer × Position)
  | [] => []
  | c :: cs => ((t.call c).1, (t.call c).2.position) :: (t.call c).2.observe cs

end Calls

section Slices
variable {t : TokenStream Slice}

@[simp] theorem data_read (t : TokenStream Slice) : t.read.2.source.data = t.source.data := by
  obtain ⟨⟨data, rest⟩, p, finished⟩ := t
  rw [read, feed_slice]

@[simp] theorem data_call (t : TokenStream Slice) (c : Call) :
    (t.call c).2.source.data = t.source.data := by
  cases c with
  | restart => rfl
  | request r =>
    cases r with
    | read => exact data_read t
    | next =>
      cases h : t.finished with
      | true => rw [call, request_next_of_finished h]
      | false =>
        rw [call, request_next h]
        exact data_read t

@[simp] theorem data_behindCalls (t : TokenStream Slice) (cs : List Call) :
    (t.behindCalls cs).source.data = t.source.data := by
  induction cs generalizing t with
  | nil => rfl
  | cons c cs ih => exact (ih _).trans (data_call t c)

theorem restart_slice (t : TokenStream Slice) :
    t.restart = (none, ofSource (Slice.ofBytes t.source.data)) := rfl

end Slices

section Chunks
variable {ρ : Type} [SeekStart ρ] {t : TokenStream (Chunked ρ)} {e : IoError} {r : ρ}

theorem restart_of_failed (h : SeekStart.seekStart t.source.reader = (some e, r)) :
    t.restart = (some (.input e), { t with source := { t.source with reader := r } }) := by
  rw [restart, Chunked.rewind_of_failed h]

theorem restart_of_done (h : SeekStart.seekStart t.source.reader = (none, r)) :
    t.restart = (none, ofSource { t.source with
      reader := r, used := 0, filled := 0, exhausted := false }) := by
  rw [restart, Chunked.rewind_of_done h]
  rfl

theorem Related.restart {u : TokenStream (Chunked ρ)} (h : Related Chunked.Same t u) :
    t.restart.1 = u.restart.1 ∧ Related Chunked.Same t.restart.2 u.restart.2 := by
  obtain ⟨hfailure, hs⟩ := h.source.rewind
  rw [TokenStream.restart, TokenStream.restart]
  cases ht : Rewind.rewind t.source with
  | mk failure s =>
    cases hu : Rewind.rewind u.source with
    | mk failure' s' =>
      rw [ht, hu] at hfailure hs
      obtain rfl : failure = failure' := hfailure
      cases failure with
      | some e => exact ⟨rfl, hs, h.position, h.finished⟩
      | none => exact ⟨rfl, hs, rfl, rfl⟩

variable [Reader ρ] {u : TokenStream (Chunked ρ)}

theorem Related.call (h : Related Chunked.Same t u) (c : Call) :
    (t.call c).1 = (u.call c).1 ∧ Related Chunked.Same (t.call c).2 (u.call c).2 := by
  cases c with
  | request r =>
    obtain ⟨e, ⟨⟩, -⟩ | ⟨hr, hnext⟩ := h.request Chunked.simulation_same r
    exact ⟨congrArg Answer.token hr, hnext⟩
  | restart =>
    obtain ⟨hr, hnext⟩ := h.restart
    exact ⟨congrArg Answer.restarted hr, hnext⟩

/-- What is left in the buffers of old chunks never shows. -/
theorem Related.observe (h : Related Chunked.Same t u) (cs : List Call) :
    t.observe cs = u.observe cs := by
  induction cs generalizing t u with
  | nil => rfl
  | cons c cs ih =>
    obtain ⟨hc, hnext⟩ := h.call c
    rw [TokenStream.observe, TokenStream.observe, hc, hnext.position, ih hnext]

variable {n : Nat} {P : ρ → Prop}

theorem sized_call (hread : ∀ n r, P r → P (Reader.read n r).2)
    (hseek : ∀ r, P r → P (SeekStart.seekStart r).2) (h : t.source.Sized n P) (c : Call) :
    (t.call c).2.source.Sized n P := by
  cases c with
  | request r =>
    have ht : Related (fun s s' => s = s' ∧ s.Sized n P) t t := ⟨⟨rfl, h⟩, rfl, rfl⟩
    obtain ⟨e, ⟨⟩, -⟩ | ⟨-, hnext⟩ := ht.request (Chunked.simulation_sized n hread) r
    exact hnext.source.2
  | restart =>
    have hr := hseek t.source.reader h.reader
    rw [TokenStream.call]
    cases hs : SeekStart.seekStart t.source.reader with
    | mk failure r =>
      rw [hs] at hr
      cases failure with
      | some e =>
        rw [restart_of_failed hs]
        exact ⟨h.size, hr⟩
      | none =>
        rw [restart_of_done hs]
        exact ⟨h.size, hr⟩

theorem sized_behindCalls (hread : ∀ n r, P r → P (Reader.read n r).2)
    (hseek : ∀ r, P r → P (SeekStart.seekStart r).2) (h : t.source.Sized n P) (cs : List Call) :
    (t.behindCalls cs).source.Sized n P := by
  induction cs generalizing t with
  | nil => exact h
  | cons c cs ih => exact ih (sized_call hread hseek h c)

end Chunks

/-- Whatever was asked of a stream before, a restart makes it a new stream over the reader that has
gone back, and over the document in memory that this delivers. If the reader fails to go back, its error
is passed on and all else is as it was. -/
theorem restart_behindCalls {ρ : Type} [Reader ρ] [SeekStart ρ] (reader : ρ) (capacity : Nat)
    (cs : List Call) :
    let t := (ofSource (Chunked.ofReader reader capacity)).behindCalls cs
    (∀ r, SeekStart.seekStart t.source.reader = (none, r) →
      t.restart.1 = none ∧ t.restart.2.position = .start ∧ t.restart.2.finished = false ∧
      (∀ later, t.restart.2.observe later =
        (ofSource (Chunked.ofReader r capacity)).observe later) ∧
      ∀ data, Delivers (max capacity 1) .finished r data → ∀ rs,
        t.restart.2.answers rs = (ofSource (Slice.ofBytes data)).answers rs ∧
          (t.restart.2.after rs).position = ((ofSource (Slice.ofBytes data)).after rs).position) ∧
    (∀ e r, SeekStart.seekStart t.source.reader = (some e, r) →
      t.restart = (some (.input e), { t with source := { t.source with reader := r } }) ∧
        (r = t.source.reader → t.restart.2 = t)) ∧
    ∀ data cs, ((ofSource (Slice.ofBytes data)).behindCalls cs).restart =
      (none, ofSource (Slice.ofBytes data)) := by
  intro t
  have hsized : t.source.Sized (max capacity 1) fun _ => True :=
    sized_behindCalls (fun _ _ => id) (fun _ => id) ⟨Array.size_replicate, trivial⟩ cs
  refine ⟨fun r hr => ?_, fun e r hr => ?_, fun data cs => ?_⟩
  · rw [restart_of_done hr]
    have hsame := related_ofSource (Chunked.same_ofReader hsized.size r)
    refine ⟨rfl, rfl, rfl, hsame.observe, fun data hdata rs => ?_⟩
    obtain ⟨hanswers, hafter⟩ := hsame.requests Chunked.simulation_same (fun _ => id) rs
    obtain ⟨hanswers', hafter'⟩ := (related_ofSource (Chunked.alike_of_delivers hdata)).requests
      Source.simulation_alike (fun _ => id) rs
    exact ⟨hanswers.trans hanswers', hafter.position.trans hafter'.position⟩
  · rw [restart_of_failed hr]
    refine ⟨rfl, ?_⟩
    rintro rfl
    rfl
  · rw [restart_slice, data_behindCalls]
    rfl

def seekable (data : Bytes) (interrupts : Nat) (seekFailure : Option IoError) : MemoryReader where
  data := data.toArray
  offset := 0
  interrupts := interrupts
  step := some 1
  failAt := none
  failure := ⟨.connectionReset, "reset"⟩
  seekFailure := seekFailure

theorem delivers_seekable (data : Bytes) (interrupts : Nat) (seekFailure : Option IoError) {n : Nat}
    (hn : 0 < n) : Delivers n .finished (seekable data interrupts seekFailure) data := by
  have h := MemoryReader.delivers (r := seekable data interrupts seekFailure) hn
    (by simp [seekable]) (Nat.zero_le _)
  have hending : (seekable data interrupts seekFailure).ending = .finished := rfl
  have hfront : (seekable data interrupts seekFailure).front = data := by
    simp [MemoryReader.front, MemoryReader.stop, seekable]
  rwa [hending, hfront] at h

def Moved (m r : MemoryReader) : Prop :=
  ∃ offset interrupts, r = { m with offset, interrupts }

theorem Moved.read {m r : MemoryReader} (n : Nat) (h : Moved m r) :
    Moved m (Reader.read n r).2 := by
  obtain ⟨offset, interrupts, rfl⟩ := h
  simp only [Reader.read, MemoryReader.read]
  split
  · exact ⟨offset, interrupts - 1, rfl⟩
  · split
    · exact ⟨offset, interrupts, rfl⟩
    · exact ⟨_, interrupts, rfl⟩

theorem Moved.seekStart {m r : MemoryReader} (h : Moved m r) :
    Moved m (SeekStart.seekStart r).2 := by
  obtain ⟨offset, interrupts, rfl⟩ := h
  simp only [SeekStart.seekStart]
  split
  · exact ⟨offset, interrupts, rfl⟩
  · exact ⟨0, interrupts, rfl⟩

theorem moved_behindCalls (m : MemoryReader) (capacity : Nat) (cs : List Call) :
    Moved m ((ofSource (Chunked.ofReader m capacity)).behindCalls cs).source.reader :=
  (sized_behindCalls (fun n _ => Moved.read n) (fun _ => Moved.seekStart)
    ⟨Array.size_replicate, m.offset, m.interrupts, rfl⟩ cs).reader

/-- In the middle of a document a reader goes back and delivers it once more, or fails and stays. -/
theorem restart_seekable :
    let cs : List Call := [.request .read, .request .next, .restart, .request .read]
    let t := (ofSource (Chunked.ofReader (seekable (utf8 "[1,") 1 none) 3)).behindCalls cs
    let e : IoError := ⟨.unsupported, "seek"⟩
    let u := (ofSource (Chunked.ofReader (seekable (utf8 "[1,") 1 (some e)) 3)).behindCalls cs
    (∃ r, SeekStart.seekStart t.source.reader = (none, r) ∧
      Delivers (max 3 1) .finished r (utf8 "[1,") ∧ t.restart.1 = none ∧
      ∀ rs, t.restart.2.answers rs = (ofSource (Slice.ofBytes (utf8 "[1,"))).answers rs) ∧
    SeekStart.seekStart u.source.reader = (some e, u.source.reader) ∧
      u.restart = (some (.input e), u) := by
  intro cs t e u
  constructor
  · obtain ⟨offset, interrupts, hr⟩ := moved_behindCalls (seekable (utf8 "[1,") 1 none) 3 cs
    have hseek : SeekStart.seekStart t.source.reader =
        (none, seekable (utf8 "[1,") interrupts none) := by
      rw [show t.source.reader = _ from hr]
      rfl
    have hdelivers := delivers_seekable (utf8 "[1,") interrupts none (n := max 3 1) (by decide)
    obtain ⟨hdone, -, -, -, hanswers⟩ := (restart_behindCalls _ 3 cs).1 _ hseek
    exact ⟨_, hseek, hdelivers, hdone, fun rs => (hanswers _ hdelivers rs).1⟩
  · obtain ⟨offset, interrupts, hr⟩ := moved_behindCalls (seekable (utf8 "[1,") 1 (some e)) 3 cs
    have hseek : SeekStart.seekStart u.source.reader = (some e, u.source.reader) := by
      rw [show u.source.reader = _ from hr]
      rfl
    obtain ⟨hrestart, hsame⟩ := (restart_behindCalls _ 3 cs).2.1 e _ hseek
    exact ⟨hseek, Prod.ext (congrArg Prod.fst hrestart) (hsame rfl)⟩

end ExactJson.TokenStream
