import ExactJson.Layout.Sink
import ExactJson.Proofs.Layout.Grammar

/-! Writing into a sink that has room for so many bytes and then fails. However a text is cut into
pieces, however few bytes are taken at once, and however often the sink is interrupted before it
answers, it holds the beginning of the text that there is room for, and a failure is its own. -/
namespace ExactJson
open Text

def Layout.texts (l : Layout) (vs : List Value) : Bytes := vs.flatMap fun v => utf8 (v.render l)

namespace Sink
variable {σ : Type} {step limit : Nat} {failure e : IoError} {Holds : σ → Bytes → Prop} {s t : σ}
variable {total held more bs : Bytes} {l : Layout} {vs : List Value} {answer : Uptake}

/-- What a sink answers at last, when an offer is made again each time that it is interrupted. -/
inductive Answers [Sink σ] (bs : Bytes) (answer : Uptake) : σ → σ → Prop where
  | directly {s t : σ} (h : offer s bs = (answer, t)) (ha : answer ≠ .interrupted) :
      Answers bs answer s t
  | again {s t u : σ} (h : offer s bs = (.interrupted, t)) (ha : Answers bs answer t u) :
      Answers bs answer s u

/-- Sinks that take at most `step` bytes at once, though one at least, and `limit` bytes in all, and
then fail. They answer after any finite number of interruptions, upon which the same is offered
again. What a sink holds grows by the bytes that it says it has taken. -/
structure Fills [Sink σ] (step limit : Nat) (failure : IoError) (Holds : σ → Bytes → Prop) :
    Prop where
  takes {s : σ} {held bs : Bytes} (h : Holds s held) (hroom : held.length < limit) (hbs : bs ≠ []) :
    ∃ n t, Answers bs (.took n) s t ∧ 0 < n ∧ n ≤ step ∧ n ≤ bs.length ∧
      held.length + n ≤ limit ∧ Holds t (held ++ bs.take n)
  fails {s : σ} {held bs : Bytes} (h : Holds s held) (hfull : held.length = limit) (hbs : bs ≠ []) :
    ∃ t, Answers bs (.failed failure) s t ∧ Holds t held

/-- How writing ends when `total` is all that should have been written: the sink holds as much of it
as there is room for, and has failed if that is not all. -/
def Filled (limit : Nat) (failure : IoError) (Holds : σ → Bytes → Prop) (total : Bytes)
    (r : Option (Option IoError × σ)) : Prop :=
  ∃ t, r = some (if total.length ≤ limit then none else some failure, t) ∧
    Holds t (total.take limit)

theorem Filled.of_fits (h : Holds s held) (hle : held.length ≤ limit) :
    Filled limit failure Holds held (some (none, s)) := by
  refine ⟨s, by rw [if_pos hle], ?_⟩
  rwa [List.take_of_length_le hle]

/-- Behind a failure nothing more is held, whatever should have been written. -/
theorem Filled.bind {r : Option (Option IoError × σ)} {next : σ → Option (Option IoError × σ)}
    (h : Filled limit failure Holds total r)
    (hnext : ∀ t, total.length ≤ limit → Holds t total →
      Filled limit failure Holds (total ++ more) (next t)) :
    Filled limit failure Holds (total ++ more) (r.bind (unlessFailed next)) := by
  obtain ⟨t, rfl, ht⟩ := h
  by_cases hle : total.length ≤ limit
  · rw [if_pos hle]
    rw [List.take_of_length_le hle] at ht
    exact hnext t hle ht
  · have hmore : ¬ (total ++ more).length ≤ limit := by
      rw [List.length_append]
      omega
    refine ⟨t, by rw [if_neg hle, if_neg hmore]; rfl, ?_⟩
    rwa [List.take_append_of_le_length (Nat.le_of_not_le hle)]

variable [Sink σ]

@[simp] theorem putBytes?_nil (s : σ) : putBytes? s [] = some (none, s) := by
  rw [putBytes?, offerOnce, if_pos rfl]

theorem putBytes?_of_interrupted (h : offer s bs = (.interrupted, t)) (hbs : bs ≠ []) :
    putBytes? s bs = putBytes? t bs := by
  rw [putBytes?, offerOnce, if_neg hbs]
  simp only [h]

theorem Answers.putBytes?_took {n : Nat} (h : Answers bs (.took n) s t) (hn : 0 < n)
    (hbs : bs ≠ []) : putBytes? s bs = putBytes? t (bs.drop n) := by
  induction h with
  | directly h =>
    obtain ⟨n, rfl⟩ := Nat.exists_eq_succ_of_ne_zero (Nat.ne_of_gt hn)
    rw [putBytes?, offerOnce, if_neg hbs]
    simp only [h]
  | again h _ ih => rw [putBytes?_of_interrupted h hbs, ih]

theorem Answers.putBytes?_failed (h : Answers bs (.failed e) s t) (hbs : bs ≠ []) :
    putBytes? s bs = some (some e, t) := by
  induction h with
  | directly h =>
    rw [putBytes?, offerOnce, if_neg hbs]
    simp only [h]
  | again h _ ih => rw [putBytes?_of_interrupted h hbs, ih]

/-- Bytes for a sink that is interrupted for ever are offered for ever. -/
theorem putBytes?_eq_none {P : σ → Prop} (hbs : bs ≠ [])
    (hP : ∀ s, P s → ∃ t, offer s bs = (.interrupted, t) ∧ P t) (h : P s) :
    putBytes? s bs = none := by
  have hnever : ∀ s cs r, putBytes? s cs = some r → ¬ (P s ∧ cs = bs) := by
    refine putBytes?.partial_correctness (fun s cs _ => ¬ (P s ∧ cs = bs)) fun put ih s cs r hr => ?_
    rintro ⟨hs, rfl⟩
    obtain ⟨t, ht, hPt⟩ := hP s hs
    rw [offerOnce, if_neg hbs] at hr
    simp only [ht] at hr
    exact ih _ _ _ hr ⟨hPt, rfl⟩
  cases hr : putBytes? s bs with
  | none => rfl
  | some r => exact absurd ⟨h, rfl⟩ (hnever s bs r hr)

theorem Fills.putBytes (hF : Fills step limit failure Holds) (h : Holds s held)
    (hle : held.length ≤ limit) (bs : Bytes) :
    Filled limit failure Holds (held ++ bs) (putBytes? s bs) := by
  induction hn : bs.length using Nat.strongRecOn generalizing s held bs with
  | ind n ih =>
    by_cases hbs : bs = []
    · subst hbs
      simpa using Filled.of_fits h hle
    · obtain hroom | hfull := Nat.lt_or_eq_of_le hle
      · obtain ⟨k, t, hk, hpos, -, hkbs, hklimit, ht⟩ := hF.takes h hroom hbs
        have hlt : (bs.drop k).length < n := by
          rw [List.length_drop]
          omega
        have hheld : (held ++ bs.take k).length ≤ limit := by
          rw [List.length_append, List.length_take]
          omega
        have hrest := ih _ hlt ht hheld _ rfl
        rwa [List.append_assoc, List.take_append_drop, ← hk.putBytes?_took hpos hbs] at hrest
      · obtain ⟨t, hfail, ht⟩ := hF.fails h hfull hbs
        have hpos := List.length_pos_iff.mpr hbs
        have hgt : ¬ (held ++ bs).length ≤ limit := by
          rw [List.length_append]
          omega
        refine ⟨t, by rw [hfail.putBytes?_failed hbs, if_neg hgt], ?_⟩
        rwa [List.take_append_of_le_length (Nat.le_of_eq hfull.symm), List.take_of_length_le hle]

theorem Fills.putBlanks (hF : Fills step limit failure Holds) (h : Holds s held)
    (hle : held.length ≤ limit) (n : Nat) :
    Filled limit failure Holds (held ++ List.replicate n Ascii.space) (putBlanks? s n) := by
  induction n generalizing s held with
  | zero => simpa [putBlanks?] using Filled.of_fits h hle
  | succ n ih =>
    rw [List.replicate_succ, List.append_cons]
    exact (hF.putBytes h hle [Ascii.space]).bind fun t hfits ht => ih ht hfits

theorem Fills.putPiece (hF : Fills step limit failure Holds) (h : Holds s held)
    (hle : held.length ≤ limit) (p : Piece) :
    Filled limit failure Holds (held ++ utf8 p.toString) (putPiece? s p) := by
  cases p with
  | text text => exact hF.putBytes h hle (utf8 text)
  | blanks n =>
    rw [Piece.utf8_blanks]
    exact hF.putBlanks h hle n

theorem Fills.putPieces (hF : Fills step limit failure Holds) (h : Holds s held)
    (hle : held.length ≤ limit) (ps : List Piece) :
    Filled limit failure Holds (held ++ Piece.bytes ps) (putPieces? s ps) := by
  induction ps generalizing s held with
  | nil => simpa [putPieces?] using Filled.of_fits h hle
  | cons p ps ih =>
    rw [Piece.bytes_cons, ← List.append_assoc]
    exact (hF.putPiece h hle p).bind fun t hfits ht => ih ht hfits

theorem Fills.write (hF : Fills step limit failure Holds) (h : Holds s held)
    (hle : held.length ≤ limit) (l : Layout) (v : Value) :
    Filled limit failure Holds (held ++ utf8 (v.render l)) (write? l s v) := by
  rw [Value.utf8_render]
  exact hF.putPieces h hle (v.pieces l)

/-- A text behind others of which not all may have fitted. Where they have not, the sink is full, and
the text cannot fit either, because it is not empty. -/
theorem Fills.write_behind (hF : Fills step limit failure Holds) (h : Holds s (total.take limit))
    {v : Value} (hv : utf8 (v.render l) ≠ []) :
    Filled limit failure Holds (total ++ utf8 (v.render l)) (write? l s v) := by
  have hlen : (total.take limit).length = min limit total.length := List.length_take
  have hput := hF.write h (by omega) l v
  by_cases hle : total.length ≤ limit
  · rwa [List.take_of_length_le hle] at hput
  · have hpos := List.length_pos_iff.mpr hv
    have hfull : (total.take limit).length = limit := by omega
    obtain ⟨t, hr, ht⟩ := hput
    rw [if_neg (by rw [List.length_append]; omega)] at hr
    refine ⟨t, by rw [hr, if_neg (by rw [List.length_append]; omega)], ?_⟩
    rw [List.take_append_of_le_length (Nat.le_of_eq hfull.symm), List.take_take,
      Nat.min_self] at ht
    rwa [List.take_append_of_le_length (Nat.le_of_not_le hle)]

theorem Fills.writeAll_behind (hF : Fills step limit failure Holds)
    (h : Holds s (total.take limit)) (hvs : ∀ v ∈ vs, v.Built) :
    ∃ t, writeAll? l s vs = some ((List.range vs.length).map (fun i =>
        if (total ++ l.texts (vs.take (i + 1))).length ≤ limit then none else some failure), t) ∧
      Holds t ((total ++ l.texts vs).take limit) := by
  induction vs generalizing s total with
  | nil =>
    refine ⟨s, rfl, ?_⟩
    rwa [Layout.texts, List.flatMap_nil, List.append_nil]
  | cons v vs ih =>
    obtain ⟨hv, hvs⟩ := List.forall_mem_cons.mp hvs
    obtain ⟨t, hput, ht⟩ := hF.write_behind h (Value.utf8_render_ne_nil hv l)
    obtain ⟨u, hrest, hu⟩ := ih ht hvs
    have htexts (ws : List Value) :
        total ++ l.texts (v :: ws) = total ++ utf8 (v.render l) ++ l.texts ws := by
      rw [Layout.texts, List.flatMap_cons, ← List.append_assoc]
      rfl
    refine ⟨u, ?_, htexts vs ▸ hu⟩
    simp only [writeAll?, hput, hrest, Option.bind_eq_bind, Option.bind_some, Option.pure_def,
      List.length_cons, List.range_succ_eq_map, List.map_cons, List.map_map]
    simp [Function.comp_def, Layout.texts]

end Sink

namespace BoundedSink
variable {step : Nat}

def empty (step limit : Nat) (failure : IoError) : BoundedSink :=
  ⟨some step, some limit, failure, #[]⟩

def Received (step limit : Nat) (failure : IoError) (s : BoundedSink) (held : Bytes) : Prop :=
  s = { empty step limit failure with received := held.toArray }

theorem fills (hstep : 0 < step) (limit : Nat) (failure : IoError) :
    Sink.Fills step limit failure (Received step limit failure) where
  takes {s held bs} h hroom hbs := by
    subst h
    have hpos := List.length_pos_iff.mpr hbs
    have hnot : ¬ limit ≤ held.length := Nat.not_le_of_lt hroom
    refine ⟨min (min step bs.length) (limit - held.length), _, .directly ?_ (by rintro ⟨⟩),
      by omega, by omega, by omega, by omega, rfl⟩
    simp [empty, Sink.offer, hnot, room]
  fails {s held bs} h hfull hbs := by
    subst h
    exact ⟨_, .directly (by simp [empty, Sink.offer, hfull]) (by rintro ⟨⟩), rfl⟩

end BoundedSink

structure InterruptedSink (σ : Type) where
  sink : σ
  signals : List Bool

namespace InterruptedSink
variable {σ : Type} [Sink σ] {step limit : Nat} {failure : IoError} {Holds : σ → Bytes → Prop}
variable {s t : σ} {bs : Bytes} {answer : Uptake}

instance : Sink (InterruptedSink σ) where
  offer s bs :=
    match s.signals with
    | true :: signals => (.interrupted, ⟨s.sink, signals⟩)
    | signals => ((Sink.offer s.sink bs).1, ⟨(Sink.offer s.sink bs).2, signals.tail⟩)

theorem offer_of_calm {signals : List Bool} (h : signals.head? ≠ some true) (s : σ) (bs : Bytes) :
    Sink.offer (⟨s, signals⟩ : InterruptedSink σ) bs =
      ((Sink.offer s bs).1, ⟨(Sink.offer s bs).2, signals.tail⟩) := by
  match signals with
  | [] | false :: _ => rfl
  | true :: _ => exact absurd rfl h

theorem exists_answers_of_calm
    (h : ∀ signals : List Bool, signals.head? ≠ some true →
      ∃ left, Sink.Answers bs answer (⟨s, signals⟩ : InterruptedSink σ) ⟨t, left⟩)
    (signals : List Bool) :
    ∃ left, Sink.Answers bs answer (⟨s, signals⟩ : InterruptedSink σ) ⟨t, left⟩ := by
  induction signals with
  | nil => exact h [] (by rintro ⟨⟩)
  | cons signal signals ih =>
    cases signal with
    | false => exact h _ (by rintro ⟨⟩)
    | true =>
      obtain ⟨left, hleft⟩ := ih
      exact ⟨left, .again rfl hleft⟩

/-- Offers that are made again get the answer of the sink within. -/
theorem exists_answers (h : Sink.Answers bs answer s t) (signals : List Bool) :
    ∃ left, Sink.Answers bs answer (⟨s, signals⟩ : InterruptedSink σ) ⟨t, left⟩ := by
  induction h generalizing signals with
  | directly h ha =>
    refine exists_answers_of_calm (fun signals hcalm => ⟨signals.tail, .directly ?_ ha⟩) signals
    rw [offer_of_calm hcalm, h]
  | again h _ ih =>
    refine exists_answers_of_calm (fun signals hcalm => ?_) signals
    obtain ⟨left, hleft⟩ := ih signals.tail
    exact ⟨left, .again (by rw [offer_of_calm hcalm, h]) hleft⟩

theorem fills (h : Sink.Fills step limit failure Holds) :
    Sink.Fills step limit failure fun (s : InterruptedSink σ) => Holds s.sink where
  takes {s held bs} hs hroom hbs := by
    obtain ⟨n, t, hn, hrest⟩ := h.takes hs hroom hbs
    obtain ⟨left, hleft⟩ := exists_answers hn s.signals
    exact ⟨n, ⟨t, left⟩, hleft, hrest⟩
  fails {s held bs} hs hfull hbs := by
    obtain ⟨t, hfail, ht⟩ := h.fails hs hfull hbs
    obtain ⟨left, hleft⟩ := exists_answers hfail s.signals
    exact ⟨⟨t, left⟩, hleft, ht⟩

end InterruptedSink

end ExactJson
