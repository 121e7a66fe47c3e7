import ExactJson.Source.Basic

/-! Sources as they are seen from outside, by what they answer to calls that follow one another. A
relation that each call keeps makes the answers the same, up to the first failure. -/
namespace ExactJson.Source

inductive Call where
  | peek
  | next
deriving DecidableEq, Repr

abbrev Answer := Except IoError (Option UInt8)

variable {σ τ : Type} [Source σ] [Source τ]

def call (s : σ) : Call → Answer × σ
  | .peek => peek s
  | .next => next s

def answers (s : σ) : List Call → List Answer
  | [] => []
  | c :: cs => (call s c).1 :: answers (call s c).2 cs

def after (s : σ) : List Call → σ
  | [] => s
  | c :: cs => after (call s c).2 cs

def Call.taken : Call → Answer → Bytes
  | .next, .ok (some b) => [b]
  | _, _ => []

def taken (cs : List Call) (as : List Answer) : Bytes := (List.zipWith Call.taken cs as).flatten

def Alike (s : σ) (t : τ) : Prop := ∀ cs, answers s cs = answers t cs

/-- A relation that the calls keep, unless the first source fails in one of the given ways. -/
structure Simulation (breaks : IoError → Prop) (R : σ → τ → Prop) : Prop where
  peek {s : σ} {t : τ} (h : R s t) : (∃ e, breaks e ∧ (Source.peek s).1 = .error e) ∨
    (Source.peek s).1 = (Source.peek t).1 ∧ R (Source.peek s).2 (Source.peek t).2
  skip {s : σ} {t : τ} {b : UInt8} (h : R s t) (hb : (Source.peek s).1 = .ok (some b)) :
    R (skip (Source.peek s).2) (skip (Source.peek t).2)

variable {breaks : IoError → Prop} {R : σ → τ → Prop} {s : σ} {t : τ}

theorem taken_cons (c : Call) (cs : List Call) (a : Answer) (as : List Answer) :
    taken (c :: cs) (a :: as) = c.taken a ++ taken cs as := rfl

theorem Call.taken_of_ne {c : Call} {a : Answer} (h : ∀ b, a ≠ .ok (some b)) : c.taken a = [] := by
  cases c with
  | peek => rfl
  | next =>
    match a with
    | .ok (some b) => exact absurd rfl (h b)
    | .ok none | .error _ => rfl

theorem next_of_some {b : UInt8} (h : (peek s).1 = .ok (some b)) :
    next s = (.ok (some b), skip (peek s).2) := by
  simp only [next]
  split
  · rename_i hs
    rw [hs] at h ⊢
    cases h
    rfl
  · rename_i hs
    exact (hs b (peek s).2 (Prod.ext h rfl)).elim

theorem next_of_ne (h : ∀ b, (peek s).1 ≠ .ok (some b)) : next s = peek s := by
  simp only [next]
  split
  · rename_i b t hs
    exact absurd (congrArg Prod.fst hs) (h b)
  · rfl

@[simp] theorem fst_next (s : σ) : (next s).1 = (peek s).1 := by
  by_cases h : ∃ b, (peek s).1 = .ok (some b)
  · obtain ⟨b, hb⟩ := h
    rw [next_of_some hb, hb]
  · rw [next_of_ne fun b hb => h ⟨b, hb⟩]

theorem Simulation.call (hR : Simulation breaks R) (h : R s t) (c : Call) :
    (∃ e, breaks e ∧ (call s c).1 = .error e) ∨
      (call s c).1 = (call t c).1 ∧ R (call s c).2 (call t c).2 := by
  cases c with
  | peek => exact hR.peek h
  | next =>
    obtain ⟨e, he, hs⟩ | ⟨hst, hr⟩ := hR.peek h
    · exact .inl ⟨e, he, (fst_next s).trans hs⟩
    · refine .inr ⟨(fst_next s).trans (hst.trans (fst_next t).symm), ?_⟩
      by_cases hb : ∃ b, (Source.peek s).1 = .ok (some b)
      · obtain ⟨b, hb⟩ := hb
        simp only [Source.call, next_of_some hb, next_of_some (hst ▸ hb)]
        exact hR.skip h hb
      · have hs : ∀ b, (Source.peek s).1 ≠ .ok (some b) := fun b h => hb ⟨b, h⟩
        simpa only [Source.call, next_of_ne hs, next_of_ne (hst ▸ hs)] using hr

theorem Simulation.calls (hR : Simulation breaks R) (hb : ∀ e, ¬ breaks e) (h : R s t)
    (cs : List Call) : answers s cs = answers t cs ∧ R (after s cs) (after t cs) := by
  induction cs generalizing s t with
  | nil => exact ⟨rfl, h⟩
  | cons c cs ih =>
    obtain ⟨e, he, -⟩ | ⟨hc, hr⟩ := hR.call h c
    · exact absurd he (hb e)
    · obtain ⟨hcs, hafter⟩ := ih hr
      exact ⟨by rw [answers, answers, hc, hcs], hafter⟩

theorem Simulation.alike (hR : Simulation breaks R) (hb : ∀ e, ¬ breaks e) (h : R s t) :
    Alike s t := fun cs => (hR.calls hb h cs).1

theorem Simulation.flip (hR : Simulation (fun _ => False) R) :
    Simulation (fun _ => False) fun (t : τ) (s : σ) => R s t where
  peek h := by
    obtain ⟨e, ⟨⟩, -⟩ | ⟨hp, hr⟩ := hR.peek h
    exact .inr ⟨hp.symm, hr⟩
  skip h hb := by
    obtain ⟨e, ⟨⟩, -⟩ | ⟨hp, -⟩ := hR.peek h
    exact hR.skip h (hp.trans hb)

theorem Alike.call (h : Alike s t) (c : Call) :
    (call s c).1 = (call t c).1 ∧ Alike (call s c).2 (call t c).2 := by
  refine ⟨(List.cons.inj (h [c])).1, fun cs => ?_⟩
  exact (List.cons.inj (h (c :: cs))).2

theorem Alike.fst_peek (h : Alike s t) : (peek s).1 = (peek t).1 := (h.call .peek).1

theorem simulation_alike : Simulation (fun _ => False) (Alike : σ → τ → Prop) where
  peek h := .inr (h.call .peek)
  skip {s t b} h hb := by
    have hc := h.call .next
    have ht : (Source.peek t).1 = .ok (some b) := h.fst_peek ▸ hb
    simpa only [Source.call, next_of_some hb, next_of_some ht] using hc.2

theorem Alike.refl (s : σ) : Alike s s := fun _ => rfl

theorem Alike.symm (h : Alike s t) : Alike t s := fun cs => (h cs).symm

theorem drain_eq (s : σ) : drain s = match (peek s).1 with
    | .error e => ([], some e, (peek s).2)
    | .ok none => ([], none, (peek s).2)
    | .ok (some b) => let r := drain (skip (peek s).2); (b :: r.1, r.2) := by
  rw [drain]
  split <;> rename_i hs <;> rw [hs]

theorem Alike.drain (h : Alike s t) :
    (drain s).1 = (drain t).1 ∧ (drain s).2.1 = (drain t).2.1 := by
  fun_induction Source.drain s generalizing t with
  | case1 s e s' hs | case2 s s' hs =>
    rw [drain_eq t, ← h.fst_peek, hs]
    exact ⟨rfl, rfl⟩
  | case3 s b s' hs bs e u hd ih =>
    have ht := simulation_alike.skip h (show (Source.peek s).1 = .ok (some b) by rw [hs])
    rw [hs] at ht
    obtain ⟨hbs, he⟩ := ih ht
    rw [hd] at hbs he
    rw [drain_eq t, ← h.fst_peek, hs]
    exact ⟨congrArg (b :: ·) hbs, he⟩

end ExactJson.Source
