import ExactJson.Proofs.Value.OrderedMap

/-! What a map holds, told by what has been done to it. A key stands behind those that came before it,
and has what was last written since it came. -/
namespace ExactJson.OrderedMap
variable {κ α : Type}

inductive Event (κ α : Type) where
  | write (k : κ) (a : α)
  | assign (k : κ) (a : α)
  | assignAll (f : κ → Option α)
  | erase (k : κ)
  | clear

variable [DecidableEq κ]

namespace Event

def run (m : OrderedMap κ α) : Event κ α → OrderedMap κ α
  | write k a => (m.put k a).2
  | assign k a => (m.replace? k a).getD m
  | assignAll f => m.overwrite f
  | erase k => (m.pop k).2
  | clear => []

def written? (k : κ) : Event κ α → Option α
  | write j a | assign j a => if j = k then some a else none
  | assignAll f => f k
  | erase _ | clear => none

def removes (k : κ) : Event κ α → Bool
  | erase j => j = k
  | clear => true
  | write _ _ | assign _ _ | assignAll _ => false

def brings (m : OrderedMap κ α) : Event κ α → List κ
  | write k _ => if k ∈ m.keys then [] else [k]
  | assign _ _ | assignAll _ | erase _ | clear => []

variable {m : OrderedMap κ α} {e : Event κ α} {k : κ}

theorem mem_brings : k ∈ e.brings m ↔ (∃ a, e = .write k a) ∧ k ∉ m.keys := by
  cases e with
  | assign | assignAll | erase | clear => simp [brings]
  | write j a =>
    by_cases hj : j ∈ m.keys
    · suffices ¬(j = k ∧ k ∉ m.keys) by simpa [brings, hj] using this
      rintro ⟨rfl, hk⟩
      exact hk hj
    · suffices k = j ↔ j = k ∧ k ∉ m.keys by simpa [brings, hj] using this
      exact ⟨fun h => ⟨h.symm, h ▸ hj⟩, fun h => h.1.symm⟩

theorem brings_eq (m : OrderedMap κ α) (e : Event κ α) :
    e.brings m = [] ∨ ∃ k, e.brings m = [k] := by
  cases e with
  | write k a =>
    by_cases hk : k ∈ m.keys <;> simp [brings, hk]
  | assign | assignAll | erase | clear => exact .inl rfl

theorem run_assign (m : OrderedMap κ α) (k : κ) (a : α) :
    run m (.assign k a) = if k ∈ m.keys then m.insert k a else m := by
  by_cases hk : k ∈ m.keys
  · simp [run, replace?, hk]
  · simp [run, replace?, hk]

/-- The keys that are not removed stay in their order, and one that comes is last. -/
theorem keys_run (h : m.keys.Nodup) (e : Event κ α) :
    (run m e).keys = m.keys.filter (fun k => !e.removes k) ++ e.brings m := by
  cases e with
  | write k a =>
    simp only [run, put_eq, removes, brings, Bool.not_false, List.filter_true]
    by_cases hk : k ∈ m.keys
    · rw [keys_insert_of_mem hk, if_pos hk, List.append_nil]
    · rw [keys_insert_of_not_mem hk, if_neg hk]
  | assign k a =>
    simp only [run_assign, removes, brings, Bool.not_false, List.filter_true, List.append_nil]
    split
    · rename_i hk
      exact keys_insert_of_mem hk a
    · rfl
  | assignAll f =>
    simp only [run, keys_overwrite, removes, brings, Bool.not_false, List.filter_true,
      List.append_nil]
  | erase k =>
    simp only [run, pop_eq, keys_erase h, removes, brings, List.append_nil]
    exact List.filter_congr fun j _ => by simp [eq_comm]
  | clear => simp [run, removes, brings, keys]

theorem get?_run (h : m.keys.Nodup) (hk : k ∈ m.keys) (he : e.removes k = false) :
    (run m e).get? k = (e.written? k).or (m.get? k) := by
  cases e with
  | write j a =>
    rw [run, put_eq, get?_insert, written?]
    split <;> rfl
  | assign j a =>
    rw [run_assign, written?]
    by_cases hj : j ∈ m.keys
    · rw [if_pos hj, get?_insert]
      split <;> rfl
    · have hjk : j ≠ k := fun hjk => hj (hjk ▸ hk)
      rw [if_neg hj, if_neg hjk]
      rfl
  | assignAll f =>
    rw [run, get?_overwrite, written?]
    cases hg : m.get? k with
    | none => exact absurd hk (get?_eq_none.mp hg)
    | some a => cases f k <;> rfl
  | erase j =>
    have hjk : j ≠ k := of_decide_eq_false he
    rw [run, pop_eq, get?_erase h, if_neg hjk, written?]
    rfl
  | clear => cases he

end Event

variable {es before : List (Event κ α)} {e : Event κ α} {m : OrderedMap κ α} {j k : κ} {i i' : Nat}

/-- The key is written right behind the first of the events, and not removed any more. -/
def Stays (es before : List (Event κ α)) (k : κ) : Prop :=
  ∃ a after, es = before ++ .write k a :: after ∧ ∀ e ∈ after, e.removes k = false

def Present (es : List (Event κ α)) (k : κ) : Prop := ∃ before, Stays es before k

/-- The moment in which the key came that is there now. -/
def Came (es : List (Event κ α)) (k : κ) (i : Nat) : Prop :=
  ∃ before, Stays es before k ∧ before.length = i ∧ ¬Present before k

def lastWritten (es : List (Event κ α)) (k : κ) : Option α :=
  (es.filterMap (Event.written? k)).getLast?

/-- The keys of the map are those that came and are there, in the order of the moments in which they
came, each with what was last written for it since. -/
structure Describes (es : List (Event κ α)) (m : OrderedMap κ α) : Prop where
  distinct : m.keys.Nodup
  mem (k : κ) : k ∈ m.keys ↔ ∃ i, Came es k i
  order : m.keys.Pairwise fun j k => ∃ i i', Came es j i ∧ Came es k i' ∧ i < i'
  value (k : κ) (i : Nat) : Came es k i → m.get? k = lastWritten (es.drop i) k

theorem stays_nil : ¬Stays ([] : List (Event κ α)) before k := by
  rintro ⟨a, after, h, -⟩
  simp at h

theorem stays_snoc : Stays (es ++ [e]) before k ↔
    (before = es ∧ ∃ a, e = .write k a) ∨ (Stays es before k ∧ e.removes k = false) := by
  constructor
  · rintro ⟨a, after, hes, hafter⟩
    obtain rfl | ⟨after, d, rfl⟩ := List.eq_nil_or_concat' after
    · obtain ⟨rfl, hd⟩ := List.append_inj' hes rfl
      exact .inl ⟨rfl, a, List.singleton_inj.mp hd⟩
    · rw [← List.cons_append, ← List.append_assoc] at hes
      obtain ⟨rfl, hd⟩ := List.append_inj' hes rfl
      obtain rfl := List.singleton_inj.mp hd
      obtain ⟨hafter, he⟩ := List.forall_mem_append.mp hafter
      exact .inr ⟨⟨a, after, rfl, hafter⟩, he e List.mem_cons_self⟩
  · rintro (⟨rfl, a, rfl⟩ | ⟨⟨a, after, rfl, hafter⟩, he⟩)
    · exact ⟨a, [], rfl, List.forall_mem_nil _⟩
    · refine ⟨a, after ++ [e], by simp, List.forall_mem_append.mpr ⟨hafter, ?_⟩⟩
      exact List.forall_mem_singleton.mpr he

theorem present_snoc :
    Present (es ++ [e]) k ↔ (∃ a, e = .write k a) ∨ (Present es k ∧ e.removes k = false) := by
  simp only [Present, stays_snoc]
  constructor
  · rintro ⟨before, ⟨-, hw⟩ | ⟨hs, he⟩⟩
    · exact .inl hw
    · exact .inr ⟨⟨before, hs⟩, he⟩
  · rintro (hw | ⟨⟨before, hs⟩, he⟩)
    · exact ⟨es, .inl ⟨rfl, hw⟩⟩
    · exact ⟨before, .inr ⟨hs, he⟩⟩

theorem came_snoc : Came (es ++ [e]) k i ↔ (Came es k i ∧ e.removes k = false) ∨
    (i = es.length ∧ (∃ a, e = .write k a) ∧ ¬Present es k) := by
  simp only [Came, stays_snoc]
  constructor
  · rintro ⟨before, ⟨rfl, hw⟩ | ⟨hs, he⟩, rfl, hp⟩
    · exact .inr ⟨rfl, hw, hp⟩
    · exact .inl ⟨⟨before, hs, rfl, hp⟩, he⟩
  · rintro (⟨⟨before, hs, hi, hp⟩, he⟩ | ⟨rfl, hw, hp⟩)
    · exact ⟨before, .inr ⟨hs, he⟩, hi, hp⟩
    · exact ⟨es, .inl ⟨rfl, hw⟩, rfl, hp⟩

theorem Came.present (h : Came es k i) : Present es k := by
  obtain ⟨before, hs, -⟩ := h
  exact ⟨before, hs⟩

theorem Came.lt_length (h : Came es k i) : i < es.length := by
  obtain ⟨before, ⟨a, after, rfl, -⟩, rfl, -⟩ := h
  simp

theorem present_iff_came : Present es k ↔ ∃ i, Came es k i := by
  refine ⟨?_, fun ⟨i, h⟩ => h.present⟩
  induction es using List.reverseRecOn with
  | nil =>
    rintro ⟨before, hs⟩
    exact absurd hs stays_nil
  | append_singleton es e ih =>
    intro h
    by_cases hp : Present es k
    · have he : e.removes k = false := by
        obtain ⟨a, rfl⟩ | ⟨-, he⟩ := present_snoc.mp h
        · rfl
        · exact he
      obtain ⟨i, hi⟩ := ih hp
      exact ⟨i, came_snoc.mpr (.inl ⟨hi, he⟩)⟩
    · have hw := (present_snoc.mp h).resolve_right fun hs => hp hs.1
      exact ⟨es.length, came_snoc.mpr (.inr ⟨rfl, hw, hp⟩)⟩

theorem Came.unique (h : Came es k i) (h' : Came es k i') : i = i' := by
  induction es using List.reverseRecOn with
  | nil => exact absurd h.lt_length (Nat.not_lt_zero i)
  | append_singleton es e ih =>
    obtain ⟨h, -⟩ | ⟨rfl, -, hp⟩ := came_snoc.mp h
    · obtain ⟨h', -⟩ | ⟨-, -, hp⟩ := came_snoc.mp h'
      · exact ih h h'
      · exact absurd h.present hp
    · obtain ⟨h', -⟩ | ⟨rfl, -, -⟩ := came_snoc.mp h'
      · exact absurd h'.present hp
      · rfl

theorem lastWritten_snoc (es : List (Event κ α)) (e : Event κ α) (k : κ) :
    lastWritten (es ++ [e]) k = (e.written? k).or (lastWritten es k) := by
  rw [lastWritten, lastWritten, List.filterMap_append, List.getLast?_append]
  cases hw : e.written? k <;> simp [hw]

namespace Describes

theorem mem_iff_present (h : Describes es m) (k : κ) : k ∈ m.keys ↔ Present es k :=
  (h.mem k).trans present_iff_came.symm

theorem nil : Describes ([] : List (Event κ α)) [] where
  distinct := List.nodup_nil
  mem _ := iff_of_false List.not_mem_nil fun ⟨_, h⟩ => absurd h.lt_length (Nat.not_lt_zero _)
  order := .nil
  value _ _ h := absurd h.lt_length (Nat.not_lt_zero _)

theorem snoc (h : Describes es m) (e : Event κ α) : Describes (es ++ [e]) (e.run m) where
  -- In each field the keys are those that stay, and behind them the one that comes.
  distinct := by
    rw [Event.keys_run h.distinct]
    refine List.nodup_append.mpr ⟨h.distinct.filter _, ?_, ?_⟩
    · obtain hb | ⟨k, hb⟩ := Event.brings_eq m e <;> simp [hb]
    · rintro j hj _ hk rfl
      exact (Event.mem_brings.mp hk).2 (List.mem_filter.mp hj).1
  mem k := by
    rw [Event.keys_run h.distinct, List.mem_append, List.mem_filter, Event.mem_brings]
    simp only [came_snoc, exists_or, exists_eq_left, exists_and_right, h.mem_iff_present,
      present_iff_came, Bool.not_eq_true']
  order := by
    rw [Event.keys_run h.distinct]
    refine List.pairwise_append.mpr ⟨?_, ?_, ?_⟩
    · refine (h.order.filter _).imp_of_mem ?_
      rintro j k hj hk ⟨i, i', hi, hi', hlt⟩
      have hjs : e.removes j = false := by simpa using (List.mem_filter.mp hj).2
      have hks : e.removes k = false := by simpa using (List.mem_filter.mp hk).2
      exact ⟨i, i', came_snoc.mpr (.inl ⟨hi, hjs⟩), came_snoc.mpr (.inl ⟨hi', hks⟩), hlt⟩
    · obtain hb | ⟨k, hb⟩ := Event.brings_eq m e <;> simp [hb]
    · intro j hj k hk
      obtain ⟨hj, hjs⟩ := List.mem_filter.mp hj
      obtain ⟨hw, hk⟩ := Event.mem_brings.mp hk
      obtain ⟨i, hi⟩ := (h.mem j).mp hj
      have hks : e.removes j = false := by simpa using hjs
      refine ⟨i, es.length, came_snoc.mpr (.inl ⟨hi, hks⟩), ?_, hi.lt_length⟩
      exact came_snoc.mpr (.inr ⟨rfl, hw, fun hp => hk ((h.mem_iff_present k).mpr hp)⟩)
  value k i hi := by
    obtain ⟨hi, he⟩ | ⟨rfl, ⟨a, rfl⟩, -⟩ := came_snoc.mp hi
    · have hk := (h.mem k).mpr ⟨i, hi⟩
      rw [Event.get?_run h.distinct hk he, h.value k i hi,
        List.drop_append_of_le_length (Nat.le_of_lt hi.lt_length), lastWritten_snoc]
    · simp [Event.run, lastWritten, Event.written?]

theorem run (es : List (Event κ α)) : Describes es (es.foldl Event.run []) := by
  induction es using List.reverseRecOn with
  | nil => exact .nil
  | append_singleton es e ih =>
    rw [List.foldl_append]
    exact ih.snoc e

end Describes

/-- What can be done to a map. One that is collected from entries takes the place of the old one. -/
inductive Call (κ α : Type) where
  | insert (k : κ) (a : α)
  | extend (entries : List (κ × α))
  | collect (entries : List (κ × α))
  | remove (k : κ)
  | clear
  | assign (k : κ) (a : α)
  | assignAll (f : κ → Option α)

def writes (entries : List (κ × α)) : List (Event κ α) := entries.map fun e => .write e.1 e.2

theorem foldl_writes (m : OrderedMap κ α) (entries : List (κ × α)) :
    (writes entries).foldl Event.run m = m.extend entries := by
  rw [writes, List.foldl_map, extend]
  simp only [Event.run, put_eq]

namespace Call

def run (m : OrderedMap κ α) : Call κ α → OrderedMap κ α
  | insert k a => (m.put k a).2
  | extend entries => m.extend entries
  | collect entries => ofList entries
  | remove k => (m.pop k).2
  | clear => []
  | assign k a => (m.replace? k a).getD m
  | assignAll f => m.overwrite f

def events : Call κ α → List (Event κ α)
  | insert k a => [.write k a]
  | extend entries => writes entries
  | collect entries => .clear :: writes entries
  | remove k => [.erase k]
  | clear => [.clear]
  | assign k a => [.assign k a]
  | assignAll f => [.assignAll f]

theorem run_eq (m : OrderedMap κ α) (c : Call κ α) : run m c = c.events.foldl Event.run m := by
  cases c with
  | insert | remove | clear | assign | assignAll => rfl
  | extend entries => exact (foldl_writes m entries).symm
  | collect entries => exact (foldl_writes [] entries).symm

end Call

def history (entries : List (κ × α)) (calls : List (Call κ α)) : List (Event κ α) :=
  writes entries ++ calls.flatMap Call.events

theorem foldl_calls (m : OrderedMap κ α) (calls : List (Call κ α)) :
    calls.foldl Call.run m = (calls.flatMap Call.events).foldl Event.run m := by
  induction calls generalizing m with
  | nil => rfl
  | cons c calls ih => rw [List.foldl_cons, List.flatMap_cons, List.foldl_append, ih, Call.run_eq]

theorem describes_calls (entries : List (κ × α)) (calls : List (Call κ α)) :
    Describes (history entries calls) (calls.foldl Call.run (ofList entries)) := by
  rw [foldl_calls, ofList, ← foldl_writes, ← List.foldl_append]
  exact .run _

/-- All that can be seen of a map is its entries in one order, and what a call gives back was seen
before it. -/
structure Consistent (m : OrderedMap κ α) : Prop where
  zip : m.keys.zip m.values = m
  index (i : Nat) (k : κ) (a : α) : m[i]? = some (k, a) ↔ m.keys[i]? = some k ∧ m.get? k = some a
  absent (k : κ) : m.get? k = none ↔ k ∉ m.keys
  put (k : κ) (a : α) : m.put k a = (m.get? k, m.insert k a)
  pop (k : κ) : m.pop k = (m.get? k, m.filter fun e => e.1 ≠ k)

theorem Describes.consistent (h : Describes es m) : m.Consistent where
  zip := m.zip_keys_values
  index i _ _ := getElem?_eq_some h.distinct i
  absent _ := get?_eq_none
  put := m.put_eq
  pop k := by rw [pop_eq, erase_eq_filter h.distinct]

end ExactJson.OrderedMap
