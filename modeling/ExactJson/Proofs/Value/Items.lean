import ExactJson.Value.Items
import Mathlib.Data.List.InsertIdx

/-! Arrays that are edited as plain sequences, which are cut where an index points, and the part of an
array between two bounds. -/
namespace ExactJson

namespace Items
variable {items items' : Items} {v old : Value} {i : Nat}

theorem getElem?_eq_some_iff_cut :
    items[i]? = some v ↔ ∃ front back, items = front ++ v :: back ∧ front.length = i := by
  constructor
  · intro h
    obtain ⟨hi, rfl⟩ := List.getElem?_eq_some_iff.mp h
    refine ⟨items.take i, items.drop (i + 1), ?_, List.length_take_of_le (Nat.le_of_lt hi)⟩
    rw [← List.drop_eq_getElem_cons hi, List.take_append_drop]
  · rintro ⟨front, back, rfl, rfl⟩
    simp

theorem exists_cut (h : i ≤ items.length) :
    ∃ front back, items = front ++ back ∧ front.length = i :=
  ⟨items.take i, items.drop i, (List.take_append_drop i items).symm, List.length_take_of_le h⟩

@[simp] theorem insert_append (front back : Items) (v : Value) :
    insert (front ++ back) front.length v = .ok (front ++ v :: back) := by
  have hcut : (front ++ back).insertIdx front.length v = front ++ v :: back := by
    induction front with
    | nil => rfl
    | cons w front ih => exact congrArg (w :: ·) ih
  rw [insert, if_pos (by simp), hcut]

theorem insert_outside (h : items.length < i) (v : Value) :
    insert items i v = .error ⟨i, items.length⟩ := if_neg (Nat.not_le.mpr h)

@[simp] theorem replace_append (front : Items) (old : Value) (back : Items) (v : Value) :
    replace (front ++ old :: back) front.length v = .ok (old, front ++ v :: back) := by
  simp [replace]

theorem replace_outside (h : items.length ≤ i) (v : Value) :
    replace items i v = .error ⟨i, items.length⟩ := by
  rw [replace, List.getElem?_eq_none h]

@[simp] theorem remove?_append (front : Items) (old : Value) (back : Items) :
    remove? (front ++ old :: back) front.length = some (old, front ++ back) := by
  simp [remove?, List.eraseIdx_append]

theorem remove?_outside (h : items.length ≤ i) : remove? items i = none := by
  rw [remove?, List.getElem?_eq_none h, Option.map_none]

inductive Call where
  | add (v : Value)
  | insert (i : Nat) (v : Value)
  | set (i : Nat) (v : Value)
  | remove (i : Nat)
  | extend (more : Items)
  | clear

inductive Answer where
  | done
  | old (v : Value)
  | outside (e : IndexError)
  | nothing

namespace Call

def run (items : Items) : Call → Answer × Items
  | add v => (.done, push items v)
  | insert i v =>
    match Items.insert items i v with
    | .ok items => (.done, items)
    | .error e => (.outside e, items)
  | set i v =>
    match replace items i v with
    | .ok (old, items) => (.old old, items)
    | .error e => (.outside e, items)
  | remove i =>
    match remove? items i with
    | some (old, items) => (.old old, items)
    | none => (.nothing, items)
  | extend more => (.done, Items.extend items more)
  | clear => (.done, [])

def runAll (items : Items) : List Call → List Answer × Items
  | [] => ([], items)
  | c :: calls =>
    let (a, items) := c.run items
    let (answers, items) := runAll items calls
    (a :: answers, items)

end Call

/-- What a call does to a plain sequence. The sequence is cut where the index points, and stays as it
is where the index points outside. -/
inductive Does : Items → Call → Answer → Items → Prop where
  | add (items : Items) (v : Value) : Does items (.add v) .done (items ++ [v])
  | insert (front back : Items) (v : Value) :
    Does (front ++ back) (.insert front.length v) .done (front ++ v :: back)
  | insertOutside {items : Items} {i : Nat} (h : items.length < i) (v : Value) :
    Does items (.insert i v) (.outside ⟨i, items.length⟩) items
  | set (front : Items) (old : Value) (back : Items) (v : Value) :
    Does (front ++ old :: back) (.set front.length v) (.old old) (front ++ v :: back)
  | setOutside {items : Items} {i : Nat} (h : items.length ≤ i) (v : Value) :
    Does items (.set i v) (.outside ⟨i, items.length⟩) items
  | remove (front : Items) (old : Value) (back : Items) :
    Does (front ++ old :: back) (.remove front.length) (.old old) (front ++ back)
  | removeOutside {items : Items} {i : Nat} (h : items.length ≤ i) :
    Does items (.remove i) .nothing items
  | extend (items more : Items) : Does items (.extend more) .done (items ++ more)
  | clear (items : Items) : Does items .clear .done []

inductive DoesAll : Items → List Call → List Answer → Items → Prop where
  | nil (items : Items) : DoesAll items [] [] items
  | cons {items items' items'' : Items} {c : Call} {a : Answer} {calls : List Call}
    {answers : List Answer} (h : Does items c a items') (hrest : DoesAll items' calls answers items'') :
    DoesAll items (c :: calls) (a :: answers) items''

variable {c : Call} {a : Answer} {calls : List Call} {answers : List Answer}

theorem Does.run_eq (h : Does items c a items') : c.run items = (a, items') := by
  cases h with
  | add | extend | clear => rfl
  | insert front back v => simp [Call.run]
  | insertOutside h v => simp only [Call.run, insert_outside h]
  | set front old back v => simp [Call.run]
  | setOutside h v => simp only [Call.run, replace_outside h]
  | remove front old back => simp [Call.run]
  | removeOutside h => simp only [Call.run, remove?_outside h]

theorem exists_does (items : Items) (c : Call) : ∃ a items', Does items c a items' := by
  cases c with
  | add v => exact ⟨_, _, .add items v⟩
  | extend more => exact ⟨_, _, .extend items more⟩
  | clear => exact ⟨_, _, .clear items⟩
  | insert i v =>
    obtain h | h := Nat.lt_or_ge items.length i
    · exact ⟨_, _, .insertOutside h v⟩
    · obtain ⟨front, back, rfl, rfl⟩ := exists_cut h
      exact ⟨_, _, .insert front back v⟩
  | set i v =>
    cases hold : items[i]? with
    | none => exact ⟨_, _, .setOutside (List.getElem?_eq_none_iff.mp hold) v⟩
    | some old =>
      obtain ⟨front, back, rfl, rfl⟩ := getElem?_eq_some_iff_cut.mp hold
      exact ⟨_, _, .set front old back v⟩
  | remove i =>
    cases hold : items[i]? with
    | none => exact ⟨_, _, .removeOutside (List.getElem?_eq_none_iff.mp hold)⟩
    | some old =>
      obtain ⟨front, back, rfl, rfl⟩ := getElem?_eq_some_iff_cut.mp hold
      exact ⟨_, _, .remove front old back⟩

theorem run_eq_iff : c.run items = (a, items') ↔ Does items c a items' := by
  refine ⟨fun h => ?_, Does.run_eq⟩
  obtain ⟨a', after, hd⟩ := exists_does items c
  obtain ⟨⟩ := hd.run_eq.symm.trans h
  exact hd

theorem runAll_eq_iff :
    Call.runAll items calls = (answers, items') ↔ DoesAll items calls answers items' := by
  induction calls generalizing items answers with
  | nil =>
    constructor
    · rintro ⟨⟩
      exact .nil _
    · rintro ⟨⟩
      rfl
  | cons c calls ih =>
    constructor
    · rintro ⟨⟩
      exact .cons (run_eq_iff.mp rfl) (ih.mp rfl)
    · intro h
      cases h with
      | cons h hrest => simp only [Call.runAll, h.run_eq, ih.mpr hrest]

theorem remove?_of_insert (h : insert items i v = .ok items') :
    remove? items' i = some (v, items) := by
  obtain hi | hi := Nat.lt_or_ge items.length i
  · rw [insert_outside hi] at h
    cases h
  · obtain ⟨front, back, rfl, rfl⟩ := exists_cut hi
    rw [insert_append] at h
    cases h
    exact remove?_append front v back

end Items

namespace Bound

def first : Bound → Nat
  | included i => i
  | excluded i => i + 1
  | unbounded => 0

def behind (n : Nat) : Bound → Nat
  | included i => i + 1
  | excluded i => i
  | unbounded => n

@[simp] theorem first_included (i : Nat) : (included i).first = i := rfl

@[simp] theorem behind_excluded (i n : Nat) : (excluded i).behind n = i := rfl

theorem next?_eq (i : Nat) : next? i = some (i + 1) ∨ next? i = none ∧ UInt64.size ≤ i + 1 := by
  obtain h | h := Nat.lt_or_ge (i + 1) UInt64.size
  · exact .inl (if_pos h)
  · exact .inr ⟨if_neg (Nat.not_lt.mpr h), h⟩

theorem first?_eq (b : Bound) : b.first? = some b.first ∨ b.first? = none ∧ UInt64.size ≤ b.first := by
  cases b with
  | included | unbounded => exact .inl rfl
  | excluded i => exact next?_eq i

theorem behind?_eq (b : Bound) (n : Nat) :
    b.behind? n = some (b.behind n) ∨ b.behind? n = none ∧ UInt64.size ≤ b.behind n := by
  cases b with
  | excluded | unbounded => exact .inl rfl
  | included i => exact next?_eq i

end Bound

namespace Items
variable {items sub : Items} {low high : Bound}

/-- An index that does not fit points outside of every array, so that nothing is lost by refusing it. -/
theorem range?_eq (hn : items.length < UInt64.size) (low high : Bound) : items.range? low high =
    if low.first ≤ high.behind items.length ∧ high.behind items.length ≤ items.length then
      some ((items.drop low.first).take (high.behind items.length - low.first)) else none := by
  -- A bound that has no index is too big for an array that has a length.
  obtain hl | ⟨hl, hbig⟩ := low.first?_eq
  · obtain hh | ⟨hh, hbig⟩ := high.behind?_eq items.length
    · rw [range?, hl, hh]
      rfl
    · rw [range?, hl, hh, if_neg (by omega)]
      rfl
  · rw [range?, hl, if_neg (by omega)]
    rfl

theorem range?_eq_some_iff (hn : items.length < UInt64.size) : items.range? low high = some sub ↔
    ∃ front back, items = front ++ sub ++ back ∧ front.length = low.first ∧
      front.length + sub.length = high.behind items.length := by
  rw [range?_eq hn]
  generalize high.behind items.length = j
  constructor
  · intro h
    obtain ⟨⟨hij, hj⟩, heq⟩ := Option.ite_none_right_eq_some.mp h
    obtain rfl := Option.some.inj heq
    refine ⟨items.take low.first, (items.drop low.first).drop (j - low.first), ?_, ?_, ?_⟩
    · rw [List.append_assoc, List.take_append_drop, List.take_append_drop]
    · exact List.length_take_of_le (Nat.le_trans hij hj)
    · simp only [List.length_take, List.length_drop]
      omega
  · rintro ⟨front, back, rfl, hi, hj⟩
    rw [if_pos (by simp only [List.length_append]; omega), ← hi, ← hj]
    simp

theorem range?_eq_none_iff (hn : items.length < UInt64.size) : items.range? low high = none ↔
    ¬(low.first ≤ high.behind items.length ∧ high.behind items.length ≤ items.length) := by
  rw [range?_eq hn]
  split <;> simp [*]

/-- A part of a part is the part that begins so much later. -/
theorem range?_range? (hn : items.length < UInt64.size) (h : items.range? low high = some sub)
    {low' high' : Bound} (hd : high'.behind sub.length ≤ sub.length) :
    sub.range? low' high' = items.range? (.included (low.first + low'.first))
      (.excluded (low.first + high'.behind sub.length)) := by
  obtain ⟨front, back, rfl, hi, -⟩ := (range?_eq_some_iff hn).mp h
  have hsub : sub.length < UInt64.size := by
    simp only [List.length_append] at hn
    omega
  rw [range?_eq hn, range?_eq hsub]
  simp only [Bound.first_included, Bound.behind_excluded, ← hi, Nat.add_le_add_iff_left,
    Nat.add_sub_add_left, List.append_assoc, List.length_append, List.drop_length_add_append]
  generalize high'.behind sub.length = d at hd ⊢
  by_cases hcd : low'.first ≤ d
  · have hc : low'.first ≤ sub.length := Nat.le_trans hcd hd
    rw [if_pos ⟨hcd, hd⟩, if_pos ⟨hcd, by omega⟩, List.drop_append_of_le_length hc,
      List.take_append_of_le_length (by rw [List.length_drop]; omega)]
  · rw [if_neg fun h => hcd h.1, if_neg fun h => hcd h.1]

/-- Calls one after another do to an array what they do to a plain sequence, and give back the same. A
value that is put in and taken out again leaves the array as it was. The part between two bounds is
what stands between these numbers, where they do not cross or reach out of the array, and nothing
else; a part of it is a part of the array. -/
theorem arrays_as_sequences :
    (∀ items calls answers items',
      Call.runAll items calls = (answers, items') ↔ DoesAll items calls answers items') ∧
    (∀ items i v items', insert items i v = .ok items' → remove? items' i = some (v, items)) ∧
    ∀ (items : Items) (low high : Bound), items.length < UInt64.size →
      (∀ sub, items.range? low high = some sub ↔ ∃ front back, items = front ++ sub ++ back ∧
        front.length = low.first ∧ front.length + sub.length = high.behind items.length) ∧
      (items.range? low high = none ↔
        ¬(low.first ≤ high.behind items.length ∧ high.behind items.length ≤ items.length)) ∧
      ∀ sub, items.range? low high = some sub →
        ∀ low' high' : Bound, high'.behind sub.length ≤ sub.length →
          sub.range? low' high' = items.range? (.included (low.first + low'.first))
            (.excluded (low.first + high'.behind sub.length)) :=
  ⟨fun _ _ _ _ => runAll_eq_iff, fun _ _ _ _ => remove?_of_insert, fun _ _ _ hn =>
    ⟨fun _ => range?_eq_some_iff hn, range?_eq_none_iff hn,
      fun _ h _ _ => range?_range? hn h⟩⟩

/-- Calls that fail stand between those that do something. The last index has none behind it. -/
theorem arrays_as_sequences_failing :
    let items : Items := [.null, .boolean true]
    let calls : List Call := [.insert 3 .null, .insert 2 .null, .set 0 (.string ""), .remove 7]
    DoesAll items calls [.outside ⟨3, 2⟩, .done, .old .null, .nothing]
        [.string "", .boolean true, .null] ∧
      remove? (items ++ [.null]) 2 = some (.null, items) ∧
      items.range? .unbounded (.included (UInt64.size - 1)) = none ∧
      items.range? (.included 1) .unbounded = some [.boolean true] ∧
      range? [.boolean true] (.excluded 0) (.excluded 1) = items.range? (.included 2) (.excluded 2) := by
  intro items calls
  have hn : items.length < UInt64.size := by decide
  have hsub : items.range? (.included 1) .unbounded = some [.boolean true] :=
    ((arrays_as_sequences.2.2 items (.included 1) .unbounded hn).1 [.boolean true]).mpr
      ⟨[.null], [], rfl, rfl, rfl⟩
  refine ⟨(arrays_as_sequences.1 _ _ _ _).mp rfl, arrays_as_sequences.2.1 items 2 .null _ rfl,
    (arrays_as_sequences.2.2 items _ _ hn).2.1.mpr (by decide), hsub, ?_⟩
  exact (arrays_as_sequences.2.2 items _ _ hn).2.2 _ hsub (.excluded 0) (.excluded 1) (by decide)

end Items
end ExactJson
