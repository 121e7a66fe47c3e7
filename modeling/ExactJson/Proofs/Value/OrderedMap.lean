import ExactJson.Value.OrderedMap
import Mathlib.Data.List.Basic
import Mathlib.Data.List.Induction

/-! What writing and removing do to the keys of a map and to what it has under them. -/
namespace ExactJson.OrderedMap
variable {κ α : Type} [DecidableEq κ] {m front : OrderedMap κ α} {j k : κ} {a : α}

/-- The keys in the order in which they come first, each with the value that comes last. -/
def settle (entries : List (κ × α)) : OrderedMap κ α :=
  (entries.map Prod.fst).eraseDups.filterMap fun k =>
    (entries.reverse.lookup k).map fun a => (k, a)

theorem keys_insert_of_mem (h : k ∈ m.keys) (a : α) : (m.insert k a).keys = m.keys := by
  induction m with
  | nil => cases h
  | cons e m ih =>
    obtain ⟨i, b⟩ := e
    simp only [insert]
    by_cases hik : i = k
    · rw [if_pos hik]
      rfl
    · have hm : k ∈ keys m := (List.mem_cons.mp h).resolve_left (Ne.symm hik)
      rw [if_neg hik]
      exact congrArg (i :: ·) (ih hm)

theorem insert_of_not_mem (h : k ∉ m.keys) (a : α) : m.insert k a = m ++ [(k, a)] := by
  induction m with
  | nil => rfl
  | cons e m ih =>
    obtain ⟨i, b⟩ := e
    have hik : i ≠ k := fun hik => h (hik ▸ List.mem_cons_self)
    have hm : k ∉ keys m := fun hm => h (List.mem_cons_of_mem i hm)
    simp only [insert, if_neg hik, ih hm, List.cons_append]

theorem keys_insert_of_not_mem (h : k ∉ m.keys) (a : α) : (m.insert k a).keys = m.keys ++ [k] := by
  rw [insert_of_not_mem h, keys, List.map_append]
  rfl

theorem nodup_keys_insert (h : m.keys.Nodup) (k : κ) (a : α) : (m.insert k a).keys.Nodup := by
  by_cases hk : k ∈ m.keys
  · rwa [keys_insert_of_mem hk]
  · rw [keys_insert_of_not_mem hk]
    refine List.nodup_append.mpr ⟨h, by simp, ?_⟩
    rintro i hi j hj rfl
    exact hk (List.mem_singleton.mp hj ▸ hi)

theorem sublist_erase (m : OrderedMap κ α) (k : κ) : (m.erase k).Sublist m := by
  induction m with
  | nil => exact .slnil
  | cons e m ih =>
    obtain ⟨i, b⟩ := e
    simp only [erase]
    split
    · exact List.sublist_cons_self _ m
    · exact ih.cons_cons _

theorem nodup_keys_erase (h : m.keys.Nodup) (k : κ) : (m.erase k).keys.Nodup :=
  h.sublist ((m.sublist_erase k).map Prod.fst)

theorem mem_insert {e : κ × α} (h : e ∈ m.insert k a) : e = (k, a) ∨ e ∈ m := by
  induction m with
  | nil => exact .inl (List.mem_singleton.mp h)
  | cons d m ih =>
    obtain ⟨i, b⟩ := d
    simp only [insert] at h
    split at h
    · rename_i hik
      subst hik
      obtain h | h := List.mem_cons.mp h
      · exact .inl h
      · exact .inr (List.mem_cons_of_mem _ h)
    · obtain h | h := List.mem_cons.mp h
      · exact .inr (h ▸ List.mem_cons_self)
      · exact (ih h).imp_right (List.mem_cons_of_mem _)

@[simp] theorem get?_insert (m : OrderedMap κ α) (k j : κ) (a : α) :
    (m.insert k a).get? j = if k = j then some a else m.get? j := by
  induction m with
  | nil => rfl
  | cons e m ih =>
    obtain ⟨i, b⟩ := e
    simp only [insert]
    by_cases hik : i = k
    · subst hik
      rw [if_pos rfl]
      by_cases hij : i = j <;> simp [get?, hij]
    · rw [if_neg hik]
      simp only [get?, ih]
      by_cases hij : i = j
      · have hkj : k ≠ j := fun h => hik (hij.trans h.symm)
        simp [hij, hkj]
      · simp [hij]

theorem filterMap_keys (h : m.keys.Nodup) :
    (m.keys.filterMap fun k => (m.get? k).map fun a => (k, a)) = m := by
  induction m with
  | nil => rfl
  | cons e m ih =>
    obtain ⟨i, b⟩ := e
    obtain ⟨hi, hm⟩ := List.nodup_cons.mp h
    have hrest : ∀ k ∈ keys m, ((get? ((i, b) :: m) k).map fun a => (k, a)) =
        (get? m k).map fun a => (k, a) := by
      intro k hk
      have hik : i ≠ k := fun hik => hi (hik ▸ hk)
      rw [get?, if_neg hik]
    have hkeys : keys ((i, b) :: m) = i :: keys m := rfl
    rw [hkeys, List.filterMap_cons, List.filterMap_congr hrest, ih hm, get?, if_pos rfl]
    rfl

@[simp] theorem ofList_nil : ofList ([] : List (κ × α)) = [] := rfl

@[simp] theorem ofList_snoc (entries : List (κ × α)) (e : κ × α) :
    ofList (entries ++ [e]) = (ofList entries).insert e.1 e.2 := by
  rw [ofList, extend, List.foldl_append]
  rfl

theorem nodup_keys_ofList (entries : List (κ × α)) : (ofList entries).keys.Nodup := by
  induction entries using List.reverseRecOn with
  | nil => exact List.nodup_nil
  | append_singleton entries e ih =>
    rw [ofList_snoc]
    exact nodup_keys_insert ih e.1 e.2

theorem keys_ofList (entries : List (κ × α)) :
    (ofList entries).keys = (entries.map Prod.fst).eraseDups := by
  induction entries using List.reverseRecOn with
  | nil => rfl
  | append_singleton entries e ih =>
    rw [ofList_snoc, List.map_append, List.eraseDups_append, ← ih]
    by_cases he : e.1 ∈ (ofList entries).keys
    · have hmem : e.1 ∈ entries.map Prod.fst := by
        rwa [ih, List.mem_eraseDups] at he
      rw [keys_insert_of_mem he]
      simp [List.removeAll, hmem]
    · have hmem : e.1 ∉ entries.map Prod.fst := by
        rwa [ih, List.mem_eraseDups] at he
      rw [keys_insert_of_not_mem he]
      simp [List.removeAll, hmem, List.eraseDups_cons]

theorem get?_ofList (entries : List (κ × α)) (k : κ) :
    (ofList entries).get? k = entries.reverse.lookup k := by
  induction entries using List.reverseRecOn with
  | nil => rfl
  | append_singleton entries e ih =>
    rw [ofList_snoc, get?_insert, ih, List.reverse_append, List.reverse_singleton,
      List.singleton_append, List.lookup_cons]
    by_cases hk : e.1 = k
    · simp [hk]
    · simp [hk, beq_eq_false_iff_ne.mpr (Ne.symm hk)]

theorem ofList_eq_settle (entries : List (κ × α)) : ofList entries = settle entries := by
  rw [← filterMap_keys (nodup_keys_ofList entries), settle, keys_ofList]
  simp only [get?_ofList]

theorem ofList_of_nodup {entries : List (κ × α)} (h : (entries.map Prod.fst).Nodup) :
    ofList entries = entries := by
  induction entries using List.reverseRecOn with
  | nil => rfl
  | append_singleton entries e ih =>
    rw [List.map_append, List.nodup_append] at h
    obtain ⟨hn, -, hd⟩ := h
    have he : e.1 ∉ entries.map Prod.fst := fun hm => hd e.1 hm e.1 (by simp) rfl
    rw [ofList_snoc, ih hn, insert_of_not_mem he]

@[simp]
theorem put_eq (m : OrderedMap κ α) (k : κ) (a : α) : m.put k a = (m.get? k, m.insert k a) := by
  induction m with
  | nil => rfl
  | cons e m ih =>
    obtain ⟨i, b⟩ := e
    by_cases hik : i = k <;> simp [put, get?, insert, hik, ih]

@[simp] theorem pop_eq (m : OrderedMap κ α) (k : κ) : m.pop k = (m.get? k, m.erase k) := by
  induction m with
  | nil => rfl
  | cons e m ih =>
    obtain ⟨i, b⟩ := e
    by_cases hik : i = k <;> simp [pop, get?, erase, hik, ih]

@[simp] theorem get?_eq_none : m.get? k = none ↔ k ∉ m.keys := by
  induction m with
  | nil => simp [get?, keys]
  | cons e m ih =>
    obtain ⟨i, b⟩ := e
    have hkeys : keys ((i, b) :: m) = i :: keys m := rfl
    rw [hkeys, List.mem_cons, not_or, ← ih]
    by_cases hik : i = k
    · simp [get?, hik]
    · simp [get?, hik, Ne.symm hik]

@[simp] theorem contains_iff : m.contains k = true ↔ k ∈ m.keys := by
  rw [contains, Option.isSome_iff_ne_none, Ne, get?_eq_none, not_not]

theorem erase_eq_filter (h : m.keys.Nodup) (k : κ) : m.erase k = m.filter fun e => e.1 ≠ k := by
  induction m with
  | nil => rfl
  | cons e m ih =>
    obtain ⟨i, b⟩ := e
    obtain ⟨hi, hm⟩ := List.nodup_cons.mp h
    by_cases hik : i = k
    · subst hik
      have hrest : ∀ d ∈ m, d.1 ≠ i := fun d hd hdi =>
      hi (List.mem_map.mpr ⟨d, hd, hdi⟩)
      rw [erase, if_pos rfl, List.filter_cons_of_neg (by simp)]
      exact (List.filter_eq_self.mpr (by simpa using hrest)).symm
    · rw [erase, if_neg hik, List.filter_cons_of_pos (by simp [hik]), ih hm]

theorem keys_erase (h : m.keys.Nodup) (k : κ) : (m.erase k).keys = m.keys.filter (· ≠ k) := by
  rw [erase_eq_filter h, keys, keys, List.filter_map]
  rfl

theorem get?_erase (h : m.keys.Nodup) (k j : κ) :
    (m.erase k).get? j = if k = j then none else m.get? j := by
  induction m with
  | nil => simp [erase, get?]
  | cons e m ih =>
    obtain ⟨i, b⟩ := e
    obtain ⟨hi, hm⟩ := List.nodup_cons.mp h
    by_cases hik : i = k
    · subst hik
      by_cases hij : i = j
      · subst hij
        simpa [erase] using get?_eq_none.mpr hi
      · simp [erase, get?, hij]
    · by_cases hij : i = j
      · subst hij
        simp [erase, get?, hik, Ne.symm hik]
      · simp [erase, get?, hik, hij, ih hm]

omit [DecidableEq κ] in
@[simp]
theorem keys_overwrite (m : OrderedMap κ α) (f : κ → Option α) : (m.overwrite f).keys = m.keys :=
  List.map_map

@[simp] theorem get?_overwrite (m : OrderedMap κ α) (f : κ → Option α) (k : κ) :
    (m.overwrite f).get? k = (m.get? k).map fun a => (f k).getD a := by
  induction m with
  | nil => rfl
  | cons e m ih =>
    obtain ⟨i, b⟩ := e
    by_cases hik : i = k
    · subst hik
      simp [overwrite, get?]
    · simpa [overwrite, get?, hik] using ih

theorem getElem?_eq_some (h : m.keys.Nodup) (i : Nat) :
    m[i]? = some (k, a) ↔ m.keys[i]? = some k ∧ m.get? k = some a := by
  induction m generalizing i with
  | nil => simp [keys]
  | cons e m ih =>
    obtain ⟨j, b⟩ := e
    obtain ⟨hj, hm⟩ := List.nodup_cons.mp h
    have hkeys : keys ((j, b) :: m) = j :: keys m := rfl
    cases i with
    | zero =>
      rw [hkeys, List.getElem?_cons_zero, List.getElem?_cons_zero]
      constructor
      · rintro ⟨⟩
        exact ⟨rfl, by simp [get?]⟩
      · rintro ⟨⟨⟩, ha⟩
        simpa [get?] using ha
    | succ i =>
      rw [hkeys, List.getElem?_cons_succ, List.getElem?_cons_succ, ih hm]
      refine and_congr_right fun hk => ?_
      have hjk : j ≠ k := fun hjk => hj (hjk ▸ List.mem_of_getElem? hk)
      rw [get?, if_neg hjk]

theorem exists_cut_of_get? (h : m.get? k = some a) :
    ∃ front back, m = front ++ (k, a) :: back ∧ k ∉ front.keys := by
  induction m with
  | nil => cases h
  | cons e m ih =>
    obtain ⟨j, b⟩ := e
    by_cases hjk : j = k
    · subst hjk
      rw [get?, if_pos rfl] at h
      exact ⟨[], m, by rw [Option.some.inj h]; rfl, List.not_mem_nil⟩
    · rw [get?, if_neg hjk] at h
      obtain ⟨front, back, rfl, hk⟩ := ih h
      exact ⟨(j, b) :: front, back, rfl, fun h => (List.mem_cons.mp h).elim (Ne.symm hjk) hk⟩

theorem get?_append_of_not_mem (hk : k ∉ front.keys) (m : OrderedMap κ α) :
    get? (front ++ m) k = get? m k := by
  induction front with
  | nil => rfl
  | cons e front ih =>
    obtain ⟨j, b⟩ := e
    have hkj : j ≠ k := fun h => hk (h ▸ List.mem_cons_self)
    have hk : k ∉ keys front := fun h => hk (List.mem_cons_of_mem j h)
    rw [List.cons_append, get?, if_neg hkj, ih hk]

theorem insert_append_of_not_mem (hk : k ∉ front.keys) (m : OrderedMap κ α) (a : α) :
    insert (front ++ m) k a = front ++ insert m k a := by
  induction front with
  | nil => rfl
  | cons e front ih =>
    obtain ⟨j, b⟩ := e
    have hkj : j ≠ k := fun h => hk (h ▸ List.mem_cons_self)
    have hk : k ∉ keys front := fun h => hk (List.mem_cons_of_mem j h)
    rw [List.cons_append, insert, if_neg hkj, ih hk, List.cons_append]

theorem get?_append_cons_of_ne {j : κ} (hjk : j ≠ k) (front back : OrderedMap κ α) (a b : α) :
    get? (front ++ (k, a) :: back) j = get? (front ++ (k, b) :: back) j := by
  induction front with
  | nil => simp [get?, hjk.symm]
  | cons e front ih => simp [get?, ih]

omit [DecidableEq κ] in
@[simp] theorem zip_keys_values (m : OrderedMap κ α) : m.keys.zip m.values = m :=
  (List.zip_of_prod rfl rfl).symm

end ExactJson.OrderedMap
