import ExactJson.Proofs.Value.OrderedMap
import ExactJson.Value.Basic

/-! Trees of values in which names may repeat, as documents write them, and the values that they
stand for. -/
namespace ExactJson.Value

@[elab_as_elim]
theorem induction {motive : Value → Prop} (null : motive .null)
    (boolean : ∀ b, motive (.boolean b)) (number : ∀ n, motive (.number n))
    (string : ∀ s, motive (.string s)) (array : ∀ vs, (∀ v ∈ vs, motive v) → motive (.array vs))
    (object : ∀ ms, (∀ m ∈ ms, motive m.2) → motive (.object ms)) (v : Value) : motive v :=
  @Value.rec motive (fun vs => ∀ v ∈ vs, motive v) (fun ms => ∀ m ∈ ms, motive m.2)
    (fun m => motive m.2) null boolean number string array object (fun _ h => nomatch h)
    (fun _ _ hv hvs _ h => (List.mem_cons.mp h).elim (fun h => h ▸ hv) (hvs _))
    (fun _ h => nomatch h)
    (fun _ _ hm hms _ h => (List.mem_cons.mp h).elim (fun h => h ▸ hm) (hms _))
    (fun _ _ h => h) v

mutual
/-- The value of a tree: a name has the place where it comes first and the value that comes last. -/
def settled : Value → Value
  | array vs => array (settledItems vs)
  | object ms => object (OrderedMap.settle (settledMembers ms))
  | null => null
  | boolean b => boolean b
  | number n => number n
  | string s => string s
def settledItems : List Value → List Value
  | [] => []
  | v :: vs => v.settled :: settledItems vs
def settledMembers : List (String × Value) → List (String × Value)
  | [] => []
  | (k, v) :: ms => (k, v.settled) :: settledMembers ms
end

def settledMember (m : String × Value) : String × Value := (m.1, m.2.settled)

mutual
def DistinctNames : Value → Prop
  | array vs => DistinctItems vs
  | object ms => (ms.map Prod.fst).Nodup ∧ DistinctMembers ms
  | _ => True
def DistinctItems : List Value → Prop
  | [] => True
  | v :: vs => v.DistinctNames ∧ DistinctItems vs
def DistinctMembers : List (String × Value) → Prop
  | [] => True
  | (_, v) :: ms => v.DistinctNames ∧ DistinctMembers ms
end

variable {n : Nat} {vs : List Value} {ms : List (String × Value)}

@[simp] theorem settledItems_eq_map (vs : List Value) : settledItems vs = vs.map settled := by
  induction vs with
  | nil => rfl
  | cons v vs ih => rw [settledItems, ih, List.map_cons]

@[simp] theorem settledMembers_eq_map (ms : List (String × Value)) :
    settledMembers ms = ms.map settledMember := by
  induction ms with
  | nil => rfl
  | cons m ms ih =>
    rw [settledMembers, ih, List.map_cons]
    rfl

@[simp] theorem settled_array (vs : List Value) : (array vs).settled = array (vs.map settled) := by
  rw [settled, settledItems_eq_map]

@[simp] theorem settled_object (ms : List (String × Value)) :
    (object ms).settled = object (OrderedMap.ofList (ms.map settledMember)) := by
  rw [settled, settledMembers_eq_map, OrderedMap.ofList_eq_settle]

@[simp] theorem distinctNames_array : (array vs).DistinctNames ↔ ∀ v ∈ vs, v.DistinctNames := by
  rw [DistinctNames]
  induction vs with
  | nil => simp [DistinctItems]
  | cons v vs ih => simp [DistinctItems, ih]

@[simp] theorem distinctMembers_iff : DistinctMembers ms ↔ ∀ m ∈ ms, m.2.DistinctNames := by
  induction ms with
  | nil => simp [DistinctMembers]
  | cons m ms ih => simp [DistinctMembers, ih]

@[simp] theorem distinctNames_object : (object ms).DistinctNames ↔
    (ms.map Prod.fst).Nodup ∧ ∀ m ∈ ms, m.2.DistinctNames := by
  rw [DistinctNames, distinctMembers_iff]

@[simp] theorem depthItems_le : depthItems vs ≤ n ↔ ∀ v ∈ vs, v.depth ≤ n := by
  induction vs with
  | nil => simp [depthItems]
  | cons v vs ih => rw [depthItems, Nat.max_le, ih, List.forall_mem_cons]

@[simp] theorem depthMembers_le : depthMembers ms ≤ n ↔ ∀ m ∈ ms, m.2.depth ≤ n := by
  induction ms with
  | nil => simp [depthMembers]
  | cons m ms ih => rw [depthMembers, Nat.max_le, ih, List.forall_mem_cons]

@[simp] theorem depth_array_le : (array vs).depth ≤ n ↔ 1 ≤ n ∧ ∀ v ∈ vs, v.depth + 1 ≤ n := by
  rw [depth]
  constructor
  · intro h
    exact ⟨by omega, fun v hv => Nat.le_trans (Nat.succ_le_succ (depthItems_le.mp (Nat.le_refl _) v hv)) h⟩
  · rintro ⟨hn, h⟩
    have hd : depthItems vs ≤ n - 1 := depthItems_le.mpr fun v hv => by have := h v hv; omega
    omega

@[simp] theorem depth_object_le : (object ms).depth ≤ n ↔ 1 ≤ n ∧ ∀ m ∈ ms, m.2.depth + 1 ≤ n := by
  rw [depth]
  constructor
  · intro h
    exact ⟨by omega, fun m hm => Nat.le_trans (Nat.succ_le_succ (depthMembers_le.mp (Nat.le_refl _) m hm)) h⟩
  · rintro ⟨hn, h⟩
    have hd : depthMembers ms ≤ n - 1 := depthMembers_le.mpr fun m hm => by have := h m hm; omega
    omega

theorem settled_of_distinctNames {v : Value} (h : v.DistinctNames) : v.settled = v := by
  induction v using Value.induction with
  | null | boolean | number | string => rfl
  | array vs ih =>
    have hvs : vs.map settled = vs.map id :=
      List.map_congr_left fun v hv => ih v hv (distinctNames_array.mp h v hv)
    simp [hvs]
  | object ms ih =>
    obtain ⟨hn, hd⟩ := distinctNames_object.mp h
    have hms : ms.map settledMember = ms.map id := by
      apply List.map_congr_left
      intro m hm
      rw [settledMember, ih m hm (hd m hm)]
      rfl
    simp [hms, OrderedMap.ofList_of_nodup hn]

theorem mem_ofList {entries : List (String × Value)} {e : String × Value}
    (h : e ∈ OrderedMap.ofList entries) : e ∈ entries := by
  induction entries using List.reverseRecOn with
  | nil => cases h
  | append_singleton entries d ih =>
    rw [OrderedMap.ofList_snoc] at h
    obtain rfl | h := OrderedMap.mem_insert h
    · exact List.mem_append_right _ List.mem_cons_self
    · exact List.mem_append_left _ (ih h)

theorem mem_settled_object {e : String × Value}
    (h : e ∈ OrderedMap.ofList (ms.map settledMember)) : ∃ m ∈ ms, e = settledMember m := by
  obtain ⟨m, hm, rfl⟩ := List.mem_map.mp (mem_ofList h)
  exact ⟨m, hm, rfl⟩

theorem distinctNames_settled (v : Value) : v.settled.DistinctNames := by
  induction v using Value.induction with
  | null | boolean | number | string => trivial
  | array vs ih => simpa using ih
  | object ms ih =>
    rw [settled_object, distinctNames_object]
    refine ⟨OrderedMap.nodup_keys_ofList _, fun e he => ?_⟩
    obtain ⟨m, hm, rfl⟩ := mem_settled_object he
    exact ih m hm

theorem depth_settled_le (v : Value) : v.settled.depth ≤ v.depth := by
  induction v using Value.induction with
  | null | boolean | number | string => exact Nat.le_refl _
  | array vs ih =>
    obtain ⟨h₁, h⟩ := depth_array_le.mp (Nat.le_refl (array vs).depth)
    rw [settled_array, depth_array_le]
    refine ⟨h₁, fun w hw => ?_⟩
    obtain ⟨v, hv, rfl⟩ := List.mem_map.mp hw
    exact Nat.le_trans (Nat.succ_le_succ (ih v hv)) (h v hv)
  | object ms ih =>
    obtain ⟨h₁, h⟩ := depth_object_le.mp (Nat.le_refl (object ms).depth)
    rw [settled_object, depth_object_le]
    refine ⟨h₁, fun e he => ?_⟩
    obtain ⟨m, hm, rfl⟩ := mem_settled_object he
    exact Nat.le_trans (Nat.succ_le_succ (ih m hm)) (h m hm)

end ExactJson.Value
