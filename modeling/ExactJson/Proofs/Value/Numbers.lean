import ExactJson.Proofs.Number.Reread
import ExactJson.Proofs.Value.Tree

/-! The numbers in a tree, what becomes of a tree when each is replaced, and the trees that can be
built. -/
namespace ExactJson.Value

mutual
def numbers : Value → List Number
  | number n => [n]
  | array vs => numbersOfItems vs
  | object ms => numbersOfMembers ms
  | _ => []
def numbersOfItems : List Value → List Number
  | [] => []
  | v :: vs => v.numbers ++ numbersOfItems vs
def numbersOfMembers : List (String × Value) → List Number
  | [] => []
  | (_, v) :: ms => v.numbers ++ numbersOfMembers ms
end

mutual
def mapNumbers (f : Number → Number) : Value → Value
  | null => null
  | boolean b => boolean b
  | number n => number (f n)
  | string s => string s
  | array vs => array (mapItems f vs)
  | object ms => object (mapMembers f ms)
def mapItems (f : Number → Number) : List Value → List Value
  | [] => []
  | v :: vs => v.mapNumbers f :: mapItems f vs
def mapMembers (f : Number → Number) : List (String × Value) → List (String × Value)
  | [] => []
  | (k, v) :: ms => (k, v.mapNumbers f) :: mapMembers f ms
end

/-- A tree that can be built: its numbers are, and an object has one member of a name. -/
structure Built (v : Value) : Prop where
  names : v.DistinctNames
  numbers : ∀ n ∈ v.numbers, n.Built

variable {f : Number → Number} {n : Number} {v w : Value} {vs : List Value} {k : String}
variable {ms : List (String × Value)}

@[simp] theorem mem_numbers_array : n ∈ (array vs).numbers ↔ ∃ v ∈ vs, n ∈ v.numbers := by
  rw [numbers]
  induction vs with
  | nil => simp [numbersOfItems]
  | cons v vs ih => simp [numbersOfItems, ih]

@[simp] theorem mem_numbers_object : n ∈ (object ms).numbers ↔ ∃ m ∈ ms, n ∈ m.2.numbers := by
  rw [numbers]
  induction ms with
  | nil => simp [numbersOfMembers]
  | cons m ms ih => simp [numbersOfMembers, ih]

@[simp] theorem mapItems_eq_map (f : Number → Number) (vs : List Value) :
    mapItems f vs = vs.map (mapNumbers f) := by
  induction vs with
  | nil => rfl
  | cons v vs ih => rw [mapItems, ih, List.map_cons]

@[simp] theorem mapMembers_eq_map (f : Number → Number) (ms : List (String × Value)) :
    mapMembers f ms = ms.map fun m => (m.1, m.2.mapNumbers f) := by
  induction ms with
  | nil => rfl
  | cons m ms ih => rw [mapMembers, ih, List.map_cons]

@[simp] theorem mapNumbers_array (f : Number → Number) (vs : List Value) :
    (array vs).mapNumbers f = array (vs.map (mapNumbers f)) :=
  congrArg array (mapItems_eq_map f vs)

@[simp] theorem mapNumbers_object (f : Number → Number) (ms : List (String × Value)) :
    (object ms).mapNumbers f = object (ms.map fun m => (m.1, m.2.mapNumbers f)) :=
  congrArg object (mapMembers_eq_map f ms)

theorem mapMembers_insert (f : Number → Number) (ms : Object) (k : String) (v : Value) :
    mapMembers f (ms.insert k v) = OrderedMap.insert (mapMembers f ms) k (v.mapNumbers f) := by
  induction ms with
  | nil => rfl
  | cons m ms ih =>
    obtain ⟨j, w⟩ := m
    by_cases hjk : j = k
    · simp only [OrderedMap.insert, mapMembers, if_pos hjk]
    · simp only [OrderedMap.insert, mapMembers, if_neg hjk, ih]

theorem mapNumbers_eq_self (h : ∀ n ∈ v.numbers, f n = n) : v.mapNumbers f = v := by
  induction v using Value.induction with
  | null | boolean | string => rfl
  | number n => exact congrArg number (h n List.mem_cons_self)
  | array vs ih =>
    have hvs : vs.map (mapNumbers f) = vs.map id := List.map_congr_left fun v hv =>
      ih v hv fun n hn => h n (mem_numbers_array.mpr ⟨v, hv, hn⟩)
    simp [hvs]
  | object ms ih =>
    have hms : (ms.map fun m => (m.1, m.2.mapNumbers f)) = ms.map id :=
      List.map_congr_left fun m hm => Prod.ext rfl
        (ih m hm fun n hn => h n (mem_numbers_object.mpr ⟨m, hm, hn⟩))
    simp [hms]

theorem distinctNames_mapNumbers (h : v.DistinctNames) : (v.mapNumbers f).DistinctNames := by
  induction v using Value.induction with
  | null | boolean | number | string => trivial
  | array vs ih => simpa using fun v hv => ih v hv (distinctNames_array.mp h v hv)
  | object ms ih =>
    obtain ⟨hn, hd⟩ := distinctNames_object.mp h
    rw [mapNumbers_object, distinctNames_object, List.map_map]
    refine ⟨hn, fun e he => ?_⟩
    obtain ⟨m, hm, rfl⟩ := List.mem_map.mp he
    exact ih m hm (hd m hm)

@[simp]
theorem depth_mapNumbers (f : Number → Number) (v : Value) : (v.mapNumbers f).depth = v.depth := by
  induction v using Value.induction with
  | null | boolean | number | string => rfl
  | array vs ih =>
    rw [mapNumbers_array, depth, depth]
    congr 1
    induction vs with
    | nil => rfl
    | cons v vs hrest =>
      rw [List.map_cons, depthItems, depthItems, ih v List.mem_cons_self,
        hrest fun w hw => ih w (List.mem_cons_of_mem v hw)]
  | object ms ih =>
    rw [mapNumbers_object, depth, depth]
    congr 1
    induction ms with
    | nil => rfl
    | cons m ms hrest =>
      rw [List.map_cons, depthMembers, depthMembers, ih m List.mem_cons_self,
        hrest fun w hw => ih w (List.mem_cons_of_mem m hw)]

@[simp] theorem built_array : (array vs).Built ↔ ∀ v ∈ vs, v.Built := by
  constructor
  · intro h v hv
    exact ⟨distinctNames_array.mp h.names v hv,
      fun n hn => h.numbers n (mem_numbers_array.mpr ⟨v, hv, hn⟩)⟩
  · intro h
    refine ⟨distinctNames_array.mpr fun v hv => (h v hv).names, fun n hn => ?_⟩
    obtain ⟨v, hv, hn⟩ := mem_numbers_array.mp hn
    exact (h v hv).numbers n hn

@[simp]
theorem built_object : (object ms).Built ↔ (OrderedMap.keys ms).Nodup ∧ ∀ m ∈ ms, m.2.Built := by
  constructor
  · intro h
    obtain ⟨hn, hd⟩ := distinctNames_object.mp h.names
    exact ⟨hn, fun m hm => ⟨hd m hm,
      fun n hn => h.numbers n (mem_numbers_object.mpr ⟨m, hm, hn⟩)⟩⟩
  · rintro ⟨hn, h⟩
    refine ⟨distinctNames_object.mpr ⟨hn, fun m hm => (h m hm).names⟩, fun n hn => ?_⟩
    obtain ⟨m, hm, hn⟩ := mem_numbers_object.mp hn
    exact (h m hm).numbers n hn

theorem built_ofInt (z : Int) : (ofInt z).Built :=
  ⟨trivial, fun _ hn => List.mem_singleton.mp hn ▸ .ofInt z⟩

theorem Built.insert (h : (object ms).Built) (k : String) (hv : v.Built) :
    (object (OrderedMap.insert ms k v)).Built := by
  obtain ⟨hn, hms⟩ := built_object.mp h
  refine built_object.mpr ⟨OrderedMap.nodup_keys_insert hn k v, fun m hm => ?_⟩
  obtain rfl | hm := OrderedMap.mem_insert hm
  · exact hv
  · exact hms m hm

theorem Built.erase (h : (object ms).Built) (k : String) :
    (object (OrderedMap.erase ms k)).Built := by
  obtain ⟨hn, hms⟩ := built_object.mp h
  exact built_object.mpr ⟨OrderedMap.nodup_keys_erase hn k,
    fun m hm => hms m ((OrderedMap.sublist_erase ms k).subset hm)⟩

end ExactJson.Value
