import ExactJson.Proofs.Document.Machine

/-! The symbols that have been read when the machine is in a state: those of the containers that are
open, and those of a tree once the document is complete. -/
namespace ExactJson
open Value

namespace DocumentState

/-- The symbols before the place inside some open containers. -/
inductive Around (limit : Nat) : List Frame → List Symbol → Prop where
  | nil : Around limit [] []
  | array {stack : List Frame} {as : List Symbol} {vs : List Value} (h : Around limit stack as)
      (hd : stack.length < limit) (hvs : ∀ v ∈ vs, v.depth + stack.length < limit) :
      Around limit (.array (vs.map settled).reverse :: stack)
        (as ++ .openBracket :: itemsBefore vs)
  | member {stack : List Frame} {as : List Symbol} {ms : List (String × Value)} {k : String}
      (h : Around limit stack as) (hd : stack.length < limit)
      (hms : ∀ m ∈ ms, m.2.depth + stack.length < limit) :
      Around limit (.member (OrderedMap.ofList (ms.map settledMember)) k :: stack)
        (as ++ .openBrace :: (membersBefore ms ++ [.string k, .colon]))

inductive Holds (limit : Nat) : DocumentState → List Symbol → Prop where
  | value {stack : List Frame} {as : List Symbol} (h : Around limit stack as) :
      Holds limit (.value stack) as
  | firstItem {stack : List Frame} {as : List Symbol} (h : Around limit stack as)
      (hd : stack.length < limit) : Holds limit (.firstItem stack) (as ++ [.openBracket])
  | itemEnd {stack : List Frame} {as : List Symbol} {vs : List Value} {v : Value}
      (h : Around limit stack as) (hd : stack.length < limit)
      (hvs : ∀ w ∈ vs ++ [v], w.depth + stack.length < limit) :
      Holds limit (.itemEnd ((vs ++ [v]).map settled).reverse stack)
        (as ++ .openBracket :: (itemsBefore vs ++ v.symbols))
  | firstName {stack : List Frame} {as : List Symbol} (h : Around limit stack as)
      (hd : stack.length < limit) : Holds limit (.firstName stack) (as ++ [.openBrace])
  | name {stack : List Frame} {as : List Symbol} {ms : List (String × Value)}
      (h : Around limit stack as) (hd : stack.length < limit)
      (hms : ∀ m ∈ ms, m.2.depth + stack.length < limit) :
      Holds limit (.name (OrderedMap.ofList (ms.map settledMember)) stack)
        (as ++ .openBrace :: membersBefore ms)
  | colon {stack : List Frame} {as : List Symbol} {ms : List (String × Value)} {k : String}
      (h : Around limit stack as) (hd : stack.length < limit)
      (hms : ∀ m ∈ ms, m.2.depth + stack.length < limit) :
      Holds limit (.colon (OrderedMap.ofList (ms.map settledMember)) k stack)
        (as ++ .openBrace :: (membersBefore ms ++ [.string k]))
  | memberEnd {stack : List Frame} {as : List Symbol} {ms : List (String × Value)}
      {m : String × Value} (h : Around limit stack as) (hd : stack.length < limit)
      (hms : ∀ n ∈ ms ++ [m], n.2.depth + stack.length < limit) :
      Holds limit (.memberEnd (OrderedMap.ofList ((ms ++ [m]).map settledMember)) stack)
        (as ++ .openBrace :: (membersBefore ms ++ memberSymbols m))
  | documentEnd {v : Value} (hd : v.depth ≤ limit) : Holds limit (.documentEnd v.settled) v.symbols

variable {limit : Nat} {s t : DocumentState} {a : Symbol} {as bs : List Symbol}
variable {stack : List Frame} {v : Value}

theorem Holds.begins (h : Holds limit s as) (hb : Begins s stack) : Around limit stack as := by
  cases hb with
  | value =>
    cases h with
    | value h => exact h
  | firstItem =>
    cases h with
    | firstItem h hd => exact @Around.array limit _ _ [] h hd (List.forall_mem_nil _)

theorem Around.complete (h : Around limit stack as) (hd : v.depth + stack.length ≤ limit) :
    Holds limit (complete v.settled stack) (as ++ v.symbols) := by
  cases h with
  | nil => exact .documentEnd hd
  | @array stack as vs h hs hvs =>
    have hv : v.depth + stack.length < limit := hd
    have hend := Holds.itemEnd h hs
      (List.forall_mem_append.mpr ⟨hvs, List.forall_mem_singleton.mpr hv⟩)
    rw [List.map_append, List.reverse_append] at hend
    rwa [List.append_assoc]
  | @member stack as ms k h hs hms =>
    have hv : (k, v).2.depth + stack.length < limit := hd
    have hend := Holds.memberEnd h hs
      (List.forall_mem_append.mpr ⟨hms, List.forall_mem_singleton.mpr hv⟩)
    rw [List.map_append, List.map_singleton, OrderedMap.ofList_snoc] at hend
    have has : as ++ .openBrace :: (membersBefore ms ++ memberSymbols (k, v)) =
        as ++ .openBrace :: (membersBefore ms ++ [.string k, .colon]) ++ v.symbols := by
      simp [memberSymbols]
    rwa [has] at hend

theorem depth_array (hd : stack.length < limit) {vs : List Value}
    (hvs : ∀ v ∈ vs, v.depth + stack.length < limit) :
    (Value.array vs).depth + stack.length ≤ limit := by
  have h : (Value.array vs).depth ≤ limit - stack.length := by
    refine depth_array_le.mpr ⟨by omega, fun v hv => ?_⟩
    have hv := hvs v hv
    omega
  omega

theorem depth_object (hd : stack.length < limit) {ms : List (String × Value)}
    (hms : ∀ m ∈ ms, m.2.depth + stack.length < limit) :
    (Value.object ms).depth + stack.length ≤ limit := by
  have h : (Value.object ms).depth ≤ limit - stack.length := by
    refine depth_object_le.mpr ⟨by omega, fun m hm => ?_⟩
    have hm := hms m hm
    omega
  omega

theorem Around.array_snoc (h : Around limit stack as) (hd : stack.length < limit)
    {vs : List Value} (hvs : ∀ w ∈ vs ++ [v], w.depth + stack.length < limit) :
    Holds limit (.complete (.array ((vs ++ [v]).map settled)) stack)
      (as ++ .openBracket :: (itemsBefore vs ++ v.symbols) ++ [.closeBracket]) := by
  have hc := h.complete (depth_array hd hvs)
  simpa [symbols_array_snoc] using hc

theorem Around.object_snoc (h : Around limit stack as) (hd : stack.length < limit)
    {ms : List (String × Value)} {m : String × Value}
    (hms : ∀ n ∈ ms ++ [m], n.2.depth + stack.length < limit) :
    Holds limit (.complete (.object (OrderedMap.ofList ((ms ++ [m]).map settledMember))) stack)
      (as ++ .openBrace :: (membersBefore ms ++ memberSymbols m) ++ [.closeBrace]) := by
  have hc := h.complete (depth_object hd hms)
  simpa [symbols_object_snoc] using hc

theorem scalar_of_value? (ha : a.value? = some v) :
    v.settled = v ∧ v.symbols = [a] ∧ v.depth = 0 := by
  cases a with
  | string | number | boolean | null =>
    cases ha
    exact ⟨rfl, rfl, rfl⟩
  | openBrace | closeBrace | openBracket | closeBracket | colon | comma => cases ha

theorem Around.scalar (h : Around limit stack as) (hd : stack.length ≤ limit)
    (ha : a.value? = some v) : Holds limit (.complete v stack) (as ++ [a]) := by
  obtain ⟨hs, hsym, hdepth⟩ := scalar_of_value? ha
  have hc := h.complete (v := v) (by omega)
  rwa [hs, hsym] at hc

theorem Around.length_le (h : Around limit stack as) : stack.length ≤ limit := by
  cases h with
  | nil => exact Nat.zero_le limit
  | array _ hd _ => exact hd
  | member _ hd _ => exact hd

theorem Holds.step (h : Holds limit s as) (ht : Takes limit s a t) : Holds limit t (as ++ [a]) := by
  cases ht with
  | scalar hb ha => exact (h.begins hb).scalar (h.begins hb).length_le ha
  | openBrace hb hd => exact .firstName (h.begins hb) hd
  | openBracket hb hd => exact .firstItem (h.begins hb) hd
  | emptyArray =>
    cases h with
    | firstItem h hd =>
      have hc := h.complete (v := .array []) (depth_array hd (List.forall_mem_nil _))
      simpa [symbols] using hc
  | itemComma =>
    cases h with
    | @itemEnd _ _ vs v h hd hvs =>
      have ha := Around.array h hd hvs
      rw [itemsBefore_snoc] at ha
      simpa using Holds.value ha
  | closeArray =>
    cases h with
    | itemEnd h hd hvs =>
      rw [List.reverse_reverse]
      exact h.array_snoc hd hvs
  | emptyObject =>
    cases h with
    | firstName h hd =>
      have hc := h.complete (v := .object []) (depth_object hd (List.forall_mem_nil _))
      simpa [symbols] using hc
  | firstName k =>
    cases h with
    | firstName h hd =>
      have hc := @Holds.colon limit _ _ [] k h hd (List.forall_mem_nil _)
      simpa [membersBefore] using hc
  | name _ k =>
    cases h with
    | name h hd hms => simpa using Holds.colon (k := k) h hd hms
  | colon members k =>
    cases h with
    | colon h hd hms => simpa using Holds.value (Around.member (k := k) h hd hms)
  | memberComma =>
    cases h with
    | @memberEnd _ _ ms m h hd hms =>
      have hn := Holds.name h hd hms
      rw [membersBefore_snoc] at hn
      simpa using hn
  | closeObject =>
    cases h with
    | memberEnd h hd hms => exact h.object_snoc hd hms

theorem Holds.run (h : Holds limit s as) (hr : Run limit s bs t) : Holds limit t (as ++ bs) := by
  induction hr generalizing as with
  | nil => rwa [List.append_nil]
  | @cons s t u a bs ht _ ih =>
    have hu := ih (h.step ht)
    rwa [List.append_assoc, List.singleton_append] at hu

/-- What the machine goes over to the end of a document are the symbols of a tree. -/
theorem exists_tree (h : Run limit (.value []) as (.documentEnd v)) :
    ∃ tree : Value, as = tree.symbols ∧ v = tree.settled ∧ tree.depth ≤ limit := by
  have hv := Holds.run (.value .nil) h
  rw [List.nil_append] at hv
  cases hv with
  | @documentEnd tree hd => exact ⟨tree, rfl, rfl, hd⟩

end DocumentState
end ExactJson
