import ExactJson.Proofs.Host.NonFinite
import ExactJson.Proofs.Host.Reading
import ExactJson.Proofs.Layout.RoundTrip

/-! Values of programs that come back. Integers, texts and whatever is put together from them are read
as they were from what they became, and from its text too. -/
namespace ExactJson.HostType
open Value

def textEntries (es : List (String × Host)) : List (HostKey × Host) :=
  es.map fun e => (.text e.1, e.2)

/-- The values of a type. A map has one entry of a key, and a sorted map has them in order. -/
def Holds : HostType → Host → Prop
  | boolean, h => ∃ b, h = .boolean b
  | integer type, h => ∃ z, h = .integer type z ∧ type.contains z = true
  | binary32, h => ∃ x, h = .binary32 x
  | binary64, h => ∃ x, h = .binary64 x
  | text, h => ∃ s, h = .text s
  | json, h => ∃ v, h = .json v
  | option t, h => h = .absent ∨ ∃ g, h = .present g ∧ Holds t g
  | sequence t, h => ∃ hs, h = .sequence hs ∧ ∀ g ∈ hs, Holds t g
  | mapping order t, h => ∃ es : List (String × Host),
      h = .mapping (textEntries es) ∧ (es.map Prod.fst).Nodup ∧
      (order = .sorted → es.Pairwise fun d e => d.1 < e.1) ∧ ∀ e ∈ es, Holds t e.2

def NeverNull (t : HostType) : Prop := ∀ h, t.Holds h → h.toJson ≠ null

/-- The types whose values come back. An option has to tell a value that is there from one that is
not. -/
def RoundTrips : HostType → Prop
  | boolean | integer _ | text => True
  | option t => t.RoundTrips ∧ t.NeverNull
  | sequence t | mapping _ t => t.RoundTrips
  | binary32 | binary64 | json => False

variable {t : HostType} {h : Host} {options : ReadOptions}

theorem RoundTrips.isExact (ht : t.RoundTrips) : t.isExact = true := by
  induction t with
  | boolean | integer | text => rfl
  | binary32 | binary64 | json => cases ht
  | option t ih => exact ih ht.1
  | sequence t ih | mapping order t ih => exact ih ht

variable {order : MapOrder} {es : List (String × Host)}

theorem toJson_textEntries (hd : (es.map Prod.fst).Nodup) :
    (Host.mapping (textEntries es)).toJson = object (es.map fun e => (e.1, e.2.toJson)) := by
  have hmembers : (textEntries es).map Host.member = es.map fun e => (e.1, e.2.toJson) :=
    List.map_map
  have hnames : ((es.map fun e => (e.1, e.2.toJson)).map Prod.fst).Nodup := by
    rwa [List.map_map]
  rw [Host.toJson_mapping, hmembers, OrderedMap.ofList_of_nodup hnames]

theorem lists_textEntries (hs : order = .sorted → es.Pairwise fun d e => d.1 < e.1) :
    order.Lists (textEntries es) (textEntries es) := by
  cases order with
  | insertion => rfl
  | sorted =>
    refine ⟨.refl _, List.pairwise_map.mpr ((hs rfl).imp fun hde => ?_)⟩
    exact decide_eq_true hde

theorem toJson_integer {type : IntType} {z : Int} (hz : type.contains z = true) :
    (Host.integer type z).toJson = ofInt z := by
  rw [ofInt, ← Number.ofTyped_eq_ofInt hz]
  rfl

theorem gives_toJson (ht : t.RoundTrips) (hh : t.Holds h) : t.Gives h.toJson h := by
  induction t generalizing h with
  | binary32 | binary64 | json => cases ht
  | boolean =>
    obtain ⟨b, rfl⟩ := hh
    exact ⟨b, rfl, rfl⟩
  | integer type =>
    obtain ⟨z, rfl, hz⟩ := hh
    exact ⟨_, z, toJson_integer hz, .inl ⟨rfl, hz⟩, rfl⟩
  | text =>
    obtain ⟨s, rfl⟩ := hh
    exact ⟨s, rfl, rfl⟩
  | option t ih =>
    obtain rfl | ⟨g, rfl, hg⟩ := hh
    · exact .inl ⟨rfl, rfl⟩
    · rw [Host.toJson_present]
      exact .inr ⟨ht.2 g hg, g, ih ht.1 hg, rfl⟩
  | sequence t ih =>
    obtain ⟨hs, rfl, hg⟩ := hh
    refine ⟨_, hs, Host.toJson_sequence hs, ?_, rfl⟩
    exact List.forall₂_map_left_iff.mpr (List.forall₂_same.mpr fun g hgs => ih ht (hg g hgs))
  | mapping order t ih =>
    obtain ⟨es, rfl, hd, hsorted, he⟩ := hh
    refine ⟨_, textEntries es, _, toJson_textEntries hd, ?_, lists_textEntries hsorted, rfl⟩
    rw [textEntries, List.forall₂_map_left_iff, List.forall₂_map_right_iff, List.forall₂_same]
    exact fun e hes => ⟨rfl, ih ht (he e hes)⟩

theorem built_toJson (ht : t.RoundTrips) (hh : t.Holds h) :
    h.toJson.Built ∧ ∀ n ∈ h.toJson.numbers, n.isInteger = true := by
  induction t generalizing h with
  | binary32 | binary64 | json => cases ht
  | boolean =>
    obtain ⟨b, rfl⟩ := hh
    exact ⟨⟨trivial, List.forall_mem_nil _⟩, List.forall_mem_nil _⟩
  | integer type =>
    obtain ⟨z, rfl, hz⟩ := hh
    rw [toJson_integer hz]
    exact ⟨built_ofInt z, List.forall_mem_singleton.mpr (Number.isInteger_ofInt z)⟩
  | text =>
    obtain ⟨s, rfl⟩ := hh
    exact ⟨⟨trivial, List.forall_mem_nil _⟩, List.forall_mem_nil _⟩
  | option t ih =>
    obtain rfl | ⟨g, rfl, hg⟩ := hh
    · exact ⟨⟨trivial, List.forall_mem_nil _⟩, List.forall_mem_nil _⟩
    · simpa using ih ht.1 hg
  | sequence t ih =>
    obtain ⟨hs, rfl, hg⟩ := hh
    rw [Host.toJson_sequence]
    constructor
    · exact built_array.mpr (List.forall_mem_map.mpr fun g hgs => (ih ht (hg g hgs)).1)
    · intro n hn
      obtain ⟨v, hv, hn⟩ := mem_numbers_array.mp hn
      obtain ⟨g, hgs, rfl⟩ := List.mem_map.mp hv
      exact (ih ht (hg g hgs)).2 n hn
  | mapping order t ih =>
    obtain ⟨es, rfl, hd, -, he⟩ := hh
    rw [toJson_textEntries hd]
    constructor
    · have hnames : (OrderedMap.keys (es.map fun e => (e.1, e.2.toJson))).Nodup := by
        rwa [OrderedMap.keys, List.map_map]
      exact built_object.mpr
        ⟨hnames, List.forall_mem_map.mpr fun e hes => (ih ht (he e hes)).1⟩
    · intro n hn
      obtain ⟨m, hm, hn⟩ := mem_numbers_object.mp hn
      obtain ⟨e, hes, rfl⟩ := List.mem_map.mp hm
      exact (ih ht (he e hes)).2 n hn

/-- A value comes back from what it became, and this comes back from its text in any layout if it is
not nested too deep. -/
theorem read_toJson (t : HostType) (ht : t.RoundTrips) (h : Host) (hh : t.Holds h) :
    t.read h.toJson = .ok h ∧ ∀ (options : ReadOptions) (l : Layout),
      h.toJson.depth ≤ options.maxDepth → readText (h.toJson.render l) options = .ok h.toJson := by
  obtain ⟨hbuilt, hintegers⟩ := built_toJson ht hh
  refine ⟨(read_eq_ok_iff ht.isExact hbuilt).mpr (gives_toJson ht hh), fun options l hd => ?_⟩
  have hread := readText_of_rereads hbuilt.names (fun n hn => (hbuilt.numbers n hn).rereads) hd l
  have hself : h.toJson.reread options.fractions = h.toJson :=
    mapNumbers_eq_self fun n hn => Number.reread_of_isInteger (hintegers n hn) _
  rwa [hself] at hread

/-- What is absent stays apart from what is empty, and the greatest integer of 64 bits keeps its
digits. -/
theorem read_toJson_absent :
    let t := mapping .insertion (option (sequence (integer ⟨false, .w64⟩)))
    let h := Host.mapping
      [(.text "b", .present (.sequence [.integer ⟨false, .w64⟩ 18446744073709551615])),
        (.text "a", .absent), (.text "", .present (.sequence []))]
    t.RoundTrips ∧ t.Holds h ∧ h.toJson.depth ≤ ({} : ReadOptions).maxDepth ∧
      t.read h.toJson = .ok h ∧
      readText (h.toJson.render (.indented 2)) {} = .ok h.toJson := by
  intro t h
  have ht : t.RoundTrips := by
    refine ⟨trivial, ?_⟩
    rintro _ ⟨hs, rfl, -⟩
    simp
  have hh : t.Holds h := by
    refine ⟨[("b", _), ("a", _), ("", _)], rfl, by decide, nofun, ?_⟩
    simp only [List.forall_mem_cons]
    refine ⟨.inr ⟨_, rfl, _, rfl, ?_⟩, .inl rfl, .inr ⟨_, rfl, _, rfl, List.forall_mem_nil _⟩,
      List.forall_mem_nil _⟩
    exact List.forall_mem_singleton.mpr ⟨_, rfl, by decide⟩
  have hd : h.toJson.depth ≤ ({} : ReadOptions).maxDepth := by decide
  obtain ⟨hread, htext⟩ := read_toJson t ht h hh
  exact ⟨ht, hh, hd, hread, htext {} (.indented 2) hd⟩

end ExactJson.HostType
