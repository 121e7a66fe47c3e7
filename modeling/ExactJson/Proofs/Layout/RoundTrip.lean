import ExactJson.Proofs.Document.Reading
import ExactJson.Proofs.Layout.Grammar

/-! What is written is read again, with each number read from its own text. -/
namespace ExactJson.Value
open Grammar Text

variable {options : ReadOptions} {v : Value} {l : Layout} {f : Number → Number}

mutual
/-- Numbers are written by their texts alone. -/
theorem emit_mapNumbers (hf : ∀ n, (f n).text = n.text) : ∀ (v : Value) (level : Nat)
    (k : List Piece), (v.mapNumbers f).emit l level k = v.emit l level k
  | .null, _, _ | .boolean _, _, _ | .string _, _, _ => rfl
  | .number n, _, k => by rw [mapNumbers, emit, emit, hf]
  | .array [], _, _ | .object [], _, _ => rfl
  | .array (v :: vs), level, k => by
    simp only [mapNumbers, mapItems, emit, emit_mapNumbers hf v, emitItems_mapItems hf vs]
  | .object ((name, v) :: ms), level, k => by
    simp only [mapNumbers, mapMembers, emit, emit_mapNumbers hf v, emitMembers_mapMembers hf ms]
theorem emitItems_mapItems (hf : ∀ n, (f n).text = n.text) : ∀ (vs : List Value) (level : Nat)
    (k : List Piece), emitItems l level (mapItems f vs) k = emitItems l level vs k
  | [], _, _ => rfl
  | v :: vs, level, k => by
    simp only [mapItems, emitItems, emit_mapNumbers hf v, emitItems_mapItems hf vs]
theorem emitMembers_mapMembers (hf : ∀ n, (f n).text = n.text) : ∀ (ms : List (String × Value))
    (level : Nat) (k : List Piece),
    emitMembers l level (mapMembers f ms) k = emitMembers l level ms k
  | [], _, _ => rfl
  | (name, v) :: ms, level, k => by
    simp only [mapMembers, emitMembers, emit_mapNumbers hf v, emitMembers_mapMembers hf ms]
end

theorem render_reread (policy : FractionPolicy) (v : Value) (l : Layout) :
    (v.reread policy).render l = v.render l := by
  rw [render, render, pieces, pieces, reread, emit_mapNumbers (Number.text_reread policy)]

theorem readText_of_rereads (hn : v.DistinctNames) (hr : ∀ n ∈ v.numbers, n.Rereads)
    (hd : v.depth ≤ options.maxDepth) (l : Layout) :
    readText (v.render l) options = .ok (v.reread options.fractions) := by
  have hitem := itemText_render hr l options.fractions
  have hdepth : (v.reread options.fractions).depth ≤ options.maxDepth := by
    rwa [reread, depth_mapNumbers]
  have hnames : (v.reread options.fractions).DistinctNames := distinctNames_mapNumbers hn
  have hread := readBytes_of_itemText hitem hdepth
  rwa [settled_of_distinctNames hnames] at hread

/-- A value that can be built is read from its text in any layout, with each number replaced by what
is read from its own text. Without floating-point numbers it is read exactly as it was, and what is
read is always written as before. -/
theorem readText_render (hv : v.Built) (hd : v.depth ≤ options.maxDepth) (l : Layout) :
    readText (v.render l) options = .ok (v.reread options.fractions) ∧
      (∀ n ∈ v.numbers, n.ReadAs options.fractions (n.reread options.fractions)) ∧
      (options.fractions = .exact → (∀ n ∈ v.numbers, n.kind ≠ .float) →
        v.reread options.fractions = v) ∧
      ∀ l', (v.reread options.fractions).render l' = v.render l' := by
  refine ⟨readText_of_rereads hv.names (fun n hn => (hv.numbers n hn).rereads) hd l,
    fun n hn => (hv.numbers n hn).readAs _, fun hexact hfloat => ?_, render_reread _ v⟩
  apply mapNumbers_eq_self
  intro n hn
  have hread := (hv.numbers n hn).readAs options.fractions
  cases n with
  | int64 | bigInteger => exact hread.integer rfl
  | bigDecimal t => exact hread.exact hexact rfl
  | float x t => exact absurd rfl (hfloat _ hn)

/-- Under the policy of binary numbers a fraction becomes one, with its text, unless it is too great
for that. -/
theorem readText_render_member :
    ∃ (v : Value) (options : ReadOptions), v = object [("a\n", array [ofInt 7,
          number (.bigInteger "-0")]), ("b", array [number (.bigDecimal "2.50"),
          number (.bigDecimal "1e400")])] ∧
      options = { fractions := .float } ∧ v.Built ∧ v.depth ≤ options.maxDepth ∧
      readText (v.render (.indented 3)) options = .ok (object [("a\n", array [ofInt 7,
          number (.bigInteger "-0")]), ("b", array [number (.float ⟨0x4004000000000000⟩ "2.50"),
          number (.bigDecimal "1e400")])]) := by
  have hnumber {n : Number} (hn : n.Built) : (number n).Built :=
    ⟨trivial, fun _ hm => List.mem_singleton.mp hm ▸ hn⟩
  have hintegers : (array [ofInt 7, number (.bigInteger "-0")]).Built := by
    refine built_array.mpr ?_
    simp only [List.forall_mem_cons]
    exact ⟨built_ofInt 7, hnumber (@Number.Built.integer "-0" _ rfl), List.forall_mem_nil _⟩
  have hfractions : (array [number (.bigDecimal "2.50"), number (.bigDecimal "1e400")]).Built := by
    refine built_array.mpr ?_
    simp only [List.forall_mem_cons]
    exact ⟨hnumber (@Number.Built.decimal "2.50" _ rfl),
      hnumber (@Number.Built.decimal "1e400" _ rfl), List.forall_mem_nil _⟩
  have hbuilt : (object [("a\n", array [ofInt 7, number (.bigInteger "-0")]),
      ("b", array [number (.bigDecimal "2.50"), number (.bigDecimal "1e400")])]).Built := by
    refine built_object.mpr ⟨by simp [OrderedMap.keys], ?_⟩
    simp only [List.forall_mem_cons]
    exact ⟨hintegers, hfractions, List.forall_mem_nil _⟩
  let options : ReadOptions := { fractions := .float }
  have hread := (@readText_render options _ hbuilt (by decide) (.indented 3)).1
  have hfraction : (Number.bigDecimal "2.50").reread .float =
      .float ⟨0x4004000000000000⟩ "2.50" := by decide +kernel
  have hgreat : (Number.bigDecimal "1e400").reread .float = .bigDecimal "1e400" := by
    decide +kernel
  refine ⟨_, options, rfl, rfl, hbuilt, by decide, hread.trans (congrArg Except.ok ?_)⟩
  show object [("a\n", array [ofInt 7, number (.bigInteger "-0")]),
    ("b", array [number (Number.reread .float _), number (Number.reread .float _)])] = _
  rw [hfraction, hgreat]

end ExactJson.Value
