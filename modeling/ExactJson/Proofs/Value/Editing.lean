import ExactJson.Proofs.Layout.Fidelity
import ExactJson.Proofs.Value.Items
import ExactJson.Value.Path

/-! Values that are edited at the end of a path. A value in which a path leads somewhere is the value
there with containers around it, and an edit changes what is inside of them only. -/
namespace ExactJson

namespace Value

inductive Layer where
  | item (front back : List Value)
  | member (front : Object) (k : String) (h : k ∉ front.keys) (back : Object)

namespace Layer
variable {v u w : Value} {s t : PathStep}

def step : Layer → PathStep
  | item front _ => .index front.length
  | member _ k _ _ => .name k

def fill : Layer → Value → Value
  | item front back, v => array (front ++ v :: back)
  | member front k _ back, v => object (front ++ (k, v) :: back)

theorem exists_of_child? (h : v.child? s = some u) : ∃ l : Layer, l.step = s ∧ l.fill u = v := by
  cases s with
  | name k =>
    cases v with
    | object members =>
      obtain ⟨front, back, rfl, hk⟩ := OrderedMap.exists_cut_of_get? h
      exact ⟨.member front k hk back, rfl, rfl⟩
    | null | boolean | number | string | array => cases h
  | index i =>
    cases v with
    | array items =>
      obtain ⟨front, back, rfl, rfl⟩ := Items.getElem?_eq_some_iff_cut.mp h
      exact ⟨.item front back, rfl, rfl⟩
    | null | boolean | number | string | object => cases h

@[simp] theorem child?_fill (l : Layer) (u : Value) : (l.fill u).child? l.step = some u := by
  cases l with
  | item front back => exact Items.getElem?_eq_some_iff_cut.mpr ⟨front, back, rfl, rfl⟩
  | member front k h back =>
    refine (OrderedMap.get?_append_of_not_mem h ((k, u) :: back)).trans ?_
    rw [OrderedMap.get?, if_pos rfl]

@[simp]
theorem setChild_fill (l : Layer) (u w : Value) : (l.fill u).setChild w l.step = l.fill w := by
  cases l with
  | item front back => simp [fill, step, setChild]
  | member front k h back =>
    refine congrArg object ((OrderedMap.insert_append_of_not_mem h ((k, u) :: back) w).trans ?_)
    rw [OrderedMap.insert, if_pos rfl]

theorem child?_fill_of_ne (l : Layer) (h : t ≠ l.step) (u w : Value) :
    (l.fill u).child? t = (l.fill w).child? t := by
  cases l with
  | item front back =>
    cases t with
    | name k => rfl
    | index i =>
      have hi : i ≠ front.length := fun hi => h (congrArg PathStep.index hi)
      have hset : front ++ w :: back = (front ++ u :: back).set front.length w := by simp
      refine Eq.trans ?_ (congrArg (·[i]?) hset.symm)
      exact (List.getElem?_set_ne (Ne.symm hi)).symm
  | member front k hk back =>
    cases t with
    | name j =>
      exact OrderedMap.get?_append_cons_of_ne (fun hj => h (congrArg PathStep.name hj)) front back u w
    | index i => rfl

end Layer

/-- Two containers that are the same apart from what is one step inside them: children, their number
and the order of names. -/
structure SameBut (s : PathStep) (v w : Value) : Prop where
  kind : v.kind = w.kind
  size : v.size = w.size
  names : v.object?.map OrderedMap.keys = w.object?.map OrderedMap.keys
  others (t : PathStep) : t ≠ s → v.child? t = w.child? t

theorem Layer.sameBut (l : Layer) (u w : Value) : SameBut l.step (l.fill u) (l.fill w) where
  kind := by cases l <;> rfl
  size := by cases l <;> simp [fill, Value.size]
  names := by cases l <;> simp [fill, object?, OrderedMap.keys]
  others _ h := l.child?_fill_of_ne h u w

inductive Context where
  | gap
  | within (l : Layer) (c : Context)

namespace Context
variable {v u w : Value} {p q : Path} {α : Type}

def path : Context → Path
  | gap => []
  | within l c => l.step :: c.path

def fill : Context → Value → Value
  | gap, u => u
  | within l c, u => l.fill (c.fill u)

theorem exists_of_at? (h : v.at? p = some u) : ∃ c : Context, c.path = p ∧ c.fill u = v := by
  induction p generalizing v with
  | nil =>
    cases h
    exact ⟨.gap, rfl, rfl⟩
  | cons s p ih =>
    obtain ⟨x, hx, hu⟩ := Option.bind_eq_some_iff.mp h
    obtain ⟨c, rfl, rfl⟩ := ih hu
    obtain ⟨l, rfl, rfl⟩ := Layer.exists_of_child? hx
    exact ⟨.within l c, rfl, rfl⟩

@[simp]
theorem at?_fill (c : Context) (u : Value) (q : Path) : (c.fill u).at? (c.path ++ q) = u.at? q := by
  induction c with
  | gap => rfl
  | within l c ih =>
    simpa [path, fill, at?] using ih

@[simp] theorem editAt_fill (c : Context) (u : Value) (edit : Value → α × Value) :
    (c.fill u).editAt c.path edit = (some (edit u).1, c.fill (edit u).2) := by
  induction c with
  | gap => rfl
  | within l c ih => simp [path, fill, editAt, ih]

/-- A path that leaves the way to the gap does not see what is there. -/
theorem at?_fill_of_apart (c : Context) (hp : ¬c.path <+: q) (hq : ¬q <+: c.path) (u w : Value) :
    (c.fill u).at? q = (c.fill w).at? q := by
  induction c generalizing q with
  | gap => exact absurd List.nil_prefix hp
  | within l c ih =>
    cases q with
    | nil => exact absurd List.nil_prefix hq
    | cons t q =>
      rw [fill, fill, at?, at?]
      -- Either the path goes on towards the gap, or it leaves the way here.
      by_cases ht : t = l.step
      · subst ht
        rw [l.child?_fill, l.child?_fill]
        refine ih (fun h => hp ?_) (fun h => hq ?_)
        · exact List.cons_prefix_cons.mpr ⟨rfl, h⟩
        · exact List.cons_prefix_cons.mpr ⟨rfl, h⟩
      · rw [l.child?_fill_of_ne ht]

/-- A container on the way to the gap is one of the layers, filled with what is inside. -/
theorem at?_fill_above {s : PathStep} {r : Path} (c : Context) (h : c.path = q ++ s :: r)
    (u w : Value) : ∃ x y, (c.fill u).at? q = some x ∧ (c.fill w).at? q = some y ∧ SameBut s x y := by
  induction c generalizing q with
  | gap => simp [path] at h
  | within l c ih =>
    cases q with
    | nil =>
      obtain ⟨rfl, -⟩ := List.cons.inj h
      exact ⟨_, _, rfl, rfl, l.sameBut (c.fill u) (c.fill w)⟩
    | cons t q =>
      obtain ⟨rfl, hc⟩ := List.cons.inj h
      obtain ⟨x, y, hx, hy, hsame⟩ := ih hc
      refine ⟨x, y, ?_, ?_, hsame⟩
      · simpa [fill, at?] using hx
      · simpa [fill, at?] using hy

end Context

theorem Layer.exists_symbols (l : Layer) :
    ∃ before behind, ∀ u, (l.fill u).symbols = before ++ u.symbols ++ behind := by
  cases l with
  | item front back =>
    refine ⟨.openBracket :: itemsBefore front, moreItems back, fun u => ?_⟩
    rw [fill, symbols_array_append, List.cons_append, List.cons_append]
  | member front k h back =>
    refine ⟨.openBrace :: (membersBefore front ++ [.string k, .colon]), moreMembers back,
      fun u => ?_⟩
    rw [fill, symbols_object_append]
    simp [memberSymbols]

theorem Context.exists_symbols (c : Context) :
    ∃ before behind, ∀ u, (c.fill u).symbols = before ++ u.symbols ++ behind := by
  induction c with
  | gap => exact ⟨[], [], fun u => (List.append_nil u.symbols).symm⟩
  | within l c ih =>
    obtain ⟨before, behind, hc⟩ := ih
    obtain ⟨before', behind', hl⟩ := l.exists_symbols
    refine ⟨before' ++ before, behind ++ behind', fun u => ?_⟩
    rw [fill, hl, hc]
    simp only [List.append_assoc]

/-- The compact text of what is in a gap stands between texts that do not depend on it. -/
theorem Context.exists_text (c : Context) :
    ∃ before behind : String, ∀ u, (c.fill u).compact = before ++ u.compact ++ behind := by
  obtain ⟨before, behind, hc⟩ := c.exists_symbols
  refine ⟨String.join (before.map Symbol.text), String.join (behind.map Symbol.text), fun u => ?_⟩
  simp only [compact_eq_join, hc, List.map_append, String.join_append]

/-- What an edit at the end of a path leaves of `v`, and that it puts `w` there. -/
structure EditedAt (p : Path) (v w v' : Value) : Prop where
  inside (q : Path) : v'.at? (p ++ q) = w.at? q
  apart (q : Path) : ¬p <+: q → ¬q <+: p → v'.at? q = v.at? q
  above (q : Path) (s : PathStep) (r : Path) : p = q ++ s :: r →
    ∃ x y, v.at? q = some x ∧ v'.at? q = some y ∧ SameBut s x y

theorem Context.editedAt (c : Context) (u w : Value) :
    EditedAt c.path (c.fill u) w (c.fill w) where
  inside q := c.at?_fill w q
  apart _ hp hq := c.at?_fill_of_apart hp hq w u
  above _ _ _ h := c.at?_fill_above h u w

theorem editAt_of_none {α : Type} {v : Value} {p : Path} (h : v.at? p = none)
    (edit : Value → α × Value) : v.editAt p edit = (none, v) := by
  induction p generalizing v with
  | nil => cases h
  | cons s p ih =>
    cases hs : v.child? s with
    | none => simp only [editAt, hs]
    | some u =>
      obtain ⟨l, rfl, rfl⟩ := Layer.exists_of_child? hs
      have hu : u.at? p = none := by simpa [at?, hs] using h
      simp [editAt, hs, ih hu]

/-- An edit is made if the path leads somewhere. The value there, whatever is made of it, is then the
only one that is changed: other paths see what they saw, the containers around it keep their kinds,
sizes, names in order and other children, and the compact text is changed where the value stood. -/
theorem edit_along_path (v : Value) (p : Path) :
    (v.at? p = none → ∀ (α : Type) (edit : Value → α × Value), v.editAt p edit = (none, v)) ∧
    ∀ u, v.at? p = some u → ∃ before behind : String, v.compact = before ++ u.compact ++ behind ∧
      ∀ (α : Type) (edit : Value → α × Value), ∃ v', v.editAt p edit = (some (edit u).1, v') ∧
        EditedAt p v (edit u).2 v' ∧ v'.compact = before ++ (edit u).2.compact ++ behind := by
  refine ⟨fun h _ => editAt_of_none h, fun u h => ?_⟩
  obtain ⟨c, rfl, rfl⟩ := Context.exists_of_at? h
  obtain ⟨before, behind, htext⟩ := c.exists_text
  refine ⟨before, behind, htext u, fun α edit => ?_⟩
  exact ⟨c.fill (edit u).2, c.editAt_fill u edit, c.editedAt u (edit u).2, htext (edit u).2⟩

/-- An array inside an object gets longer, and a path that leads nowhere changes nothing. -/
theorem edit_along_path_push :
    let v := object [("a", array [null]), ("b", null)]
    let push : Value → Nat × Value
      | array items => (items.length, array (Items.push items (boolean true)))
      | w => (0, w)
    let v' := object [("a", array [null, boolean true]), ("b", null)]
    v.editAt [.name "a"] push = (some 1, v') ∧
      EditedAt [.name "a"] v (array [null, boolean true]) v' ∧
      v.editAt [.name "b", .index 0] push = (none, v) := by
  intro v push v'
  obtain ⟨before, behind, -, hedit⟩ := (edit_along_path v [.name "a"]).2 (array [null]) rfl
  obtain ⟨after, heq, hedited, -⟩ := hedit Nat push
  obtain rfl : v' = after := congrArg Prod.snd heq
  exact ⟨heq, hedited, (edit_along_path v [.name "b", .index 0]).1 rfl Nat push⟩

end Value
end ExactJson
