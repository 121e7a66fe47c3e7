import ExactJson.Proofs.Document.Obtained
import ExactJson.Proofs.Document.Policy

/-! Equality of values, and what it has to do with their texts. Equality sees all of a tree but the texts
of floating-point numbers and the sign of their zero; without such numbers it is the equality of texts. -/
namespace ExactJson

namespace Binary
variable {f : BinaryFormat} {x y z : Binary f}

theorem sameValue_iff : x.sameValue y = true ↔
    x.isNaN = false ∧ y.isNaN = false ∧ (x = y ∨ x.magnitude = 0 ∧ y.magnitude = 0) := by
  simp [sameValue, and_assoc]

theorem isNaN_of_isFinite (h : x.isFinite = true) : x.isNaN = false := by
  simp only [isFinite, isNaN, decide_eq_true_eq, decide_eq_false_iff_not] at h ⊢
  omega

theorem sameValue_self (h : x.isFinite = true) : x.sameValue x = true :=
  sameValue_iff.mpr ⟨isNaN_of_isFinite h, isNaN_of_isFinite h, .inl rfl⟩

theorem sameValue_symm (h : x.sameValue y = true) : y.sameValue x = true := by
  obtain ⟨hx, hy, h⟩ := sameValue_iff.mp h
  exact sameValue_iff.mpr ⟨hy, hx, h.imp Eq.symm And.symm⟩

theorem sameValue_trans (h : x.sameValue y = true) (h' : y.sameValue z = true) :
    x.sameValue z = true := by
  obtain ⟨hx, -, hxy⟩ := sameValue_iff.mp h
  obtain ⟨-, hz, hyz⟩ := sameValue_iff.mp h'
  refine sameValue_iff.mpr ⟨hx, hz, ?_⟩
  obtain rfl | hxy := hxy
  · exact hyz
  · obtain rfl | hyz := hyz
    · exact .inr hxy
    · exact .inr ⟨hxy.1, hyz.2⟩

end Binary

namespace Number
variable {l m n : Number}

theorem kind_eq_of_beq (h : (n == m) = true) : n.kind = m.kind := by
  cases n <;> cases m <;> first | rfl | cases h

theorem eq_of_beq (h : (n == m) = true) (hn : n.kind ≠ .float) : n = m := by
  have hk := kind_eq_of_beq h
  cases n with
  | int64 x =>
    cases m with
    | int64 y => exact congrArg int64 (beq_iff_eq (a := x) |>.mp h)
    | _ => cases hk
  | bigInteger s =>
    cases m with
    | bigInteger t => exact congrArg bigInteger (beq_iff_eq (a := s) |>.mp h)
    | _ => cases hk
  | float x s => exact absurd rfl hn
  | bigDecimal s =>
    cases m with
    | bigDecimal t => exact congrArg bigDecimal (beq_iff_eq (a := s) |>.mp h)
    | _ => cases hk

/-- Only what is no number would differ from itself, and it cannot be made. -/
theorem Built.beq_self (h : n.Built) : (n == n) = true := by
  cases n with
  | int64 x => exact beq_self_eq_true x
  | bigInteger s | bigDecimal s => exact beq_self_eq_true s
  | float x s => exact Binary.sameValue_self (h.canonical.finite x s rfl)

theorem beq_symm (h : (n == m) = true) : (m == n) = true := by
  have hk := kind_eq_of_beq h
  by_cases hn : n.kind = .float
  · cases n with
    | float x s =>
      cases m with
      | float y t => exact Binary.sameValue_symm h
      | _ => cases hk
    | _ => cases hn
  · obtain rfl := eq_of_beq h hn
    exact h

theorem beq_trans (h : (l == m) = true) (h' : (m == n) = true) : (l == n) = true := by
  have hk := kind_eq_of_beq h
  have hk' := kind_eq_of_beq h'
  by_cases hl : l.kind = .float
  · cases l with
    | float x s =>
      cases m with
      | float y t =>
        cases n with
        | float z u => exact Binary.sameValue_trans h h'
        | _ => cases hk'
      | _ => cases hk
    | _ => cases hl
  · obtain rfl := eq_of_beq h hl
    exact h'

end Number

namespace Value
variable {R : Number → Number → Prop} {u v w : Value}

mutual
theorem SameTree.refl : ∀ {v : Value}, (∀ n ∈ v.numbers, R n n) → SameTree R v v
  | null, _ => trivial
  | boolean _, _ | string _, _ => rfl
  | number n, h => h n List.mem_cons_self
  | array _, h => SameItems.refl h
  | object _, h => SameMembers.refl h
theorem SameItems.refl : ∀ {vs : List Value}, (∀ n ∈ numbersOfItems vs, R n n) → SameItems R vs vs
  | [], _ => trivial
  | _ :: _, h => ⟨SameTree.refl fun n hn => h n (List.mem_append_left _ hn),
      SameItems.refl fun n hn => h n (List.mem_append_right _ hn)⟩
theorem SameMembers.refl : ∀ {ms : List (String × Value)}, (∀ n ∈ numbersOfMembers ms, R n n) →
    SameMembers R ms ms
  | [], _ => trivial
  | (_, _) :: _, h => ⟨rfl, SameTree.refl fun n hn => h n (List.mem_append_left _ hn),
      SameMembers.refl fun n hn => h n (List.mem_append_right _ hn)⟩
end

mutual
theorem SameTree.symm (hR : ∀ n m, R n m → R m n) : ∀ {v w : Value}, SameTree R v w → SameTree R w v
  | null, null, _ => trivial
  | boolean _, boolean _, h | string _, string _, h => Eq.symm h
  | number n, number m, h => hR n m h
  | array _, array _, h => SameItems.symm hR h
  | object _, object _, h => SameMembers.symm hR h
theorem SameItems.symm (hR : ∀ n m, R n m → R m n) : ∀ {vs ws : List Value}, SameItems R vs ws →
    SameItems R ws vs
  | [], [], _ => trivial
  | _ :: _, _ :: _, h => ⟨SameTree.symm hR h.1, SameItems.symm hR h.2⟩
theorem SameMembers.symm (hR : ∀ n m, R n m → R m n) : ∀ {ms ns : List (String × Value)},
    SameMembers R ms ns → SameMembers R ns ms
  | [], [], _ => trivial
  | (_, _) :: _, (_, _) :: _, h => ⟨h.1.symm, SameTree.symm hR h.2.1, SameMembers.symm hR h.2.2⟩
end

mutual
theorem SameTree.trans (hR : ∀ l m n, R l m → R m n → R l n) : ∀ {u v w : Value},
    SameTree R u v → SameTree R v w → SameTree R u w
  | null, null, null, _, _ => trivial
  | boolean _, boolean _, boolean _, h, h' | string _, string _, string _, h, h' => Eq.trans h h'
  | number l, number m, number n, h, h' => hR l m n h h'
  | array _, array _, array _, h, h' => SameItems.trans hR h h'
  | object _, object _, object _, h, h' => SameMembers.trans hR h h'
theorem SameItems.trans (hR : ∀ l m n, R l m → R m n → R l n) : ∀ {us vs ws : List Value},
    SameItems R us vs → SameItems R vs ws → SameItems R us ws
  | [], [], [], _, _ => trivial
  | _ :: _, _ :: _, _ :: _, h, h' => ⟨SameTree.trans hR h.1 h'.1, SameItems.trans hR h.2 h'.2⟩
theorem SameMembers.trans (hR : ∀ l m n, R l m → R m n → R l n) :
    ∀ {ls ms ns : List (String × Value)}, SameMembers R ls ms → SameMembers R ms ns →
      SameMembers R ls ns
  | [], [], [], _, _ => trivial
  | (_, _) :: _, (_, _) :: _, (_, _) :: _, h, h' => ⟨h.1.trans h'.1,
      SameTree.trans hR h.2.1 h'.2.1, SameMembers.trans hR h.2.2 h'.2.2⟩
end

mutual
theorem SameTree.eq : ∀ {v w : Value}, SameTree R v w → (∀ n ∈ v.numbers, ∀ m, R n m → n = m) →
    v = w
  | null, null, _, _ => rfl
  | boolean _, boolean _, h, _ => congrArg boolean h
  | string _, string _, h, _ => congrArg string h
  | number _, number m, h, hR => congrArg number (hR _ List.mem_cons_self m h)
  | array _, array _, h, hR => congrArg array (SameItems.eq h hR)
  | object _, object _, h, hR => congrArg object (SameMembers.eq h hR)
theorem SameItems.eq : ∀ {vs ws : List Value}, SameItems R vs ws →
    (∀ n ∈ numbersOfItems vs, ∀ m, R n m → n = m) → vs = ws
  | [], [], _, _ => rfl
  | _ :: _, _ :: _, h, hR => congrArg₂ List.cons
      (SameTree.eq h.1 fun n hn => hR n (List.mem_append_left _ hn))
      (SameItems.eq h.2 fun n hn => hR n (List.mem_append_right _ hn))
theorem SameMembers.eq : ∀ {ms ns : List (String × Value)}, SameMembers R ms ns →
    (∀ n ∈ numbersOfMembers ms, ∀ m, R n m → n = m) → ms = ns
  | [], [], _, _ => rfl
  | (_, _) :: _, (_, _) :: _, h, hR => congrArg₂ List.cons
      (Prod.ext h.1 (SameTree.eq h.2.1 fun n hn => hR n (List.mem_append_left _ hn)))
      (SameMembers.eq h.2.2 fun n hn => hR n (List.mem_append_right _ hn))
end

mutual
theorem beq_iff_sameTree : ∀ v w : Value,
    (v == w) = true ↔ SameTree (fun n m => (n == m) = true) v w
  | null, w => by
    cases w with
    | null => exact ⟨fun _ => trivial, fun _ => rfl⟩
    | _ => exact ⟨nofun, nofun⟩
  | boolean a, w => by
    cases w with
    | boolean b => exact beq_iff_eq (a := a)
    | _ => exact ⟨nofun, nofun⟩
  | number n, w => by
    cases w with
    | number m => exact Iff.rfl
    | _ => exact ⟨nofun, nofun⟩
  | string s, w => by
    cases w with
    | string t => exact beq_iff_eq (a := s)
    | _ => exact ⟨nofun, nofun⟩
  | array vs, w => by
    cases w with
    | array ws => exact beqItems_iff_sameItems vs ws
    | _ => exact ⟨nofun, nofun⟩
  | object ms, w => by
    cases w with
    | object ns => exact beqMembers_iff_sameMembers ms ns
    | _ => exact ⟨nofun, nofun⟩
theorem beqItems_iff_sameItems : ∀ vs ws : List Value,
    beqItems vs ws = true ↔ SameItems (fun n m => (n == m) = true) vs ws
  | [], [] => ⟨fun _ => trivial, fun _ => rfl⟩
  | [], _ :: _ | _ :: _, [] => ⟨nofun, nofun⟩
  | v :: vs, w :: ws => by
    rw [beqItems, Bool.and_eq_true, beqItems_iff_sameItems vs ws]
    exact and_congr_left fun _ => beq_iff_sameTree v w
theorem beqMembers_iff_sameMembers : ∀ ms ns : List (String × Value),
    beqMembers ms ns = true ↔ SameMembers (fun n m => (n == m) = true) ms ns
  | [], [] => ⟨fun _ => trivial, fun _ => rfl⟩
  | [], _ :: _ | _ :: _, [] => ⟨nofun, nofun⟩
  | (k, v) :: ms, (j, w) :: ns => by
    rw [beqMembers, Bool.and_eq_true, Bool.and_eq_true, beqMembers_iff_sameMembers ms ns, beq_iff_eq,
      and_assoc]
    exact and_congr_right fun _ => and_congr_left fun _ => beq_iff_sameTree v w
end

theorem Built.beq_self (h : v.Built) : (v == v) = true :=
  (beq_iff_sameTree v v).mpr (.refl fun n hn => (h.numbers n hn).beq_self)

theorem beq_symm (h : (v == w) = true) : (w == v) = true := by
  rw [beq_iff_sameTree] at h ⊢
  exact h.symm fun _ _ => Number.beq_symm

theorem beq_trans (h : (u == v) = true) (h' : (v == w) = true) : (u == w) = true := by
  rw [beq_iff_sameTree] at h h' ⊢
  exact SameTree.trans (fun l m n => @Number.beq_trans l m n) h h'

def FloatFree (v : Value) : Prop := ∀ n ∈ v.numbers, n.kind ≠ .float

theorem FloatFree.eq_of_beq (hv : v.FloatFree) (h : (v == w) = true) : v = w :=
  ((beq_iff_sameTree v w).mp h).eq fun n hn _ hm => Number.eq_of_beq hm (hv n hn)

/-- What is written of a value tells it from all others, since it can be read again. -/
theorem eq_of_render_eq (hv : v.Built) (hw : w.Built) (fv : v.FloatFree) (fw : w.FloatFree)
    {l : Layout} (h : v.render l = w.render l) : v = w := by
  have hread (u : Value) (hu : u.Built) (fu : u.FloatFree) (hd : u.depth ≤ max v.depth w.depth) :
      readText (u.render l) ⟨max v.depth w.depth, .exact⟩ = .ok u := by
    obtain ⟨hread, -, hsame, -⟩ :=
      @readText_render ⟨max v.depth w.depth, .exact⟩ u hu hd l
    rw [hread, hsame rfl fu]
  have hboth := hread v hv fv (Nat.le_max_left _ _)
  rw [h, hread w hw fw (Nat.le_max_right _ _)] at hboth
  cases hboth
  rfl

theorem beq_iff_render (hv : v.Built) (hw : w.Built) (fv : v.FloatFree) (fw : w.FloatFree)
    (l : Layout) : (v == w) = true ↔ v.render l = w.render l := by
  constructor
  · intro h
    rw [fv.eq_of_beq h]
  · intro h
    rw [eq_of_render_eq hv hw fv fw h]
    exact hw.beq_self

/-- Equality is an equivalence on all values that can be come by, since none has a number that is none.
It sees the shape of a tree, the names in their order, and the kinds of numbers. Of values without
floating-point numbers it sees all there is, which is what each layout writes. -/
theorem equality_of_obtained :
    (∀ v : Value, v.Obtained → (v == v) = true ∧
      ∀ n ∈ v.numbers, ∀ x source, n = .float x source → x.isNaN = false) ∧
    (∀ v w : Value, (v == w) = true → (w == v) = true) ∧
    (∀ u v w : Value, (u == v) = true → (v == w) = true → (u == w) = true) ∧
    (∀ v w : Value, (v == w) = true ↔ v.SameTree (fun n m => (n == m) = true) w) ∧
    (∀ n m : Number, (n == m) = true → n.kind = m.kind ∧ (n.kind ≠ .float → n = m)) ∧
    ∀ v w : Value, v.Obtained → w.Obtained → v.FloatFree → w.FloatFree →
      ((v == w) = true ↔ v = w) ∧ ((v == w) = true ↔ v.compact = w.compact) ∧
        ∀ width, (v == w) = true ↔ v.render (.indented width) = w.render (.indented width) := by
  refine ⟨fun v hv => ⟨hv.built.beq_self, ?_⟩, fun _ _ => beq_symm, fun _ _ _ => beq_trans,
    beq_iff_sameTree, fun n m h => ⟨Number.kind_eq_of_beq h, Number.eq_of_beq h⟩,
    fun v w hv hw fv fw => ?_⟩
  · rintro n hn x source rfl
    exact Binary.isNaN_of_isFinite ((hv.built.numbers _ hn).canonical.finite x source rfl)
  · have hrender := beq_iff_render hv.built hw.built fv fw
    refine ⟨⟨fv.eq_of_beq, ?_⟩, hrender .compact, fun width => hrender (.indented width)⟩
    rintro rfl
    exact hv.built.beq_self

/-- The order of members counts. -/
theorem equality_of_obtained_members :
    (object [("a", ofInt 0), ("b", null)]).Obtained ∧ (object [("b", null), ("a", ofInt 0)]).Obtained ∧
      (object [("a", ofInt 0), ("b", null)]).FloatFree ∧
      (object [("b", null), ("a", ofInt 0)]).FloatFree ∧
      ((object [("a", ofInt 0), ("b", null)] == object [("b", null), ("a", ofInt 0)]) = true ↔
        (object [("a", ofInt 0), ("b", null)]).compact =
          (object [("b", null), ("a", ofInt 0)]).compact) := by
  have hzero : (ofInt 0).Obtained := .number (.ofInt 0)
  have hab : (object [("a", ofInt 0), ("b", null)]).Obtained :=
    .insert (.insert .object "a" hzero) "b" .null
  have hba : (object [("b", null), ("a", ofInt 0)]).Obtained :=
    .insert (.insert .object "b" .null) "a" hzero
  have fab : (object [("a", ofInt 0), ("b", null)]).FloatFree :=
    List.forall_mem_singleton.mpr (by decide)
  have fba : (object [("b", null), ("a", ofInt 0)]).FloatFree :=
    List.forall_mem_singleton.mpr (by decide)
  exact ⟨hab, hba, fab, fba, (equality_of_obtained.2.2.2.2.2 _ _ hab hba fab fba).2.1⟩

end Value
end ExactJson
