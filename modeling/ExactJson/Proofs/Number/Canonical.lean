import ExactJson.Proofs.Number.Reread

/-! What a number is by its text. An integer of 64 bits is never kept as text, so that integers are equal
just when their texts are. -/
namespace ExactJson
open Grammar Text

namespace Integer
variable {s t : String}

@[simp] theorem fitsInt64_toInt (x : Int64) : fitsInt64 x.toInt = true := by
  simp only [fitsInt64, Bool.and_eq_true, decide_eq_true_eq]
  exact ⟨x.le_toInt, x.toInt_lt⟩

theorem literal_eq_iff (hs : NumberText .integer (utf8 s)) (ht : NumberText .integer (utf8 t)) :
    s = t ↔ denoted s = denoted t ∧ (s = "-0" ↔ t = "-0") := by
  constructor
  · rintro rfl
    exact ⟨rfl, Iff.rfl⟩
  · rintro ⟨hd, hzero⟩
    by_cases h₀ : s = "-0"
    · rw [h₀, hzero.mp h₀]
    · rw [← text_denoted hs h₀, ← text_denoted ht fun h => h₀ (hzero.mpr h), hd]

end Integer

namespace Number
variable {n m : Number} {form : NumberForm} {t : String}

structure Canonical (n : Number) : Prop where
  literal : ∃ form, NumberForm.ofText? n.text = some form
  value (x : Int64) : n = .int64 x ↔ n.text = Integer.text x.toInt
  int64 : n.kind = .int64 ↔ ∃ x : Int64, n.text = Integer.text x.toInt ∧ n.text ≠ "-0"
  bigInteger : n.kind = .bigInteger ↔ NumberForm.ofText? n.text = some .integer ∧
    (n.text = "-0" ∨ Integer.fitsInt64 (Integer.denoted n.text) = false)
  fractional : n.kind = .float ∨ n.kind = .bigDecimal ↔
    NumberForm.ofText? n.text = some .fraction ∨ NumberForm.ofText? n.text = some .exponent
  finite (x : Binary64) (source : Option String) : n = .float x source → x.isFinite = true

theorem kind_eq_int64 : n.kind = .int64 ↔ ∃ x, n = .int64 x := by
  cases n <;> simp [kind]

theorem Canonical.of_form (ht : NumberForm.ofText? n.text = some form)
    (hv : ∀ x, n = .int64 x ↔ n.text = Integer.text x.toInt)
    (hb : n.kind = .bigInteger ↔ form = .integer ∧
      (n.text = "-0" ∨ Integer.fitsInt64 (Integer.denoted n.text) = false))
    (hf : n.isFractional = true ↔ form ≠ .integer)
    (hfin : ∀ x source, n = .float x source → x.isFinite = true) : n.Canonical where
  literal := ⟨form, ht⟩
  value := hv
  int64 := by
    rw [kind_eq_int64]
    refine exists_congr fun x => (hv x).trans ⟨fun h => ⟨h, ?_⟩, And.left⟩
    rw [h]
    exact Integer.text_ne_minus_zero _
  bigInteger := by simpa [ht] using hb
  fractional := by
    have hk : n.kind = .float ∨ n.kind = .bigDecimal ↔ n.isFractional = true := by
      cases n <;> simp [kind, isFractional, isInteger]
    rw [hk, hf, ht]
    cases form <;> simp
  finite := hfin

/-- An integer literal stays as text where its integer does not fit, and where its sign would be lost. -/
theorem ofIntegerLiteral_eq (h : NumberText .integer (utf8 t)) :
    ofIntegerLiteral t =
      if t = "-0" ∨ Integer.fitsInt64 (Integer.denoted t) = false then bigInteger t
      else int64 (Int64.ofInt (Integer.denoted t)) := by
  rw [ofIntegerLiteral, Integer.readInt64_denoted h, Integer.checked]
  by_cases h₀ : t = "-0"
  · rw [if_pos h₀, if_pos (.inl h₀)]
  · cases hf : Integer.fitsInt64 (Integer.denoted t) <;> simp [h₀]

theorem canonical_ofIntegerLiteral (h : NumberText .integer (utf8 t)) :
    (ofIntegerLiteral t).Canonical := by
  have hform := NumberForm.ofText?_eq_some_iff.mpr h
  have htext := text_ofIntegerLiteral h
  rw [ofIntegerLiteral_eq h] at htext ⊢
  split
  · rename_i hbig
    refine .of_form hform (fun x => ⟨Number.noConfusion, fun hx => ?_⟩) ?_ ?_ ?_
    · -- The text of an integer of 64 bits is neither the negative zero nor too wide.
      change t = Integer.text x.toInt at hx
      rw [hx, Integer.denoted_text, Integer.fitsInt64_toInt] at hbig
      simp [Integer.text_ne_minus_zero] at hbig
    · exact ⟨fun _ => ⟨rfl, hbig⟩, fun _ => rfl⟩
    · simp [isFractional, isInteger]
    · exact fun _ _ => Number.noConfusion
  · rename_i hsmall
    rw [if_neg hsmall] at htext
    obtain ⟨h₀, hfits⟩ := not_or.mp hsmall
    refine .of_form ((congrArg NumberForm.ofText? htext).trans hform) (fun x => ?_) ?_ ?_ ?_
    · rw [htext, int64.injEq]
      constructor
      · rintro rfl
        exact htext.symm
      · intro hx
        rw [hx, Integer.denoted_text, Int64.ofInt_toInt]
    · simp [kind, htext, h₀, hfits]
    · simp [isFractional, isInteger]
    · exact fun _ _ => Number.noConfusion

theorem canonical_of_fractional (hn : n.isFractional = true) (hf : form ≠ .integer)
    (ht : NumberText form (utf8 n.text))
    (hfin : ∀ x source, n = .float x source → x.isFinite = true) : n.Canonical := by
  have hform := NumberForm.ofText?_eq_some_iff.mpr ht
  refine .of_form hform (fun x => ⟨?_, fun hx => ?_⟩) ⟨?_, fun h => absurd h.1 hf⟩
    ⟨fun _ => hf, fun _ => hn⟩ hfin
  · rintro rfl
    cases hn
  · have hint := NumberForm.ofText?_eq_some_iff.mpr (hx ▸ Integer.numberText_text x.toInt)
    exact absurd (Option.some.inj (hform.symm.trans hint)) hf
  · cases n <;> cases hn <;> exact NumberKind.noConfusion

theorem finite_of_ofFractionLiteral (policy : FractionPolicy) {x : Binary64} {source : Option String}
    (h : ofFractionLiteral policy t = .float x source) : x.isFinite = true := by
  cases policy with
  | exact => cases h
  | float =>
    simp only [ofFractionLiteral] at h
    split at h
    · rename_i hx
      cases h
      exact (Option.filter_eq_some_iff.mp hx).2
    · cases h

theorem canonical_ofLiteral (policy : FractionPolicy) (h : NumberText form (utf8 t)) :
    (ofLiteral policy form t).Canonical := by
  cases form with
  | integer => exact canonical_ofIntegerLiteral h
  | fraction | exponent =>
    have hn : (ofFractionLiteral policy t).isFractional = true := by
      rw [isFractional, isInteger_ofFractionLiteral]
      rfl
    refine canonical_of_fractional hn ?_ ((text_ofFractionLiteral policy t).symm ▸ h)
      fun x source => finite_of_ofFractionLiteral policy
    simp

theorem Built.canonical (h : n.Built) : n.Canonical := by
  cases h with
  | ofInt z =>
    rw [← ofIntegerLiteral_text]
    exact canonical_ofIntegerLiteral (Integer.numberText_text z)
  | @ofBinary64 x _ h =>
    simp only [ofBinary64?] at h
    split at h
    · rename_i hx
      cases h
      obtain ⟨form, hf, ht⟩ := FloatNotation.text_literal hx
      refine canonical_of_fractional rfl hf ht ?_
      rintro y source h
      cases h
      exact hx
    · cases h
  | @integer t n h =>
    simp only [integer?] at h
    split at h
    · rename_i hf
      cases h
      exact canonical_ofIntegerLiteral (NumberForm.ofText?_eq_some_iff.mp hf)
    · cases h
  | @decimal t n h =>
    obtain ⟨form, hf, rfl⟩ := Option.map_eq_some_iff.mp h
    exact canonical_ofLiteral .exact (NumberForm.ofText?_eq_some_iff.mp hf)
  | literal policy h => exact canonical_ofLiteral policy (NumberForm.ofText?_eq_some_iff.mp h)

theorem built_int64 (x : Int64) : (int64 x).Built := by
  have h : ofInt x.toInt = int64 x := by
    rw [ofInt, Integer.fitsInt64_toInt, if_pos rfl, Int64.ofInt_toInt]
  exact h ▸ .ofInt x.toInt

theorem Canonical.numberText (h : n.Canonical) (hi : n.isInteger = true) :
    NumberText .integer (utf8 n.text) := by
  obtain ⟨form, hform⟩ := h.literal
  have hnot : ¬(n.kind = .float ∨ n.kind = .bigDecimal) := by
    cases n <;> simp [isInteger, kind] at hi ⊢
  rw [h.fractional, hform] at hnot
  cases form with
  | integer => exact NumberForm.ofText?_eq_some_iff.mp hform
  | fraction | exponent => simp at hnot

/-- Integers are equal just when their texts are. -/
theorem Canonical.beq_iff_text (hn : n.Canonical) (hm : m.Canonical) (hi : n.isInteger = true)
    (hj : m.isInteger = true) : (n == m) = true ↔ n.text = m.text := by
  cases n with
  | float | bigDecimal => cases hi
  | int64 x =>
    constructor
    · intro h
      cases m with
      | int64 y => rw [eq_of_beq (show (x == y) = true from h)]
      | bigInteger t => cases h
      | float | bigDecimal => cases hj
    · intro h
      rw [(hm.value x).mpr h.symm]
      exact beq_self_eq_true x
  | bigInteger s =>
    cases m with
    | float | bigDecimal => cases hj
    | int64 y =>
      refine ⟨fun h => ?_, fun h => ?_⟩
      · cases h
      · exact nomatch (hn.value y).mpr h
    | bigInteger t => exact beq_iff_eq (a := s)

end Number
end ExactJson
