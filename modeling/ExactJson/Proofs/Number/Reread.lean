import ExactJson.Number.Basic
import ExactJson.Proofs.Number.Notation

/-! Numbers keep the text that they are read from, and what becomes of a number whose text is read
again. -/
namespace ExactJson
open Grammar Text

namespace Decimal

theorem Reading.state_take {r r' : Reading} {b : UInt8} (h : r.take b = some r') :
    r.state.next? b = some r'.state := by
  obtain ⟨s, hs, rfl⟩ := Option.map_eq_some_iff.mp h
  rw [hs]
  cases s <;> rfl

theorem Reading.run?_state (r : Reading) (bs : Bytes) :
    (r.run? bs).map Reading.state = r.state.run? bs := by
  induction bs generalizing r with
  | nil => rfl
  | cons b bs ih =>
    simp only [run?, LiteralState.run?]
    cases h : r.take b with
    | none =>
      have hn : r.state.next? b = none := by simpa only [take, Option.map_eq_none_iff] using h
      simp [hn]
    | some r' => simpa [Reading.state_take h] using ih r'

end Decimal

theorem Binary.exists_ofLiteral {form : NumberForm} {t : String} (h : NumberText form (utf8 t))
    (f : BinaryFormat) : ∃ x, Binary.ofLiteral? f t = some x := by
  obtain ⟨s, hs, hf⟩ := LiteralState.numberText_iff.mp h
  have hrun := Decimal.Reading.run?_state {} (utf8 t)
  rw [show ({} : Decimal.Reading).state = .start from rfl, hs] at hrun
  obtain ⟨r, hr, rfl⟩ := Option.map_eq_some_iff.mp hrun
  exact ⟨Decimal.toBinary f r.decimal, by simp [ofLiteral?, Decimal.read?, hr, hf]⟩

namespace Number

/-- The numbers that can be made: of integers, of finite binary numbers and of literals. -/
inductive Built : Number → Prop where
  | ofInt (z : Int) : Built (ofInt z)
  | ofBinary64 {x : Binary64} {n : Number} (h : ofBinary64? x = some n) : Built n
  | integer {t : String} {n : Number} (h : integer? t = some n) : Built n
  | decimal {t : String} {n : Number} (h : decimal? t = some n) : Built n
  | literal {form : NumberForm} {t : String} (policy : FractionPolicy)
      (h : NumberForm.ofText? t = some form) : Built (ofLiteral policy form t)

@[simp]
theorem isInteger_ofIntegerLiteral (t : String) : (ofIntegerLiteral t).isInteger = true := by
  simp only [ofIntegerLiteral]
  split
  · rfl
  · split <;> rfl

theorem text_ofIntegerLiteral {t : String} (h : NumberText .integer (utf8 t)) :
    (ofIntegerLiteral t).text = t := by
  simp only [ofIntegerLiteral]
  split
  · rfl
  · rename_i h₀
    split
    · rename_i x hx
      exact Integer.text_of_readInt64 h h₀ hx
    · rfl

@[simp] theorem ofIntegerLiteral_text (z : Int) : ofIntegerLiteral (Integer.text z) = ofInt z := by
  simp only [ofIntegerLiteral, if_neg (Integer.text_ne_minus_zero z), Integer.readInt64_text,
    Integer.checked, ofInt]
  by_cases h : Integer.fitsInt64 z = true
  · simp only [h, if_true]
  · simp only [h, if_false, Bool.false_eq_true]

@[simp] theorem isInteger_ofFractionLiteral (policy : FractionPolicy) (t : String) :
    (ofFractionLiteral policy t).isInteger = false := by
  cases policy with
  | exact => rfl
  | float =>
    simp only [ofFractionLiteral]
    split <;> rfl

@[simp] theorem text_ofFractionLiteral (policy : FractionPolicy) (t : String) :
    (ofFractionLiteral policy t).text = t := by
  cases policy with
  | exact => rfl
  | float =>
    simp only [ofFractionLiteral]
    split <;> rfl

theorem text_ofLiteral {form : NumberForm} {t : String} (h : NumberText form (utf8 t))
    (policy : FractionPolicy) : (ofLiteral policy form t).text = t := by
  cases form with
  | integer => exact text_ofIntegerLiteral h
  | fraction | exponent => exact text_ofFractionLiteral policy t

def reread (policy : FractionPolicy) (n : Number) : Number :=
  if n.isInteger then n else ofFractionLiteral policy n.text

@[simp]
theorem text_reread (policy : FractionPolicy) (n : Number) : (n.reread policy).text = n.text := by
  rw [reread]
  split
  · rfl
  · exact text_ofFractionLiteral policy n.text

theorem reread_of_isInteger {n : Number} (h : n.isInteger = true) (policy : FractionPolicy) :
    n.reread policy = n := if_pos h

theorem reread_of_fractional {n : Number} (h : n.isFractional = true) (policy : FractionPolicy) :
    n.reread policy = ofFractionLiteral policy n.text :=
  if_neg (by simpa [isFractional] using h)

/-- Whatever the policy was, a literal is read again from the number that it became. -/
@[simp]
theorem reread_ofLiteral (policy policy' : FractionPolicy) (form : NumberForm) (t : String) :
    (ofLiteral policy form t).reread policy' = ofLiteral policy' form t := by
  cases form with
  | integer => exact reread_of_isInteger (isInteger_ofIntegerLiteral t) policy'
  | fraction | exponent =>
    have hi := isInteger_ofFractionLiteral policy t
    simp only [ofLiteral, reread, hi, Bool.false_eq_true, if_false, text_ofFractionLiteral]

def Rereads (n : Number) : Prop := ∃ form, NumberText form (utf8 n.text) ∧
  ∀ policy, ofLiteral policy form n.text = n.reread policy

theorem rereads_ofLiteral {form : NumberForm} {t : String} (h : NumberText form (utf8 t))
    (policy : FractionPolicy) : (ofLiteral policy form t).Rereads := by
  refine ⟨form, ?_, fun policy' => ?_⟩
  · rwa [text_ofLiteral h]
  · rw [text_ofLiteral h, reread_ofLiteral]

theorem Built.rereads {n : Number} (h : n.Built) : n.Rereads := by
  cases h with
  | ofInt z =>
    rw [← ofIntegerLiteral_text]
    exact rereads_ofLiteral (Integer.numberText_text z) .exact
  | @ofBinary64 x _ h =>
    simp only [ofBinary64?] at h
    split at h
    · rename_i hx
      cases h
      obtain ⟨form, hf, ht⟩ := FloatNotation.text_literal hx
      refine ⟨form, ht, fun policy => ?_⟩
      cases form with
      | integer => exact absurd rfl hf
      | fraction | exponent => rfl
    · cases h
  | @integer t n h =>
    simp only [integer?] at h
    split at h
    · rename_i hf
      cases h
      exact rereads_ofLiteral (NumberForm.ofText?_eq_some_iff.mp hf) .exact
    · cases h
  | @decimal t n h =>
    obtain ⟨form, hf, rfl⟩ := Option.map_eq_some_iff.mp h
    exact rereads_ofLiteral (NumberForm.ofText?_eq_some_iff.mp hf) .exact
  | literal policy h => exact rereads_ofLiteral (NumberForm.ofText?_eq_some_iff.mp h) policy

theorem Built.reread_float {n : Number} (h : n.Built) (hn : n.isFractional = true) :
    ∃ x, Binary.ofLiteral? .double n.text = some x ∧
      n.reread .float = if x.isFinite then float x (some n.text) else bigDecimal n.text := by
  obtain ⟨form, ht, -⟩ := h.rereads
  obtain ⟨x, hx⟩ := Binary.exists_ofLiteral ht .double
  refine ⟨x, hx, ?_⟩
  rw [reread_of_fractional hn, ofFractionLiteral, hx]
  cases hf : x.isFinite <;> simp only [Option.filter, hf, if_true, if_false, Bool.false_eq_true]

/-- What is read under a policy from the text of a number: an integer as it is, and a fraction by its
text or as the nearest binary number, unless that is infinite. -/
structure ReadAs (policy : FractionPolicy) (n m : Number) : Prop where
  literal : ∃ form, NumberForm.ofText? n.text = some form ∧ m = ofLiteral policy form n.text
  integer : n.isInteger = true → m = n
  exact : policy = .exact → n.isFractional = true → m = bigDecimal n.text
  float : policy = .float → n.isFractional = true → ∃ x, Binary.ofLiteral? .double n.text = some x ∧
    m = if x.isFinite then float x (some n.text) else bigDecimal n.text

theorem Built.readAs {n : Number} (h : n.Built) (policy : FractionPolicy) :
    n.ReadAs policy (n.reread policy) where
  literal := by
    obtain ⟨form, ht, hr⟩ := h.rereads
    exact ⟨form, NumberForm.ofText?_eq_some_iff.mpr ht, (hr policy).symm⟩
  integer hn := reread_of_isInteger hn policy
  exact := by
    rintro rfl hn
    rw [reread_of_fractional hn]
    rfl
  float := by
    rintro rfl hn
    exact h.reread_float hn

end Number
end ExactJson
