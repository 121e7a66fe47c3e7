import ExactJson.Number.Shortest

/-! Single binary numbers among the doubles. A finite one stays finite, since the doubles reach far
beyond all singles, and one that is not finite keeps its text. -/
namespace ExactJson

-- Powers of whole numbers are those of the core library, whatever else is imported.
attribute [local instance (high)] instPowNat Int.instNatPow

theorem roundToEven_le (num den : Nat) : roundToEven num den ≤ num / den + 1 := by
  simp only [roundToEven]
  split
  · omega
  · split <;> omega

theorem le_floorLog2 (num den : Nat) : (num.log2 : Int) - den.log2 - 1 ≤ floorLog2 num den := by
  simp only [floorLog2]
  split <;> omega

theorem floorLog2_le (num den : Nat) : floorLog2 num den ≤ (num.log2 : Int) - den.log2 := by
  simp only [floorLog2]
  split <;> omega

namespace BinaryFormat
variable {f : BinaryFormat} {num den : Nat}

/-- The significand of a quotient is at most one bit too long before it is rounded. -/
theorem scaled_lt (hden : den ≠ 0) {q : Int}
    (hq : floorLog2 num den - f.fractionBits ≤ q) :
    num * 2 ^ (-q).toNat / (den * 2 ^ q.toNat) < 2 ^ (f.fractionBits + 2) := by
  have hlog := le_floorLog2 num den
  have hexp : num.log2 + 1 + (-q).toNat ≤ f.fractionBits + 2 + (den.log2 + q.toNat) := by omega
  rw [Nat.div_lt_iff_lt_mul (Nat.mul_pos (Nat.pos_of_ne_zero hden) (Nat.two_pow_pos _))]
  calc
    num * 2 ^ (-q).toNat < 2 ^ (num.log2 + 1) * 2 ^ (-q).toNat :=
      Nat.mul_lt_mul_of_pos_right Nat.lt_log2_self (Nat.two_pow_pos _)
    _ = 2 ^ (num.log2 + 1 + (-q).toNat) := (Nat.pow_add 2 _ _).symm
    _ ≤ 2 ^ (f.fractionBits + 2 + (den.log2 + q.toNat)) := Nat.pow_le_pow_right (by decide) hexp
    _ = 2 ^ (f.fractionBits + 2) * (2 ^ den.log2 * 2 ^ q.toNat) := by
      rw [Nat.pow_add, Nat.pow_add 2 den.log2]
    _ ≤ 2 ^ (f.fractionBits + 2) * (den * 2 ^ q.toNat) :=
      Nat.mul_le_mul_left _ (Nat.mul_le_mul_right _ (Nat.log2_self_le hden))

/-- What is well below the greatest number of a format is not rounded to infinity. -/
theorem nearest_lt_infinity (hden : den ≠ 0)
    (h : num.log2 + 2 ^ (f.exponentBits - 1) + 3 < 2 ^ f.exponentBits) :
    f.nearest num den < f.infinity := by
  have hhalf : 2 ^ f.exponentBits = 2 * 2 ^ (f.exponentBits - 1) := by
    cases hb : f.exponentBits with
    | zero => simp [hb] at h
    | succ b => rw [Nat.pow_succ, Nat.mul_comm, Nat.add_sub_cancel]
  have hunit := Nat.two_pow_pos f.fractionBits
  rw [nearest]
  by_cases hnum : num = 0
  · rw [if_pos hnum]
    exact Nat.mul_pos (by omega) hunit
  · rw [if_neg hnum]
    have hq : floorLog2 num den - f.fractionBits ≤
        max (floorLog2 num den - f.fractionBits) f.leastExponent := Int.le_max_left _ _
    have hbinade : (max (floorLog2 num den - f.fractionBits) f.leastExponent -
        f.leastExponent).toNat + 4 < 2 ^ f.exponentBits - 1 := by
      have hlog := floorLog2_le num den
      have hcast : ((2 ^ (f.exponentBits - 1) : Nat) : Int) = 2 ^ (f.exponentBits - 1) :=
        Int.natCast_pow 2 _
      simp only [leastExponent, ← hcast]
      omega
    generalize max (floorLog2 num den - f.fractionBits) f.leastExponent = q at hq hbinade
    have hround := roundToEven_le (num * 2 ^ (-q).toNat) (den * 2 ^ q.toNat)
    have hscaled := scaled_lt (f := f) hden hq
    have hfour : 2 ^ (f.fractionBits + 2) = 4 * 2 ^ f.fractionBits := by
      rw [Nat.pow_add, Nat.mul_comm]
    refine Nat.lt_of_le_of_lt (Nat.min_le_right _ _) ?_
    calc
      (q - f.leastExponent).toNat * 2 ^ f.fractionBits +
            roundToEven (num * 2 ^ (-q).toNat) (den * 2 ^ q.toNat)
          ≤ (q - f.leastExponent).toNat * 2 ^ f.fractionBits + 4 * 2 ^ f.fractionBits := by omega
      _ = ((q - f.leastExponent).toNat + 4) * 2 ^ f.fractionBits := (Nat.add_mul _ _ _).symm
      _ < f.infinity := Nat.mul_lt_mul_of_pos_right hbinade hunit

theorem infinity_lt_signUnit (f : BinaryFormat) : f.infinity < f.signUnit := by
  have hone := Nat.two_pow_pos f.exponentBits
  rw [infinity, signUnit, Nat.pow_add]
  exact Nat.mul_lt_mul_of_pos_right (by omega) (Nat.two_pow_pos _)

end BinaryFormat

namespace Binary
variable {f g : BinaryFormat} {m : Nat}

theorem toNat_ofMagnitude (h : m < f.signUnit) (negative : Bool) :
    (ofMagnitude (f := f) negative m).bits.toNat = if negative then f.signUnit + m else m := by
  have hwidth : 2 ^ (1 + f.exponentBits + f.fractionBits) = 2 * f.signUnit := by
    rw [BinaryFormat.signUnit, Nat.add_assoc, Nat.pow_add]
  rw [ofMagnitude, BitVec.toNat_ofNat, hwidth]
  apply Nat.mod_eq_of_lt
  split <;> omega

theorem magnitude_ofMagnitude (h : m < f.signUnit) (negative : Bool) :
    (ofMagnitude (f := f) negative m).magnitude = m := by
  rw [magnitude, toNat_ofMagnitude h]
  cases negative with
  | false => exact Nat.mod_eq_of_lt h
  | true => exact (Nat.add_mod_left _ _).trans (Nat.mod_eq_of_lt h)

theorem negative_ofMagnitude (h : m < f.signUnit) (negative : Bool) :
    (ofMagnitude (f := f) negative m).negative = negative := by
  rw [Binary.negative, toNat_ofMagnitude h]
  cases negative with
  | false => exact decide_eq_false (Nat.not_le.mpr h)
  | true => exact decide_eq_true (Nat.le_add_right _ _)

theorem negative_convert (x : Binary f) (hg : g.quiet < g.signUnit) :
    (x.convert : Binary g).negative = x.negative := by
  apply negative_ofMagnitude
  split
  · have hle : g.nearest (x.significand * 2 ^ x.exponent.toNat) (2 ^ (-x.exponent).toNat) ≤
        g.infinity := by
      rw [BinaryFormat.nearest]
      split
      · exact Nat.zero_le _
      · exact Nat.min_le_left _ _
    exact Nat.lt_of_le_of_lt hle g.infinity_lt_signUnit
  · split
    · exact hg
    · exact g.infinity_lt_signUnit

theorem magnitude_convert_of_not_finite {x : Binary f} (h : x.isFinite = false)
    (hg : g.quiet < g.signUnit) :
    (x.convert : Binary g).magnitude = if x.isNaN then g.quiet else g.infinity := by
  rw [convert, h, if_neg Bool.false_ne_true]
  apply magnitude_ofMagnitude
  split
  · exact hg
  · exact g.infinity_lt_signUnit

theorem significand_lt (x : Binary f) : x.significand < 2 ^ (f.fractionBits + 1) := by
  have hmod := Nat.mod_lt x.magnitude (Nat.two_pow_pos f.fractionBits)
  rw [Nat.pow_succ]
  simp only [significand]
  split <;> omega

theorem scaled_significand_lt {x : Binary32} (h : x.isFinite = true) :
    x.significand * 2 ^ x.exponent.toNat < 2 ^ (128 : Nat) := by
  have hsig : x.significand < 2 ^ (24 : Nat) := x.significand_lt
  have hexp : x.exponent.toNat ≤ 104 := by
    have hfinite : x.magnitude < 255 * 2 ^ (23 : Nat) := of_decide_eq_true h
    have hbinade : x.magnitude / 2 ^ (23 : Nat) < 255 := Nat.div_lt_of_lt_mul (by omega)
    have hx : x.exponent = -149 + (x.magnitude / 2 ^ (23 : Nat) - 1 : Nat) := rfl
    omega
  calc
    x.significand * 2 ^ x.exponent.toNat < 2 ^ (24 : Nat) * 2 ^ x.exponent.toNat :=
      Nat.mul_lt_mul_of_pos_right hsig (Nat.two_pow_pos _)
    _ ≤ 2 ^ (24 : Nat) * 2 ^ (104 : Nat) :=
      Nat.mul_le_mul_left _ (Nat.pow_le_pow_right (by decide) hexp)
    _ = 2 ^ (128 : Nat) := rfl

/-- The nearest double of a single is finite just if the single is. -/
@[simp] theorem isFinite_widen (x : Binary32) : (x.convert : Binary64).isFinite = x.isFinite := by
  cases h : x.isFinite with
  | true =>
    have hlog : (x.significand * 2 ^ x.exponent.toNat).log2 < 128 := by
      by_cases hzero : x.significand * 2 ^ x.exponent.toNat = 0
      · rw [hzero]
        decide
      · exact (Nat.log2_lt hzero).mpr (scaled_significand_lt h)
    have hlt : BinaryFormat.double.nearest (x.significand * 2 ^ x.exponent.toNat)
        (2 ^ (-x.exponent).toNat) < BinaryFormat.double.infinity := by
      apply BinaryFormat.nearest_lt_infinity (Nat.ne_of_gt (Nat.two_pow_pos _))
      simp only [BinaryFormat.double]
      omega
    rw [isFinite, convert, h, if_pos rfl,
      magnitude_ofMagnitude (Nat.lt_trans hlt (BinaryFormat.infinity_lt_signUnit _))]
    exact decide_eq_true hlt
  | false =>
    rw [isFinite, magnitude_convert_of_not_finite h (by decide)]
    cases x.isNaN <;> decide

theorem text_widen {x : Binary32} (h : x.isFinite = false) (n : FloatNotation) :
    n.text (x.convert : Binary64) = n.text x := by
  have hnan : (x.convert : Binary64).isNaN = x.isNaN := by
    rw [isNaN, magnitude_convert_of_not_finite h (by decide)]
    cases x.isNaN <;> decide
  rw [FloatNotation.text, FloatNotation.text, isFinite_widen, h, hnan,
    negative_convert x (by decide), if_neg Bool.false_ne_true, if_neg Bool.false_ne_true]

end Binary
end ExactJson
