import ExactJson.Number.Shortest
import ExactJson.Proofs.Number.Integer

/-! The text of a finite binary number is a number literal that has a fraction or an exponent. -/
namespace ExactJson
open Grammar Text

namespace Binary
variable {f : BinaryFormat} (x : Binary f)

theorem significand_pos (h : x.magnitude ≠ 0) : 0 < x.significand := by
  simp only [significand]
  split
  · omega
  · exact Nat.add_pos_left (Nat.pow_pos (by decide)) _

/-- Zero is too far below a positive number to round to it. -/
theorem roundsHere_zero (h : 0 < x.significand) {u b : Nat} (hu : 0 < u) :
    x.roundsHere (4 * x.significand * u) u b 0 = false := by
  have hle : 4 * u ≤ 4 * x.significand * u := Nat.mul_le_mul_right u (by omega)
  have hlow : 0 < 4 * x.significand * u - (if x.narrowBelow then u else 2 * u) := by
    split <;> omega
  simp only [roundsHere, Nat.zero_mul]
  split
  · simp
    omega
  · simp

theorem onGrid?_pos (h : 0 < x.significand) {e : Int} {c : Nat} (hc : x.onGrid? e = some c) :
    0 < c := by
  simp only [onGrid?] at hc
  split at hc
  · cases hc
    exact Nat.succ_pos _
  · split at hc
    · rename_i hb
      cases hc
      apply Nat.pos_of_ne_zero
      intro h₀
      have hscale : 0 < 2 ^ x.exponent.toNat * 10 ^ (-e).toNat :=
        Nat.mul_pos (Nat.pow_pos (by decide)) (Nat.pow_pos (by decide))
      rw [h₀, x.roundsHere_zero h hscale] at hb
      cases hb
    · cases hc

/-- The last grid is fine enough to hold the number itself. -/
theorem firstGrid_pos (h : 0 < x.significand) (n : Nat) (e : Int)
    (he : e - n = -((-x.exponent).toNat : Int)) : 0 < (x.firstGrid n e).digits := by
  induction n generalizing e with
  | zero =>
    have he₀ : e.toNat = 0 := by omega
    have hk : (-e).toNat = (-x.exponent).toNat := by omega
    simp only [firstGrid, he₀, hk, Nat.pow_zero, Nat.mul_one]
    refine Nat.div_pos ?_ (Nat.pow_pos (by decide))
    calc
      2 ^ (-x.exponent).toNat ≤ 10 ^ (-x.exponent).toNat := Nat.pow_le_pow_left (by decide) _
      _ ≤ x.significand * 2 ^ x.exponent.toNat * 10 ^ (-x.exponent).toNat :=
        Nat.le_mul_of_pos_left _ (Nat.mul_pos h (Nat.pow_pos (by decide)))
  | succ n ih =>
    simp only [firstGrid]
    split
    · rename_i c hc
      exact x.onGrid?_pos h hc
    · exact ih (e - 1) (by omega)

theorem shortest_pos (h : x.magnitude ≠ 0) : 0 < x.shortest.digits :=
  x.firstGrid_pos (x.significand_pos h) _ _ (by omega)

end Binary

def Unsigned (form : NumberForm) (bs : Bytes) : Prop := ∀ s, Sign s → NumberText form (s ++ bs)

theorem Unsigned.integer {w : Bytes} (hw : Whole w) : Unsigned .integer w :=
  fun _ hs => .integer hs hw

theorem Unsigned.fraction {w ds : Bytes} (hw : Unsigned .integer w) (hds : Grammar.DigitText ds) :
    Unsigned .fraction (w ++ Ascii.dot :: ds) := fun s hs => by
  rw [← List.append_assoc]
  exact .fraction (hw s hs) hds

theorem Unsigned.exponent {form : NumberForm} {m s ds : Bytes} (hm : Unsigned form m)
    (hf : form ≠ .exponent) (hs : Sign s) (hds : Grammar.DigitText ds) :
    Unsigned .exponent (m ++ Ascii.lowerE :: (s ++ ds)) := fun t ht => by
  rw [← List.append_assoc]
  refine .exponent (hm t ht) hf (.inl rfl) (hs.imp_right .inr) hds

namespace Digits

def IsDecimal (cs : List Char) : Prop := ∀ c ∈ cs, ∃ d, Ascii.isDigit d = true ∧
  String.utf8EncodeChar c = [d]

theorem utf8_isDigit {cs : List Char} (h : IsDecimal cs) :
    ∀ b ∈ utf8 (String.ofList cs), Ascii.isDigit b = true := by
  intro b hb
  rw [utf8_ofList, List.mem_flatMap] at hb
  obtain ⟨c, hc, hb⟩ := hb
  obtain ⟨d, hd, he⟩ := h c hc
  rw [he, List.mem_singleton] at hb
  exact hb ▸ hd

theorem utf8_ne_nil {cs : List Char} (h : cs ≠ []) : utf8 (String.ofList cs) ≠ [] := by
  cases cs with
  | nil => exact absurd rfl h
  | cons c cs =>
    rw [utf8_ofList, List.flatMap_cons]
    exact fun hn => encode_ne_nil c (List.append_eq_nil_iff.mp hn).1

theorem digits_utf8 {cs : List Char} (h : IsDecimal cs) (hne : cs ≠ []) :
    Grammar.DigitText (utf8 (String.ofList cs)) := ⟨utf8_ne_nil hne, utf8_isDigit h⟩

theorem isDecimal_zeros (n : Nat) : IsDecimal (List.replicate n '0') := by
  intro c hc
  rw [List.eq_of_mem_replicate hc]
  exact ⟨Ascii.zero, rfl, rfl⟩

theorem IsDecimal.append {cs ds : List Char} (hc : IsDecimal cs) (hd : IsDecimal ds) :
    IsDecimal (cs ++ ds) := fun c h => (List.mem_append.mp h).elim (hc c) (hd c)

theorem exists_repr {n : Nat} (hn : 0 < n) : ∃ c cs d, n.repr.toList = c :: cs ∧
    IsDecimal cs ∧ String.utf8EncodeChar c = [d] ∧ Ascii.isDigit d = true ∧ d ≠ Ascii.zero := by
  have hall : IsDecimal n.repr.toList := by
    intro c hc
    rw [Nat.toList_repr] at hc
    have hcd : c.isDigit = true := Nat.isDigit_of_mem_toDigits (by decide) (by decide) hc
    simp only [Char.isDigit, Bool.and_eq_true, decide_eq_true_eq, UInt32.le_iff_toNat_le] at hcd
    have hlow : 48 ≤ c.toNat := hcd.1
    have hhigh : c.toNat ≤ 57 := hcd.2
    refine ⟨UInt8.ofNat c.toNat, ?_, encode_ascii (by omega)⟩
    have hb : (UInt8.ofNat c.toNat).toNat = c.toNat :=
      UInt8.toNat_ofNat_of_lt' (show _ < 256 by omega)
    simp only [Ascii.isDigit, Bool.and_eq_true, decide_eq_true_eq, UInt8.le_iff_toNat_le, hb]
    exact ⟨hlow, hhigh⟩
  obtain ⟨d, ds, hu, hd, h₀, -, -⟩ := Integer.digits_repr hn
  cases hcs : n.repr.toList with
  | nil => simp at hcs
  | cons c cs =>
    rw [hcs] at hall
    obtain ⟨e, -, he⟩ := hall c List.mem_cons_self
    rw [utf8_eq_flatMap, hcs, List.flatMap_cons, he, List.singleton_append] at hu
    obtain ⟨rfl, -⟩ := List.cons.inj hu
    exact ⟨c, cs, e, rfl, fun a ha => hall a (List.mem_cons_of_mem c ha), he, hd, h₀⟩

theorem whole_utf8 {c : Char} {cs : List Char} {d : UInt8} (he : String.utf8EncodeChar c = [d])
    (hd : Ascii.isDigit d = true) (h₀ : d ≠ Ascii.zero) (hcs : IsDecimal cs) :
    Whole (utf8 (String.ofList (c :: cs))) := by
  rw [utf8_ofList, List.flatMap_cons, he, ← utf8_ofList]
  exact .digits hd h₀ (utf8_isDigit hcs)

theorem utf8_dot (s : String) : utf8 ("." ++ s) = Ascii.dot :: utf8 s := by
  rw [utf8_append]
  rfl

theorem utf8_exponent (s : String) : utf8 ("e" ++ s) = Ascii.lowerE :: utf8 s := by
  rw [utf8_append]
  rfl

theorem unsigned_positional (d : Digits) (h : 0 < d.digits) :
    Unsigned .fraction (utf8 (d.positional ".0")) := by
  obtain ⟨c, cs, b, hcs, hdec, he, hb, h₀⟩ := exists_repr h
  simp only [positional, hcs]
  split
  · rw [utf8_append, zeros, ← String.ofList_append, List.cons_append, show ".0" = "." ++ "0" from rfl,
      utf8_dot]
    exact .fraction (.integer (whole_utf8 he hb h₀ (hdec.append (isDecimal_zeros _))))
      (.singleton rfl)
  · split
    · rename_i hneg hlt
      obtain ⟨k, hk⟩ : ∃ k, (c :: cs).length - (-d.exponent).toNat = k + 1 :=
        ⟨(c :: cs).length - (-d.exponent).toNat - 1, by omega⟩
      rw [hk, String.append_assoc, utf8_append, utf8_dot, List.take_succ_cons, List.drop_succ_cons]
      refine .fraction (.integer (whole_utf8 he hb h₀ fun a ha => hdec a (List.mem_of_mem_take ha)))
        (digits_utf8 (fun a ha => hdec a (List.mem_of_mem_drop ha)) ?_)
      apply List.ne_nil_of_length_pos
      simp only [List.length_drop, List.length_cons] at hk hlt ⊢
      omega
    · rw [zeros, String.append_assoc, ← String.ofList_append, show "0." = "0" ++ "." from rfl,
        String.append_assoc, utf8_append, utf8_dot]
      have hall : IsDecimal (c :: cs) := by
        intro a ha
        obtain rfl | ha := List.mem_cons.mp ha
        · exact ⟨b, hb, he⟩
        · exact hdec a ha
      exact .fraction (.integer .zero) (digits_utf8 ((isDecimal_zeros _).append hall) (by simp))

theorem unsigned_scientific (d : Digits) (h : 0 < d.digits) :
    Unsigned .exponent (utf8 d.scientific) := by
  obtain ⟨c, cs, b, hcs, hdec, he, hb, h₀⟩ := exists_repr h
  obtain ⟨negative, w, hw, hlead⟩ := Integer.exists_literal (Integer.numberText_text d.lead)
  have hsign : Sign (Integer.signBytes negative) := by
    cases negative
    · exact .inl rfl
    · exact .inr rfl
  have hds : Grammar.DigitText w := ⟨Integer.whole_ne_nil hw, Integer.whole_isDigit hw⟩
  have hone : Unsigned .integer (utf8 (String.ofList [c])) :=
    .integer (whole_utf8 he hb h₀ (by simp [IsDecimal]))
  simp only [scientific, hcs, List.tail_cons, List.take_succ_cons, List.take_zero]
  rw [String.append_assoc, utf8_append, utf8_exponent, hlead]
  split
  · rw [String.append_empty]
    exact hone.exponent (by decide) hsign hds
  · rename_i hne
    rw [utf8_append, utf8_dot]
    exact (hone.fraction (digits_utf8 hdec hne)).exponent (by decide) hsign hds

end Digits

namespace FloatNotation
variable {f : BinaryFormat}

theorem unsigned_literal (x : Binary f) :
    ∃ form, form ≠ .integer ∧ Unsigned form (utf8 (literal.unsigned x)) := by
  simp only [unsigned]
  split
  · exact ⟨.fraction, by decide, .fraction (w := [Ascii.zero]) (.integer .zero) (.singleton rfl)⟩
  · rename_i h
    split
    · exact ⟨.fraction, by decide, Digits.unsigned_positional _ (x.shortest_pos h)⟩
    · exact ⟨.exponent, by decide, Digits.unsigned_scientific _ (x.shortest_pos h)⟩

theorem text_literal {x : Binary f} (h : x.isFinite = true) :
    ∃ form, form ≠ .integer ∧ NumberText form (utf8 (literal.text x)) := by
  obtain ⟨form, hf, hu⟩ := unsigned_literal x
  refine ⟨form, hf, ?_⟩
  have hnan : x.isNaN = false := by
    simp only [Binary.isFinite, Binary.isNaN, decide_eq_true_eq, decide_eq_false_iff_not] at h ⊢
    omega
  simp only [text, hnan, h, if_true, Bool.false_eq_true, if_false, utf8_append]
  apply hu _
  cases x.negative
  · exact .inl rfl
  · exact .inr rfl

end FloatNotation
end ExactJson
