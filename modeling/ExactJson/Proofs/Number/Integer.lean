import ExactJson.Number.Integer
import ExactJson.Proofs.Number.Grammar

/-! Decimal digits and integers: an integer has one text without leading zeros, and the checked
reading of such a text gives the integer back or finds that it is too wide. -/
namespace ExactJson
open Grammar

namespace Ascii

theorem digit_lt {d : UInt8} (h : isDigit d = true) : digit d < 10 := by
  simp only [isDigit, Bool.and_eq_true, decide_eq_true_eq, UInt8.le_iff_toNat_le] at h
  have h9 : nine.toNat = 57 := rfl
  rw [digit]
  omega

theorem encode_digitChar {d : UInt8} (h : isDigit d = true) :
    String.utf8EncodeChar (digit d).digitChar = [d] := by
  have hlt := digit_lt h
  simp only [isDigit, Bool.and_eq_true, decide_eq_true_eq, UInt8.le_iff_toNat_le] at h
  have h0 : zero.toNat = 48 := rfl
  have hc := Nat.toNat_digitChar_of_lt_ten hlt
  rw [Text.encode_ascii (by omega), hc]
  rw [show 48 + digit d = d.toNat by rw [digit]; omega, UInt8.ofNat_toNat]

theorem exists_digit {n : Nat} (h : n < 10) : ∃ d, isDigit d = true ∧ digit d = n := by
  refine ⟨UInt8.ofNat (48 + n), ?_, ?_⟩
  · simp only [isDigit, Bool.and_eq_true, decide_eq_true_eq, UInt8.le_iff_toNat_le]
    have hn : (UInt8.ofNat (48 + n)).toNat = 48 + n := UInt8.toNat_ofNat_of_lt' (show _ < 256 by omega)
    have h0 : zero.toNat = 48 := rfl
    have h9 : nine.toNat = 57 := rfl
    omega
  · rw [digit, UInt8.toNat_ofNat_of_lt' (show _ < 256 by omega)]
    omega

theorem digit_pos {d : UInt8} (h : isDigit d = true) (h₀ : d ≠ zero) : 0 < digit d := by
  simp only [isDigit, Bool.and_eq_true, decide_eq_true_eq, UInt8.le_iff_toNat_le] at h
  have hz : zero.toNat = 48 := rfl
  have hne : d.toNat ≠ zero.toNat := fun e => h₀ (UInt8.toNat_inj.mp e)
  rw [digit]
  omega

end Ascii

namespace Integer
open Text

theorem utf8_repr_digit {d : UInt8} (h : Ascii.isDigit d = true) :
    utf8 (Ascii.digit d).repr = [d] := by
  rw [utf8_eq_flatMap, Nat.toList_repr, Nat.toDigits_of_lt_base (Ascii.digit_lt h)]
  simpa using Ascii.encode_digitChar h

theorem utf8_repr_append_digit {n : Nat} (hn : 0 < n) {d : UInt8} (h : Ascii.isDigit d = true) :
    utf8 (10 * n + Ascii.digit d).repr = utf8 n.repr ++ [d] := by
  have hd := Ascii.digit_lt h
  rw [utf8_eq_flatMap, Nat.toList_repr, ← Nat.toDigits_append_toDigits (by decide) hn hd,
    List.flatMap_append, ← Nat.toList_repr, ← Nat.toList_repr, ← utf8_eq_flatMap,
    ← utf8_eq_flatMap, utf8_repr_digit h]

@[simp] theorem horner_singleton (n : Nat) (d : UInt8) : horner n [d] = 10 * n + Ascii.digit d := by
  simp only [horner, List.foldl_cons, List.foldl_nil]

theorem horner_cons (n : Nat) (d : UInt8) (ds : Bytes) :
    horner n (d :: ds) = horner (10 * n + Ascii.digit d) ds := by
  simp only [horner, List.foldl_cons]

theorem utf8_repr_horner {n : Nat} (hn : 0 < n) {ds : Bytes}
    (hds : ∀ b ∈ ds, Ascii.isDigit b = true) : utf8 (horner n ds).repr = utf8 n.repr ++ ds := by
  induction ds generalizing n with
  | nil => simp [horner]
  | cons d ds ih =>
    have hd := hds d List.mem_cons_self
    have hpos : 0 < 10 * n + Ascii.digit d := by omega
    rw [horner_cons, ih hpos fun b hb => hds b (List.mem_cons_of_mem d hb),
      utf8_repr_append_digit hn hd, List.append_assoc, List.singleton_append]

/-- The digits of a whole part are the text of its value. -/
theorem utf8_repr_of_whole {w : Bytes} (hw : Whole w) : utf8 (horner 0 w).repr = w := by
  cases hw with
  | zero => rfl
  | @digits d ds hd h₀ hds =>
    rw [horner_cons, Nat.mul_zero, Nat.zero_add,
      utf8_repr_horner (Ascii.digit_pos hd h₀) hds, utf8_repr_digit hd]
    rfl

theorem digits_repr {n : Nat} (hn : 0 < n) : ∃ d ds, utf8 n.repr = d :: ds ∧
    Ascii.isDigit d = true ∧ d ≠ Ascii.zero ∧ (∀ b ∈ ds, Ascii.isDigit b = true) ∧
    horner 0 (d :: ds) = n := by
  induction n using Nat.strongRecOn with
  | ind n ih =>
    obtain ⟨e, he, hen⟩ := Ascii.exists_digit (Nat.mod_lt n (by decide : 0 < 10))
    by_cases hlt : n < 10
    · rw [Nat.mod_eq_of_lt hlt] at hen
      refine ⟨e, [], hen ▸ utf8_repr_digit he, he, ?_, by simp, by simpa [horner] using hen⟩
      rintro rfl
      have h0 : Ascii.digit Ascii.zero = 0 := rfl
      omega
    · have hdiv : 0 < n / 10 := by omega
      obtain ⟨d, ds, hu, hd, h₀, hds, hh⟩ := ih (n / 10) (by omega) hdiv
      have hn10 : n = 10 * (n / 10) + Ascii.digit e := by omega
      refine ⟨d, ds ++ [e], ?_, hd, h₀, ?_, ?_⟩
      · rw [hn10, utf8_repr_append_digit hdiv he, hu]
        rfl
      · intro b hb
        obtain hb | hb := List.mem_append.mp hb
        · exact hds b hb
        · exact List.mem_singleton.mp hb ▸ he
      · rw [← List.cons_append, horner_append, hh]
        simp only [List.length_singleton, Nat.pow_one, horner_singleton]
        omega

theorem whole_repr (n : Nat) : Whole (utf8 n.repr) := by
  obtain rfl | hn := Nat.eq_zero_or_pos n
  · exact .zero
  · obtain ⟨d, ds, hu, hd, h₀, hds, -⟩ := digits_repr hn
    rw [hu]
    exact .digits hd h₀ hds

@[simp] theorem horner_repr (n : Nat) : horner 0 (utf8 n.repr) = n := by
  obtain rfl | hn := Nat.eq_zero_or_pos n
  · rfl
  · obtain ⟨d, ds, hu, -, -, -, hh⟩ := digits_repr hn
    rw [hu, hh]

def signed (negative : Bool) (n : Nat) : Int := if negative then -(n : Int) else n

def signBytes (negative : Bool) : Bytes := if negative then [Ascii.minus] else []

theorem exists_signed (z : Int) : ∃ negative n, z = signed negative n ∧ (negative = true → n ≠ 0) := by
  by_cases h : z < 0
  · exact ⟨true, z.natAbs, by simp only [signed, if_true]; omega, fun _ => by omega⟩
  · exact ⟨false, z.natAbs, by simp only [signed, Bool.false_eq_true, if_false]; omega, by simp⟩

theorem signed_cons (negative : Bool) (n : Nat) (d : UInt8) :
    (if negative then 10 * signed negative n - Ascii.digit d
      else 10 * signed negative n + Ascii.digit d) =
      signed negative (10 * n + Ascii.digit d) := by
  cases negative with
  | false => simp [signed]
  | true =>
    simp [signed]
    omega

theorem le_horner (n : Nat) (ds : Bytes) : n ≤ horner n ds := by
  rw [horner_eq]
  exact Nat.le_add_right_of_le (Nat.le_mul_of_pos_right n (Nat.pow_pos (by decide)))

theorem fitsInt64_of_le {negative : Bool} {m n : Nat} (hle : m ≤ n)
    (h : fitsInt64 (signed negative n) = true) : fitsInt64 (signed negative m) = true := by
  simp only [fitsInt64, Bool.and_eq_true, decide_eq_true_eq] at h ⊢
  cases negative <;> simp only [signed, if_true, if_false, Bool.false_eq_true] at h ⊢ <;> omega

def checked (z : Int) : Except Fault Int64 :=
  if fitsInt64 z then .ok (Int64.ofInt z) else .error .overflow

theorem goOnInt64_append (negative : Bool) {n : Nat} {ds : Bytes} (rest : Bytes)
    (hn : fitsInt64 (signed negative n) = true) (hds : ∀ b ∈ ds, Ascii.isDigit b = true) :
    goOnInt64 negative (signed negative n) (ds ++ rest) =
      if fitsInt64 (signed negative (horner n ds)) = true then
        goOnInt64 negative (signed negative (horner n ds)) rest
      else .error .overflow := by
  induction ds generalizing n with
  | nil => simp only [horner, List.foldl_nil, List.nil_append, hn, if_true]
  | cons d ds ih =>
    have hd := hds d List.mem_cons_self
    have ht (b : UInt8) (hb : b ∈ ds) := hds b (List.mem_cons_of_mem d hb)
    simp only [List.cons_append, goOnInt64, hd, if_true, signed_cons]
    by_cases hf : fitsInt64 (signed negative (10 * n + Ascii.digit d)) = true
    · rw [if_pos hf]
      exact ih hf ht
    · rw [if_neg hf, horner_cons, if_neg fun h => hf (fitsInt64_of_le (le_horner _ ds) h)]

theorem goOnInt64_digits (negative : Bool) {n : Nat} {ds : Bytes}
    (hn : fitsInt64 (signed negative n) = true) (hds : ∀ b ∈ ds, Ascii.isDigit b = true) :
    goOnInt64 negative (signed negative n) ds = checked (signed negative (horner n ds)) := by
  have h := goOnInt64_append negative [] hn hds
  rwa [List.append_nil] at h

theorem whole_isDigit {w : Bytes} (hw : Whole w) : ∀ b ∈ w, Ascii.isDigit b = true := by
  intro b hb
  cases hw with
  | zero => exact List.mem_singleton.mp hb ▸ rfl
  | digits hd h₀ hds => exact (List.mem_cons.mp hb).elim (fun e => e ▸ hd) (hds b)

theorem whole_ne_nil {w : Bytes} (hw : Whole w) : w ≠ [] := by
  cases hw <;> exact List.cons_ne_nil _ _

theorem readInt64_signBytes {negative : Bool} {bs : Bytes} (hne : bs ≠ [])
    (hs : negative = false → bs.head? ≠ some Ascii.minus) :
    readInt64 (signBytes negative ++ bs) = goOnInt64 negative 0 bs := by
  cases negative with
  | true => simp only [signBytes, if_true, List.singleton_append, readInt64, if_neg hne]
  | false =>
    cases bs with
    | nil => exact absurd rfl hne
    | cons d ds =>
      have hm : d ≠ Ascii.minus := fun h => hs rfl (congrArg some h)
      simp only [signBytes, Bool.false_eq_true, if_false, List.nil_append, readInt64, if_neg hm]

@[simp] theorem signed_zero (negative : Bool) : signed negative 0 = 0 := by
  cases negative <;> rfl

theorem readInt64_literal (negative : Bool) {w : Bytes} (hw : Whole w) :
    readInt64 (signBytes negative ++ w) = checked (signed negative (horner 0 w)) := by
  have hds := whole_isDigit hw
  have hs : negative = false → w.head? ≠ some Ascii.minus := fun _ h =>
    LiteralState.isDigit_ne (hds _ (List.mem_of_mem_head? h)) rfl rfl
  have h₀ : fitsInt64 (signed negative 0) = true := signed_zero negative ▸ rfl
  rw [readInt64_signBytes (whole_ne_nil hw) hs, ← signed_zero negative]
  exact goOnInt64_digits negative h₀ hds

theorem utf8_text (negative : Bool) {n : Nat} (h : negative = true → n ≠ 0) :
    utf8 (text (signed negative n)) = signBytes negative ++ utf8 n.repr := by
  cases negative with
  | false => rfl
  | true =>
    cases n with
    | zero => exact absurd rfl (h rfl)
    | succ n =>
      rw [show signed true (n + 1) = Int.negSucc n from rfl, text, utf8_append]
      rfl

theorem numberText_text (z : Int) : NumberText .integer (utf8 (text z)) := by
  obtain ⟨negative, n, rfl, hn⟩ := exists_signed z
  rw [utf8_text negative hn]
  refine .integer ?_ (whole_repr n)
  cases negative
  · exact .inl rfl
  · exact .inr rfl

theorem readInt64_text (z : Int) : readInt64 (utf8 (text z)) = checked z := by
  obtain ⟨negative, n, rfl, hn⟩ := exists_signed z
  rw [utf8_text negative hn, readInt64_literal negative (whole_repr n), horner_repr]

theorem text_ne_minus_zero (z : Int) : text z ≠ "-0" := by
  obtain ⟨negative, n, rfl, hn⟩ := exists_signed z
  intro h
  have hu := utf8_text negative hn
  rw [h] at hu
  cases negative with
  | false =>
    have hd := whole_isDigit (whole_repr n) Ascii.minus
    rw [← show utf8 "-0" = utf8 n.repr from hu] at hd
    exact absurd (hd (by decide)) (by decide)
  | true =>
    have h0 : utf8 n.repr = [Ascii.zero] := (List.cons.inj hu).2.symm
    have hv := horner_repr n
    rw [h0] at hv
    exact hn rfl hv.symm

theorem exists_literal {bs : Bytes} (h : NumberText .integer bs) :
    ∃ negative w, Whole w ∧ bs = signBytes negative ++ w := by
  cases h with
  | integer hs hw =>
    obtain rfl | rfl := hs
    · exact ⟨false, _, hw, rfl⟩
    · exact ⟨true, _, hw, rfl⟩

theorem toInt_ofInt {z : Int} (h : fitsInt64 z = true) : (Int64.ofInt z).toInt = z := by
  simp only [fitsInt64, Bool.and_eq_true, decide_eq_true_eq] at h
  exact Int64.toInt_ofInt_of_le h.1 h.2

/-- The integer that an integer literal denotes. Both zeros denote the same one. -/
def denoted (t : String) : Int :=
  match utf8 t with
  | [] => 0
  | d :: ds => if d = Ascii.minus then -(ofDigits ds : Int) else ofDigits (d :: ds)

theorem denoted_of_literal {t : String} {negative : Bool} {w : Bytes} (hw : Whole w)
    (h : utf8 t = signBytes negative ++ w) : denoted t = signed negative (horner 0 w) := by
  rw [denoted, h]
  cases negative with
  | true => simp only [signBytes, signed, if_true, List.singleton_append, ofDigits_eq]
  | false =>
    cases w with
    | nil => exact absurd rfl (whole_ne_nil hw)
    | cons d ds =>
      have hm : d ≠ Ascii.minus :=
        LiteralState.isDigit_ne (whole_isDigit hw d List.mem_cons_self) rfl
      simp only [signBytes, signed, Bool.false_eq_true, if_false, List.nil_append, if_neg hm,
        ofDigits_eq]

@[simp] theorem denoted_text (z : Int) : denoted (text z) = z := by
  obtain ⟨negative, n, rfl, hn⟩ := exists_signed z
  rw [denoted_of_literal (whole_repr n) (utf8_text negative hn), horner_repr]

theorem readInt64_denoted {t : String} (h : NumberText .integer (utf8 t)) :
    readInt64 (utf8 t) = checked (denoted t) := by
  obtain ⟨negative, w, hw, ht⟩ := exists_literal h
  rw [denoted_of_literal hw ht, ht, readInt64_literal negative hw]

/-- An integer literal is the text of what it denotes, unless it is the negative zero. -/
theorem text_denoted {t : String} (h : NumberText .integer (utf8 t)) (h₀ : t ≠ "-0") :
    text (denoted t) = t := by
  obtain ⟨negative, w, hw, ht⟩ := exists_literal h
  rw [denoted_of_literal hw ht]
  apply utf8_injective
  rw [utf8_text negative, utf8_repr_of_whole hw, ht]
  rintro rfl hz
  have h0 : w = [Ascii.zero] := by
    rw [← utf8_repr_of_whole hw, hz]
    rfl
  exact h₀ (utf8_injective (by rw [ht, h0]; rfl))

theorem text_of_readInt64 {t : String} (h : NumberText .integer (utf8 t)) (h₀ : t ≠ "-0")
    {x : Int64} (hx : readInt64 (utf8 t) = .ok x) : text x.toInt = t := by
  rw [readInt64_denoted h, checked] at hx
  split at hx
  · rename_i hf
    cases hx
    rw [toInt_ofInt hf, text_denoted h h₀]
  · cases hx

end Integer
end ExactJson
