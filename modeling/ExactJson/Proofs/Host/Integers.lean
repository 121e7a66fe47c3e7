import ExactJson.Host.FromJson
import ExactJson.Host.ToJson
import ExactJson.Proofs.Document.Values

/-! Integers of every width. Whichever type or text an integer comes from, it is one number, and each
type that has it gets it back. The negative zero is the one literal that no integer is written as. -/
namespace ExactJson
open Grammar Text

namespace IntType
variable {t : IntType} {z : Int} {s : String}

theorem contains_int64 (z : Int) : contains ⟨true, .w64⟩ z = Integer.fitsInt64 z := by
  simp only [contains, Integer.fitsInt64, least, greatest, IntWidth.bits, if_true]
  congr 1
  exact decide_eq_decide.mpr (by omega)

theorem contains_uint64 : contains ⟨false, .w64⟩ z = true ↔ 0 ≤ z ∧ z < 18446744073709551616 := by
  simp only [contains, least, greatest, IntWidth.bits, Bool.false_eq_true, if_false,
    Bool.and_eq_true, decide_eq_true_eq]
  omega

theorem fitsInt64_of_isNarrow (hn : t.isNarrow = true) (h : t.contains z = true) :
    Integer.fitsInt64 z = true := by
  obtain ⟨signed, width⟩ := t
  simp only [contains, Integer.fitsInt64, Bool.and_eq_true, decide_eq_true_eq] at h ⊢
  cases width with
  | w128 | word => cases hn
  | w64 =>
    cases signed with
    | false => cases hn
    | true =>
      simp only [least, greatest, IntWidth.bits, if_true] at h
      omega
  | w8 | w16 | w32 =>
    cases signed <;>
      simp only [least, greatest, IntWidth.bits, if_true, if_false, Bool.false_eq_true] at h <;>
      omega

@[simp] theorem contains_zero (t : IntType) : t.contains 0 = true := by
  obtain ⟨signed, width⟩ := t
  cases signed <;> cases width <;> decide

theorem ofDigits?_whole {w : Bytes} (hw : Whole w) :
    Integer.ofDigits? w = some (Integer.horner 0 w) := by
  have hds : w.all Ascii.isDigit = true := List.all_eq_true.mpr (Integer.whole_isDigit hw)
  rw [Integer.ofDigits?, if_pos ⟨Integer.whole_ne_nil hw, hds⟩, Integer.ofDigits_eq]

/-- An integer literal is read as what it denotes if the type has that, and with a minus sign only if
the type has one. -/
theorem read?_literal (t : IntType) {negative : Bool} {w : Bytes} (hw : Whole w)
    (hs : utf8 s = Integer.signBytes negative ++ w) :
    t.read? s = if negative = true ∧ t.signed = false then none
      else (some (Integer.signed negative (Integer.horner 0 w))).filter t.contains := by
  rw [read?, hs]
  cases negative with
  | true =>
    simp only [Integer.signBytes, if_true, List.singleton_append, ofDigits?_whole hw]
    cases t.signed <;> rfl
  | false =>
    have hds := Integer.whole_isDigit hw
    cases w with
    | nil => exact absurd rfl (Integer.whole_ne_nil hw)
    | cons d ds =>
      have hm : d ≠ Ascii.minus := LiteralState.isDigit_ne (hds d List.mem_cons_self) rfl
      simp only [Integer.signBytes, Bool.false_eq_true, if_false, List.nil_append, if_neg hm,
        ofDigits?_whole hw, false_and]
      rfl

@[simp] theorem read?_text (t : IntType) (z : Int) :
    t.read? (Integer.text z) = if t.contains z then some z else none := by
  obtain ⟨negative, n, rfl, hn⟩ := Integer.exists_signed z
  rw [t.read?_literal (Integer.whole_repr n) (Integer.utf8_text negative hn), Integer.horner_repr]
  split
  · rename_i h
    obtain ⟨rfl, hsigned⟩ := h
    have hleast : t.least = 0 := by rw [least, hsigned, if_neg Bool.false_ne_true]
    have hout : t.contains (Integer.signed true n) = false := by
      have hpos := Nat.pos_of_ne_zero (hn rfl)
      simp only [contains, hleast, Integer.signed, if_true, Bool.and_eq_false_iff,
        decide_eq_false_iff_not]
      exact .inl (by omega)
    rw [hout, if_neg Bool.false_ne_true]
  · rfl

theorem read?_minus_zero (t : IntType) :
    t.read? "-0" = if t.signed then some 0 else none := by
  have hs : utf8 "-0" = Integer.signBytes true ++ [Ascii.zero] := rfl
  have h₀ : Integer.signed true (Integer.horner 0 [Ascii.zero]) = 0 := rfl
  rw [t.read?_literal .zero hs, h₀, Option.filter, t.contains_zero]
  cases t.signed <;> rfl

end IntType

namespace Number
variable {z : Int}

@[simp] theorem text_ofInt (z : Int) : (ofInt z).text = Integer.text z := by
  rw [← ofIntegerLiteral_text, text_ofIntegerLiteral (Integer.numberText_text z)]

@[simp] theorem isInteger_ofInt (z : Int) : (ofInt z).isInteger = true := by
  rw [← ofIntegerLiteral_text, isInteger_ofIntegerLiteral]

/-- A type that asks for no check needs none. -/
theorem ofTyped_eq_ofInt {type : IntType} (h : type.contains z = true) :
    ofTyped type z = ofInt z := by
  rw [ofTyped]
  split
  · rename_i hn
    rw [ofInt, if_pos (IntType.fitsInt64_of_isNarrow hn h)]
  · rfl

theorem int64?_ofInt (z : Int) : (ofInt z).int64?.map Int64.toInt =
    if IntType.contains ⟨true, .w64⟩ z then some z else none := by
  rw [IntType.contains_int64, ofInt]
  by_cases h : Integer.fitsInt64 z = true
  · rw [if_pos h, if_pos h, int64?, Option.map_some, Integer.toInt_ofInt h]
  · rw [if_neg h, if_neg h, int64?, IntType.read?_text, IntType.contains_int64, if_neg h]
    rfl

theorem toNat_ofNat (h : IntType.contains ⟨false, .w64⟩ z = true) :
    ((UInt64.ofNat z.toNat).toNat : Int) = z := by
  obtain ⟨h₀, hlt⟩ := IntType.contains_uint64.mp h
  rw [UInt64.toNat_ofNat_of_lt' (by omega : z.toNat < 2 ^ 64), Int.toNat_of_nonneg h₀]

theorem uint64?_ofInt (z : Int) : (ofInt z).uint64?.map (fun x => (x.toNat : Int)) =
    if IntType.contains ⟨false, .w64⟩ z then some z else none := by
  rw [ofInt]
  by_cases h : Integer.fitsInt64 z = true
  · have hz := Integer.toInt_ofInt h
    simp only [Integer.fitsInt64, Bool.and_eq_true, decide_eq_true_eq] at h
    have hsign : 0 ≤ Int64.ofInt z ↔ 0 ≤ z := by rw [Int64.le_iff_toInt_le, hz]; rfl
    have hrange : IntType.contains ⟨false, .w64⟩ z = true ↔ 0 ≤ z := by
      rw [IntType.contains_uint64]
      omega
    rw [if_pos (by simpa [Integer.fitsInt64] using h)]
    simp only [uint64?, hz, hsign, hrange]
    split
    · rename_i hpos
      exact congrArg some (toNat_ofNat (hrange.mpr hpos))
    · rfl
  · rw [if_neg h, uint64?, IntType.read?_text]
    split
    · rename_i hc
      exact congrArg some (toNat_ofNat hc)
    · rfl

/-- An integer literal makes one number, whatever it is given to. -/
structure Literal (t : String) (n : Number) : Prop where
  integer : integer? t = some n
  decimal : decimal? t = some n
  document (options : ReadOptions) : readText t options = .ok (.number n)

theorem literal_ofIntegerLiteral {t : String} (h : NumberText .integer (utf8 t)) :
    Literal t (ofIntegerLiteral t) where
  integer := by rw [integer?, NumberForm.ofText?_eq_some_iff.mpr h]
  decimal := by
    rw [decimal?, NumberForm.ofText?_eq_some_iff.mpr h]
    rfl
  document := readText_literal h

/-- What the integer types get from a number: the same integer, where it is allowed. -/
structure GivesBack (n : Number) (z : Int) (allowed : IntType → Bool) : Prop where
  int64 : n.int64?.map Int64.toInt = if allowed ⟨true, .w64⟩ then some z else none
  uint64 : n.uint64?.map (fun x => (x.toNat : Int)) =
    if allowed ⟨false, .w64⟩ then some z else none
  read (type : IntType) : HostType.read (.integer type) (.number n) =
    if allowed type then .ok (.integer type z) else .error (.outOfRange type.name n.text)

theorem read_of_isInteger {n : Number} (hn : n.isInteger = true) {allowed : IntType → Bool}
    (h : ∀ type : IntType, type.read? n.text = if allowed type then some z else none)
    (type : IntType) : HostType.read (.integer type) (.number n) =
      if allowed type then .ok (.integer type z) else .error (.outOfRange type.name n.text) := by
  simp only [HostType.read, HostType.readInteger, Value.number?, Option.filter, hn, if_true, toInt?,
    h type]
  cases allowed type <;> rfl

theorem givesBack_ofInt (z : Int) : (ofInt z).GivesBack z fun type => type.contains z where
  int64 := int64?_ofInt z
  uint64 := uint64?_ofInt z
  read := read_of_isInteger (isInteger_ofInt z) fun type => by simp

theorem givesBack_minus_zero : (bigInteger "-0").GivesBack 0 IntType.signed where
  int64 := by
    rw [int64?, IntType.read?_minus_zero]
    rfl
  uint64 := by
    rw [uint64?, IntType.read?_minus_zero]
    rfl
  read := read_of_isInteger rfl IntType.read?_minus_zero

/-- Every integer, however wide, is one number, whether it is made from its text, read from a document
or given as a value of a type that has it, and each type that has it gets it back; the others refuse it.
The only other integer literal is the negative zero. It is a number apart, which the signed types read
as zero and the unsigned ones refuse. -/
theorem integers_of_every_width :
    (∀ z : Int, Literal (Integer.text z) (ofInt z) ∧ (ofInt z).text = Integer.text z ∧
      (∀ type : IntType, type.contains z = true → ofTyped type z = ofInt z ∧
        ∀ policy, (Host.integer type z).convert policy = .ok (.number (ofInt z))) ∧
      (ofInt z).GivesBack z fun type => type.contains z) ∧
    (∀ t, NumberForm.ofText? t = some .integer ↔ (∃ z, t = Integer.text z) ∨ t = "-0") ∧
    Literal "-0" (bigInteger "-0") ∧
    (∀ z, bigInteger "-0" ≠ ofInt z ∧ (bigInteger "-0" == ofInt z) = false) ∧
    (bigInteger "-0").GivesBack 0 IntType.signed := by
  have hminus : Literal "-0" (bigInteger "-0") :=
    literal_ofIntegerLiteral (NumberForm.ofText?_eq_some_iff.mp (by decide))
  refine ⟨fun z => ⟨?_, text_ofInt z, fun type h => ?_, givesBack_ofInt z⟩, fun t => ⟨fun h => ?_, ?_⟩,
    hminus, fun z => ?_, givesBack_minus_zero⟩
  · rw [← ofIntegerLiteral_text]
    exact literal_ofIntegerLiteral (Integer.numberText_text z)
  · have htyped := ofTyped_eq_ofInt h
    exact ⟨htyped, fun policy => by rw [Host.convert, htyped]⟩
  · have ht := NumberForm.ofText?_eq_some_iff.mp h
    by_cases h₀ : t = "-0"
    · exact .inr h₀
    · exact .inl ⟨_, (Integer.text_denoted ht h₀).symm⟩
  · rintro (⟨z, rfl⟩ | rfl)
    · exact NumberForm.ofText?_eq_some_iff.mpr (Integer.numberText_text z)
    · decide
  · have htext : (bigInteger "-0").text ≠ (ofInt z).text := by
      rw [text_ofInt]
      exact (Integer.text_ne_minus_zero z).symm
    have hbeq := (Built.integer hminus.integer).canonical.beq_iff_text (Built.ofInt z).canonical rfl
      (isInteger_ofInt z)
    exact ⟨fun h => htext (congrArg text h), Bool.eq_false_iff.mpr fun h => htext (hbeq.mp h)⟩

/-- One more than the greatest integer of 64 bits is kept by its text and given to the wider types. -/
theorem integers_of_every_width_wide :
    IntType.contains ⟨false, .w128⟩ 18446744073709551616 = true ∧
      ofTyped ⟨false, .w128⟩ 18446744073709551616 = bigInteger "18446744073709551616" ∧
      HostType.read (.integer ⟨false, .word⟩) (.number (ofInt 18446744073709551616)) =
        .error (.outOfRange "usize" "18446744073709551616") := by
  have hc : IntType.contains ⟨false, .w128⟩ 18446744073709551616 = true := by decide
  obtain ⟨-, htext, htyped, hback⟩ := integers_of_every_width.1 18446744073709551616
  refine ⟨hc, (htyped ⟨false, .w128⟩ hc).1, ?_⟩
  rw [hback.read, htext]
  rfl

end Number
end ExactJson
