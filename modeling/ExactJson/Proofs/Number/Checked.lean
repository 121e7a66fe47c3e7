import ExactJson.Proofs.Number.Reread
import Mathlib.Data.Nat.Digits.Defs

/-! The checked reading of integers of 64 bits: which bytes are one, and what is wrong with the
others. Sixty-four bits are enough to find out whether digits denote more than that. -/
namespace ExactJson
open Grammar Text

namespace Integer

def InRange (z : Int) : Prop := Int64.minValue.toInt ≤ z ∧ z ≤ Int64.maxValue.toInt

instance (z : Int) : Decidable (InRange z) := inferInstanceAs (Decidable (_ ∧ _))

/-- What digits denote by their places: the last one counts ones, the one before it tens. -/
def byPlaces (ds : Bytes) : Nat := Nat.ofDigits 10 (ds.reverse.map Ascii.digit)

def denote (negative : Bool) (ds : Bytes) : Int := signed negative (byPlaces ds)

/-- What bytes are read as, by a sign and the digits behind it. -/
inductive ReadsInt64 : Bytes → Except Fault Int64 → Prop where
  | empty : ReadsInt64 [] (.error .empty)
  | signOnly : ReadsInt64 [Ascii.minus] (.error .signOnly)
  | value {negative : Bool} {ds : Bytes} {x : Int64} (hds : DigitText ds)
      (h : InRange (denote negative ds)) (hx : x.toInt = denote negative ds) :
      ReadsInt64 (signBytes negative ++ ds) (.ok x)
  /-- Digits that denote too much, whatever stands behind them. -/
  | overflow {negative : Bool} {ds rest : Bytes} (hds : DigitText ds)
      (h : ¬InRange (denote negative ds)) :
      ReadsInt64 (signBytes negative ++ (ds ++ rest)) (.error .overflow)
  /-- Another byte behind digits, perhaps none, that do not denote too much. A minus sign at the
  front is the sign. -/
  | badDigit {negative : Bool} {ds rest : Bytes} {b : UInt8}
      (hds : ∀ d ∈ ds, Ascii.isDigit d = true) (h : InRange (denote negative ds))
      (hb : Ascii.isDigit b = false) (hs : b = Ascii.minus → negative = true ∨ ds ≠ []) :
      ReadsInt64 (signBytes negative ++ (ds ++ b :: rest)) (.error .badDigit)

def fit? (z : Int) : Option Int64 := if fitsInt64 z then some (Int64.ofInt z) else none

def shiftIn? (negative : Bool) (x : Int64) (d : UInt8) : Option Int64 :=
  (fit? (x.toInt * 10)).bind fun y =>
    fit? (if negative then y.toInt - Ascii.digit d else y.toInt + Ascii.digit d)

def accumulate (negative : Bool) (x : Int64) : Bytes → Except Fault Int64
  | [] => .ok x
  | d :: ds =>
    if Ascii.isDigit d then
      match shiftIn? negative x d with
      | some y => accumulate negative y ds
      | none => .error .overflow
    else .error .badDigit

variable {negative : Bool} {n : Nat} {bs ds rest : Bytes} {b d : UInt8} {z : Int}
variable {r : Except Fault Int64}

theorem fitsInt64_iff_inRange : fitsInt64 z = true ↔ InRange z := by
  have hmin : Int64.minValue.toInt = -2 ^ (63 : Nat) := by decide
  have hmax : Int64.maxValue.toInt = 2 ^ (63 : Nat) - 1 := by decide
  rw [InRange, hmin, hmax]
  simp only [fitsInt64, Bool.and_eq_true, decide_eq_true_eq]
  omega

theorem byPlaces_eq_horner (ds : Bytes) : byPlaces ds = horner 0 ds := by
  rw [byPlaces, horner, Nat.ofDigits_eq_foldr, List.foldr_map, List.foldr_reverse]
  simp only [Nat.cast_id, Nat.add_comm]

theorem InRange.of_append (h : InRange (denote negative (ds ++ rest))) :
    InRange (denote negative ds) := by
  rw [denote, byPlaces_eq_horner, ← fitsInt64_iff_inRange] at h ⊢
  refine fitsInt64_of_le ?_ h
  rw [horner, horner, List.foldl_append]
  exact le_horner _ rest

theorem goOnInt64_denote (negative : Bool) (rest : Bytes) (hds : ∀ b ∈ ds, Ascii.isDigit b = true) :
    goOnInt64 negative 0 (ds ++ rest) =
      if fitsInt64 (denote negative ds) = true then goOnInt64 negative (denote negative ds) rest
      else .error .overflow := by
  have h := @goOnInt64_append negative 0 ds rest (signed_zero negative ▸ rfl) hds
  rwa [signed_zero, ← byPlaces_eq_horner] at h

theorem head?_ne_minus (hds : DigitText ds) : (ds ++ rest).head? ≠ some Ascii.minus := by
  obtain ⟨hne, hds⟩ := hds
  cases ds with
  | nil => exact absurd rfl hne
  | cons d ds =>
    intro h
    exact LiteralState.isDigit_ne (hds d List.mem_cons_self) rfl (Option.some.inj h)

theorem ReadsInt64.eq (h : ReadsInt64 bs r) : readInt64 bs = r := by
  cases h with
  | empty | signOnly => rfl
  | @value negative ds x hds h hx =>
    have hread := goOnInt64_denote negative [] hds.2
    have hhead := @head?_ne_minus ds [] hds
    rw [List.append_nil] at hread hhead
    rw [readInt64_signBytes hds.1 fun _ => hhead, hread, if_pos (fitsInt64_iff_inRange.mpr h),
      goOnInt64, ← hx, Int64.ofInt_toInt]
  | @overflow negative ds rest hds h =>
    rw [readInt64_signBytes (List.append_ne_nil_of_left_ne_nil hds.1 rest)
      fun _ => head?_ne_minus hds, goOnInt64_denote negative rest hds.2,
      if_neg fun hf => h (fitsInt64_iff_inRange.mp hf)]
  | @badDigit negative ds rest b hds h hb hs =>
    have hhead : negative = false → (ds ++ b :: rest).head? ≠ some Ascii.minus := by
      rintro rfl
      by_cases hnil : ds = []
      · subst hnil
        exact fun hm => (hs (Option.some.inj hm)).elim Bool.false_ne_true (absurd rfl)
      · exact head?_ne_minus ⟨hnil, hds⟩
    rw [readInt64_signBytes (by simp) hhead, goOnInt64_denote negative (b :: rest) hds,
      if_pos (fitsInt64_iff_inRange.mpr h), goOnInt64, hb, if_neg Bool.false_ne_true]

theorem exists_digits (bs : Bytes) : ∃ negative ds rest, bs = signBytes negative ++ (ds ++ rest) ∧
    (negative = false → bs.head? ≠ some Ascii.minus) ∧ (∀ d ∈ ds, Ascii.isDigit d = true) ∧
    ∀ b ∈ rest.head?, Ascii.isDigit b = false := by
  obtain ⟨negative, us, hbs, hs⟩ : ∃ negative us, bs = signBytes negative ++ us ∧
      (negative = false → bs.head? ≠ some Ascii.minus) := by
    by_cases h : bs.head? = some Ascii.minus
    · obtain ⟨us, rfl⟩ := List.head?_eq_some_iff.mp h
      exact ⟨true, us, rfl, nofun⟩
    · exact ⟨false, bs, rfl, fun _ => h⟩
  refine ⟨negative, us.takeWhile Ascii.isDigit, us.dropWhile Ascii.isDigit, ?_, hs,
    List.all_eq_true.mp List.all_takeWhile, fun b hb => ?_⟩
  · rw [List.takeWhile_append_dropWhile, hbs]
  · have h := List.head?_dropWhile_not Ascii.isDigit us
    rwa [Option.mem_def.mp hb] at h

theorem exists_readsInt64 (bs : Bytes) : ∃ r, ReadsInt64 bs r := by
  obtain ⟨negative, ds, rest, rfl, hs, hds, hrest⟩ := exists_digits bs
  by_cases hnil : ds = []
  · subst hnil
    have hzero : InRange (denote negative []) := by
      cases negative <;> decide
    cases rest with
    | nil => cases negative <;> exact ⟨_, by constructor⟩
    | cons b rest =>
      refine ⟨_, .badDigit hds hzero (hrest b rfl) ?_⟩
      rintro rfl
      exact .inl (Bool.of_not_eq_false fun h => hs h (by subst h; rfl))
  · by_cases h : InRange (denote negative ds)
    · cases rest with
      | nil =>
        rw [List.append_nil]
        exact ⟨_, .value ⟨hnil, hds⟩ h (toInt_ofInt (fitsInt64_iff_inRange.mpr h))⟩
      | cons b rest => exact ⟨_, .badDigit hds h (hrest b rfl) fun _ => .inr hnil⟩
    · exact ⟨_, .overflow ⟨hnil, hds⟩ h⟩

theorem readInt64_eq_iff : readInt64 bs = r ↔ ReadsInt64 bs r := by
  refine ⟨fun h => ?_, ReadsInt64.eq⟩
  obtain ⟨r', hr⟩ := exists_readsInt64 bs
  rwa [← h, hr.eq]

theorem shiftIn?_eq (hn : fitsInt64 (signed negative n) = true) (d : UInt8) :
    shiftIn? negative (Int64.ofInt (signed negative n)) d =
      fit? (signed negative (10 * n + Ascii.digit d)) := by
  have hten : signed negative n * 10 = signed negative (10 * n) := by
    cases negative <;> simp only [signed, if_true, if_false, Bool.false_eq_true] <;> omega
  rw [shiftIn?, toInt_ofInt hn, hten]
  by_cases h : fitsInt64 (signed negative (10 * n)) = true
  · rw [fit?, if_pos h, Option.bind_some, toInt_ofInt h, ← hten, Int.mul_comm, signed_cons]
  · have hmore : ¬fitsInt64 (signed negative (10 * n + Ascii.digit d)) = true :=
      fun hf => h (fitsInt64_of_le (Nat.le_add_right _ _) hf)
    rw [fit?, if_neg h, fit?, if_neg hmore, Option.bind_none]

/-- The number that is held is always exact. -/
theorem accumulate_eq (hn : fitsInt64 (signed negative n) = true) (bs : Bytes) :
    accumulate negative (Int64.ofInt (signed negative n)) bs =
      goOnInt64 negative (signed negative n) bs := by
  induction bs generalizing n with
  | nil => rfl
  | cons d bs ih =>
    simp only [accumulate, goOnInt64, signed_cons, shiftIn?_eq hn d, fit?]
    by_cases h : fitsInt64 (signed negative (10 * n + Ascii.digit d)) = true
    · simp only [h, if_true, ih h]
    · simp only [h, Bool.false_eq_true, if_false]

theorem fault_of_literal {text : String} {fault : Fault}
    (h : NumberForm.ofText? text = some .integer) (hr : readInt64 (utf8 text) = .error fault) :
    fault = .overflow := by
  obtain ⟨negative, w, hw, ht⟩ := exists_literal (NumberForm.ofText?_eq_some_iff.mp h)
  rw [ht, readInt64_literal negative hw, checked] at hr
  split at hr <;> cases hr
  rfl

/-- Bytes are read as an integer of 64 bits exactly if they are an optional minus sign and digits
that denote one. What is wrong with others is the first thing that is: that the digits denote too
much, which more of them do not make up for, or that there is another byte. The same is found in 64
bits, with each operation checked. A text that is an integer literal can only be too wide, so it is
kept as text just for this and for the negative zero. -/
theorem readInt64_by_places :
    (∀ bs r, readInt64 bs = r ↔ ReadsInt64 bs r) ∧
    (∀ negative ds, DigitText ds → InRange (denote negative ds) →
      ∃ x, readInt64 (signBytes negative ++ ds) = .ok x ∧ x.toInt = denote negative ds) ∧
    (∀ negative ds rest, InRange (denote negative (ds ++ rest)) → InRange (denote negative ds)) ∧
    (∀ negative bs, goOnInt64 negative 0 bs = accumulate negative 0 bs) ∧
    ∀ text, NumberForm.ofText? text = some .integer →
      (∀ fault, readInt64 (utf8 text) = .error fault → fault = .overflow) ∧
      ∀ policy, (∀ x, Number.ofLiteral policy .integer text = .int64 x ↔
          text ≠ "-0" ∧ readInt64 (utf8 text) = .ok x) ∧
        (Number.ofLiteral policy .integer text = .bigInteger text ↔
          text = "-0" ∨ readInt64 (utf8 text) = .error .overflow) := by
  refine ⟨fun bs r => readInt64_eq_iff, fun negative ds hds h => ?_,
    fun negative ds rest => InRange.of_append, fun negative bs => ?_,
    fun text h => ⟨fun fault => fault_of_literal h, fun policy => ?_⟩⟩
  · have hx := toInt_ofInt (fitsInt64_iff_inRange.mpr h)
    exact ⟨_, (ReadsInt64.value hds h hx).eq, hx⟩
  · have hzero : fitsInt64 (signed negative 0) = true := signed_zero negative ▸ rfl
    have h := accumulate_eq hzero bs
    rw [signed_zero] at h
    exact h.symm
  · simp only [Number.ofLiteral, Number.ofIntegerLiteral]
    by_cases h₀ : text = "-0"
    · simp [h₀]
    · cases hr : readInt64 (utf8 text) with
      | ok x => simp [h₀]
      | error fault =>
        cases fault_of_literal h hr
        simp [h₀]

/-- The least integer has no positive counterpart. Zeros in front are read, and a byte that is no
digit is not reached behind too many digits. -/
theorem readInt64_by_places_least :
    (DigitText (utf8 "9223372036854775808") ∧
      InRange (denote true (utf8 "9223372036854775808")) ∧
      ∃ x, readInt64 (utf8 "-9223372036854775808") = .ok x ∧ x.toInt = -9223372036854775808) ∧
    (NumberForm.ofText? "9223372036854775808" = some .integer ∧
      Number.ofLiteral .float .integer "9223372036854775808" = .bigInteger "9223372036854775808") ∧
    readInt64 (utf8 "-09223372036854775809x") = .error .overflow ∧
    readInt64 (utf8 "00x") = .error .badDigit := by
  have hleast : DigitText (utf8 "9223372036854775808") := ⟨by decide, forall_mem_bytes (by decide)⟩
  have hmore : DigitText (utf8 "09223372036854775809") := ⟨by decide, forall_mem_bytes (by decide)⟩
  have hzeros : ∀ d ∈ utf8 "00", Ascii.isDigit d = true := forall_mem_bytes (by decide)
  have hrange : InRange (denote true (utf8 "9223372036854775808")) := by decide
  have hform : NumberForm.ofText? "9223372036854775808" = some .integer := by decide
  have hover : readInt64 (utf8 "9223372036854775808") = .error .overflow :=
    (readInt64_by_places.1 _ _).mpr (@ReadsInt64.overflow false _ [] hleast (by decide))
  refine ⟨⟨hleast, hrange, readInt64_by_places.2.1 true _ hleast hrange⟩, ⟨hform, ?_⟩, ?_, ?_⟩
  · exact ((readInt64_by_places.2.2.2.2 _ hform).2 .float).2.mpr (.inr hover)
  · exact (readInt64_by_places.1 _ _).mpr
      (@ReadsInt64.overflow true _ (utf8 "x") hmore (by decide))
  · exact (readInt64_by_places.1 _ _).mpr
      (@ReadsInt64.badDigit false _ [] _ hzeros (by decide) (by decide) (by decide))

end Integer
end ExactJson
