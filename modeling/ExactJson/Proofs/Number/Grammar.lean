import ExactJson.Number.Literal
import ExactJson.Proofs.Text.Encoding

/-! The grammar of number literals, and that the automaton accepts these literals and no others. -/
namespace ExactJson

theorem Ascii.lt_of_isDigit {b : UInt8} (h : Ascii.isDigit b = true) : b < 0x80 := by
  simp only [Ascii.isDigit, Bool.and_eq_true, decide_eq_true_eq, UInt8.le_iff_toNat_le] at h
  exact UInt8.lt_iff_toNat_lt.mpr (Nat.lt_of_le_of_lt h.2 (by decide))

namespace Grammar

def DigitText (bs : Bytes) : Prop := bs ≠ [] ∧ ∀ b ∈ bs, Ascii.isDigit b = true

def Sign (bs : Bytes) : Prop := bs = [] ∨ bs = [Ascii.minus]

inductive Whole : Bytes → Prop where
  | zero : Whole [Ascii.zero]
  | digits {d : UInt8} {ds : Bytes} (hd : Ascii.isDigit d = true) (h₀ : d ≠ Ascii.zero)
      (hds : ∀ b ∈ ds, Ascii.isDigit b = true) : Whole (d :: ds)

inductive NumberText : NumberForm → Bytes → Prop where
  | integer {s w : Bytes} (hs : Sign s) (hw : Whole w) : NumberText .integer (s ++ w)
  | fraction {m ds : Bytes} (hm : NumberText .integer m) (hds : DigitText ds) :
      NumberText .fraction (m ++ Ascii.dot :: ds)
  | exponent {form : NumberForm} {m s ds : Bytes} {e : UInt8} (hm : NumberText form m)
      (hf : form ≠ .exponent) (he : e = Ascii.lowerE ∨ e = Ascii.upperE)
      (hs : s = [] ∨ s = [Ascii.plus] ∨ s = [Ascii.minus]) (hds : DigitText ds) :
      NumberText .exponent (m ++ e :: (s ++ ds))

theorem DigitText.singleton {d : UInt8} (h : Ascii.isDigit d = true) : DigitText [d] :=
  ⟨List.cons_ne_nil d [], by simpa using h⟩

theorem DigitText.append {ds es : Bytes} (h : DigitText ds) (he : ∀ b ∈ es, Ascii.isDigit b = true) :
    DigitText (ds ++ es) := by
  refine ⟨by simp [h.1], fun b hb => ?_⟩
  exact (List.mem_append.mp hb).elim (h.2 b) (he b)

namespace NumberText
variable {form : NumberForm} {bs : Bytes}

theorem ascii (h : NumberText form bs) : ∀ b ∈ bs, b < 0x80 := by
  induction h with
  | integer hs hw =>
    intro b hb
    obtain hb | hb := List.mem_append.mp hb
    · obtain rfl | rfl := hs
      · cases hb
      · rw [List.mem_singleton.mp hb]
        decide
    · cases hw with
      | zero =>
        rw [List.mem_singleton.mp hb]
        decide
      | digits hd h₀ hds =>
        obtain rfl | hb := List.mem_cons.mp hb
        · exact Ascii.lt_of_isDigit hd
        · exact Ascii.lt_of_isDigit (hds b hb)
  | fraction hm hds ih =>
    intro b hb
    simp only [List.mem_append, List.mem_cons] at hb
    obtain hb | rfl | hb := hb
    · exact ih b hb
    · decide
    · exact Ascii.lt_of_isDigit (hds.2 b hb)
  | exponent hm hf he hs hds ih =>
    intro b hb
    simp only [List.mem_append, List.mem_cons] at hb
    obtain hb | rfl | hb | hb := hb
    · exact ih b hb
    · obtain rfl | rfl := he <;> decide
    · obtain rfl | rfl | rfl := hs
      · cases hb
      · rw [List.mem_singleton.mp hb]
        decide
      · rw [List.mem_singleton.mp hb]
        decide
    · exact Ascii.lt_of_isDigit (hds.2 b hb)

theorem utf8_ofAscii (h : NumberText form bs) : Text.utf8 (Text.ofAscii bs) = bs :=
  Text.utf8_ofAscii h.ascii

theorem append_digits (h : NumberText .exponent bs) {ds : Bytes}
    (hds : ∀ b ∈ ds, Ascii.isDigit b = true) : NumberText .exponent (bs ++ ds) := by
  cases h with
  | exponent hm hf he hs hd =>
    rw [List.append_assoc, List.cons_append, List.append_assoc]
    exact exponent hm hf he hs (hd.append hds)

end NumberText
end Grammar

open Grammar

namespace LiteralState

theorem run?_append (s : LiteralState) (x y : Bytes) :
    s.run? (x ++ y) = (s.run? x).bind fun t => t.run? y := by
  induction x generalizing s with
  | nil => rfl
  | cons b x ih =>
    simp only [List.cons_append, run?, Option.bind_assoc, ih]

inductive Holds : LiteralState → Bytes → Prop where
  | start : Holds .start []
  | sign : Holds .sign [Ascii.minus]
  | zero {s : Bytes} (hs : Sign s) : Holds .zero (s ++ [Ascii.zero])
  | whole {s ds : Bytes} {d : UInt8} (hs : Sign s) (hd : Ascii.isDigit d = true)
      (h₀ : d ≠ Ascii.zero) (hds : ∀ b ∈ ds, Ascii.isDigit b = true) :
      Holds .whole (s ++ d :: ds)
  | point {m : Bytes} (hm : NumberText .integer m) : Holds .point (m ++ [Ascii.dot])
  | fraction {m ds : Bytes} (hm : NumberText .integer m) (hds : DigitText ds) :
      Holds .fraction (m ++ Ascii.dot :: ds)
  | mark {form : NumberForm} {m : Bytes} {e : UInt8} (hm : NumberText form m)
      (hf : form ≠ .exponent) (he : e = Ascii.lowerE ∨ e = Ascii.upperE) : Holds .mark (m ++ [e])
  | markSign {form : NumberForm} {m : Bytes} {e s : UInt8} (hm : NumberText form m)
      (hf : form ≠ .exponent) (he : e = Ascii.lowerE ∨ e = Ascii.upperE)
      (hs : s = Ascii.plus ∨ s = Ascii.minus) : Holds .markSign (m ++ [e, s])
  | exponent {m : Bytes} (hm : NumberText .exponent m) : Holds .exponent m

theorem Holds.numberText {s : LiteralState} {bs : Bytes} {form : NumberForm} (h : Holds s bs)
    (hf : s.form? = some form) : NumberText form bs := by
  cases h with
  | start | sign | point | mark | markSign => cases hf
  | zero hs => cases hf; exact .integer hs .zero
  | whole hs hd h₀ hds => cases hf; exact .integer hs (.digits hd h₀ hds)
  | fraction hm hds => cases hf; exact .fraction hm hds
  | exponent hm => cases hf; exact hm

theorem holds_leading {s : Bytes} (hs : Sign s) {b : UInt8} {t : LiteralState}
    (h : leading? b = some t) : Holds t (s ++ [b]) := by
  simp only [leading?] at h
  split at h
  · rename_i hb
    cases h
    subst hb
    exact .zero hs
  · split at h
    · rename_i h₀ hd
      cases h
      exact .whole hs hd h₀ (by simp)
    · cases h

theorem holds_mark {form : NumberForm} {m : Bytes} (hm : NumberText form m)
    (hf : form ≠ .exponent) {b : UInt8} {t : LiteralState} (h : mark? b = some t) :
    Holds t (m ++ [b]) := by
  simp only [mark?] at h
  split at h
  · rename_i he
    cases h
    exact .mark hm hf he
  · cases h

theorem holds_tail {m : Bytes} (hm : NumberText .integer m) {b : UInt8} {t : LiteralState}
    (h : tail? b = some t) : Holds t (m ++ [b]) := by
  simp only [tail?] at h
  split at h
  · rename_i hb
    cases h
    subst hb
    exact .point hm
  · exact holds_mark hm (by decide) h

theorem Holds.exponentDigit {form : NumberForm} {m s : Bytes} {e b : UInt8}
    (hm : NumberText form m) (hf : form ≠ .exponent) (he : e = Ascii.lowerE ∨ e = Ascii.upperE)
    (hs : s = [] ∨ s = [Ascii.plus] ∨ s = [Ascii.minus]) (hb : Ascii.isDigit b = true) :
    Holds .exponent (m ++ e :: (s ++ [b])) :=
  .exponent (.exponent hm hf he hs (.singleton hb))

theorem Holds.step {s t : LiteralState} {bs : Bytes} {b : UInt8} (h : Holds s bs)
    (hn : s.next? b = some t) : Holds t (bs ++ [b]) := by
  cases h with
  | start =>
    simp only [next?] at hn
    split at hn
    · rename_i hb
      cases hn
      subst hb
      exact .sign
    · exact holds_leading (.inl rfl) hn
  | sign => exact holds_leading (.inr rfl) hn
  | zero hs => exact holds_tail (.integer hs .zero) hn
  | whole hs hd h₀ hds =>
    simp only [next?] at hn
    split at hn
    · rename_i hb
      cases hn
      rw [List.append_assoc, List.cons_append]
      refine .whole hs hd h₀ fun c hc => ?_
      obtain hc | hc := List.mem_append.mp hc
      · exact hds c hc
      · exact List.mem_singleton.mp hc ▸ hb
    · exact holds_tail (.integer hs (.digits hd h₀ hds)) hn
  | point hm =>
    simp only [next?] at hn
    split at hn
    · rename_i hb
      cases hn
      rw [List.append_assoc, List.singleton_append]
      exact .fraction hm (.singleton hb)
    · cases hn
  | fraction hm hds =>
    simp only [next?] at hn
    split at hn
    · rename_i hb
      cases hn
      rw [List.append_assoc, List.cons_append]
      exact .fraction hm (hds.append (by simpa using hb))
    · exact holds_mark (.fraction hm hds) (by decide) hn
  | mark hm hf he =>
    simp only [next?] at hn
    rw [List.append_assoc, List.singleton_append]
    split at hn
    · rename_i hs
      cases hn
      exact .markSign hm hf he hs
    · split at hn
      · rename_i hb
        cases hn
        exact .exponentDigit hm hf he (.inl rfl) hb
      · cases hn
  | markSign hm hf he hs =>
    simp only [next?] at hn
    rw [List.append_assoc, List.cons_append, List.singleton_append]
    split at hn
    · rename_i hb
      cases hn
      refine .exponentDigit (s := [_]) hm hf he (.inr ?_) hb
      exact hs.imp (congrArg fun c => [c]) (congrArg fun c => [c])
    · cases hn
  | exponent hm =>
    simp only [next?] at hn
    split at hn
    · rename_i hb
      cases hn
      exact .exponent (hm.append_digits (by simpa using hb))
    · cases hn

theorem Holds.run {s t : LiteralState} {x bs : Bytes} (h : Holds s x) (hr : s.run? bs = some t) :
    Holds t (x ++ bs) := by
  induction bs generalizing s x with
  | nil =>
    cases hr
    rwa [List.append_nil]
  | cons b bs ih =>
    obtain ⟨u, hu, hr⟩ := Option.bind_eq_some_iff.mp hr
    have hx := ih (h.step hu) hr
    rwa [List.append_assoc, List.singleton_append] at hx

theorem run?_digits {s : LiteralState} (h : ∀ b, Ascii.isDigit b = true → s.next? b = some s)
    {ds : Bytes} (hds : ∀ b ∈ ds, Ascii.isDigit b = true) : s.run? ds = some s := by
  induction ds with
  | nil => rfl
  | cons d ds ih =>
    rw [run?, h d (hds d List.mem_cons_self)]
    exact ih fun b hb => hds b (List.mem_cons_of_mem d hb)

theorem run?_first_digits {s t : LiteralState}
    (h : ∀ b, Ascii.isDigit b = true → s.next? b = some t)
    (ht : ∀ b, Ascii.isDigit b = true → t.next? b = some t) {ds : Bytes} (hds : DigitText ds) :
    s.run? ds = some t := by
  obtain ⟨hne, hds⟩ := hds
  cases ds with
  | nil => exact absurd rfl hne
  | cons d ds =>
    rw [run?, h d (hds d List.mem_cons_self)]
    exact run?_digits ht fun b hb => hds b (List.mem_cons_of_mem d hb)

theorem isDigit_ne {b c : UInt8} (hb : Ascii.isDigit b = true) (hc : Ascii.isDigit c = false) :
    b ≠ c := by
  rintro rfl
  rw [hb] at hc
  cases hc

theorem next?_digit_mark {b : UInt8} (h : Ascii.isDigit b = true) : mark.next? b = some exponent := by
  have hp := isDigit_ne h (c := Ascii.plus) rfl
  have hm := isDigit_ne h (c := Ascii.minus) rfl
  simp [next?, h, hp, hm]

theorem run?_whole {w : Bytes} (hw : Whole w) {s : LiteralState}
    (hs : ∀ b ∈ w, s.next? b = leading? b) : ∃ t, s.run? w = some t ∧ t.form? = some .integer := by
  cases hw with
  | zero =>
    refine ⟨.zero, ?_, rfl⟩
    rw [run?, hs _ List.mem_cons_self]
    rfl
  | @digits d ds hd h₀ hds =>
    refine ⟨.whole, ?_, rfl⟩
    rw [run?, hs d List.mem_cons_self, leading?, if_neg h₀, if_pos hd]
    exact run?_digits (fun b hb => by simp [next?, hb]) hds

theorem run?_of_numberText {form : NumberForm} {bs : Bytes} (h : NumberText form bs) :
    ∃ t, start.run? bs = some t ∧ t.form? = some form := by
  induction h with
  | integer hs hw =>
    obtain rfl | rfl := hs
    · apply run?_whole hw
      intro b hb
      have hne : b ≠ Ascii.minus := by
        cases hw with
        | zero => rw [List.mem_singleton.mp hb]; decide
        | digits hd h₀ hds =>
          obtain rfl | hb := List.mem_cons.mp hb
          · exact isDigit_ne hd rfl
          · exact isDigit_ne (hds b hb) rfl
      simp [next?, hne]
    · exact run?_whole (s := .sign) hw fun b _ => rfl
  | fraction hm hds ih =>
    obtain ⟨t, ht, hf⟩ := ih
    refine ⟨.fraction, ?_, rfl⟩
    have hp : t.next? Ascii.dot = some .point := by
      cases t with
      | zero | whole => rfl
      | _ => cases hf
    rw [run?_append, ht, Option.bind_some, run?, hp]
    exact run?_first_digits (fun b hb => by simp [next?, hb]) (fun b hb => by simp [next?, hb]) hds
  | @exponent form m s ds e hm hf he hs hds ih =>
    obtain ⟨t, ht, htf⟩ := ih
    refine ⟨.exponent, ?_, rfl⟩
    have hp : t.next? e = some .mark := by
      cases t with
      | zero | whole | fraction => obtain rfl | rfl := he <;> rfl
      | exponent =>
        cases htf
        exact absurd rfl hf
      | _ => cases htf
    have hd (b : UInt8) (hb : Ascii.isDigit b = true) : exponent.next? b = some exponent := by
      simp [next?, hb]
    have hds' : markSign.run? ds = some exponent :=
      run?_first_digits (fun b hb => by simp [next?, hb]) hd hds
    rw [run?_append, ht, Option.bind_some, run?, hp, Option.bind_some, run?_append]
    obtain rfl | rfl | rfl := hs
    · exact run?_first_digits (fun b hb => next?_digit_mark hb) hd hds
    · exact hds'
    · exact hds'

theorem numberText_iff {form : NumberForm} {bs : Bytes} :
    NumberText form bs ↔ ∃ t, start.run? bs = some t ∧ t.form? = some form := by
  refine ⟨run?_of_numberText, fun ⟨t, ht, hf⟩ => ?_⟩
  exact (Holds.start.run ht).numberText hf

end LiteralState

/-- A text has a form exactly when it is a literal of that form. -/
theorem NumberForm.ofText?_eq_some_iff {form : NumberForm} {text : String} :
    NumberForm.ofText? text = some form ↔ NumberText form (Text.utf8 text) := by
  rw [LiteralState.numberText_iff, ofText?, Option.bind_eq_some_iff]

end ExactJson
