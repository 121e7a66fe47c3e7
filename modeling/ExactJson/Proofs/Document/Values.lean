import ExactJson.Proofs.Document.Numbers
import ExactJson.Proofs.Document.Reading
import ExactJson.Proofs.Number.Canonical

/-! The values that documents have: their numbers are made from texts under the policy, their names
differ and they are no deeper than the limit. -/
namespace ExactJson
open Grammar Text

variable {data : Bytes} {options : ReadOptions} {v : Value}

theorem ofText_of_readBytes (h : readBytes data options = .ok v) :
    ∀ n ∈ v.numbers, n.OfText options.fractions := by
  rw [readBytes, readSource] at h
  cases hr : DocumentReader.ofSource (Slice.ofBytes data) options with
  | error e =>
    rw [hr] at h
    cases h
  | ok r =>
    rw [hr] at h
    have hspelled := DocumentReader.spelled_ofSource hr
    exact (DocumentReader.read_of_ofSource hr).2 ▸
      DocumentReader.ofText_readings hspelled (k := 1) (List.mem_singleton.mpr h.symm)

theorem built_of_readBytes (h : readBytes data options = .ok v) : v.Built where
  names := by
    obtain ⟨tree, ts, -, rfl, -⟩ := exists_of_readBytes h
    exact tree.distinctNames_settled
  numbers := by
    intro n hn
    obtain ⟨form, t, ht, rfl⟩ := ofText_of_readBytes h n hn
    exact .literal options.fractions (NumberForm.ofText?_eq_some_iff.mpr ht)

theorem depth_of_readBytes (h : readBytes data options = .ok v) : v.depth ≤ options.maxDepth := by
  obtain ⟨tree, ts, -, rfl, hd, -⟩ := exists_of_readBytes h
  exact Nat.le_trans tree.depth_settled_le hd

namespace Number

/-- The numbers that a program can come by: those that it makes, and those in the values that it reads,
from whatever source and however often it uses the reader. -/
inductive Obtained : Number → Prop where
  | int64 (x : Int64) : Obtained (.int64 x)
  | ofInt (z : Int) : Obtained (.ofInt z)
  | ofBinary64 {x : Binary64} {n : Number} (h : ofBinary64? x = some n) : Obtained n
  | integer {t : String} {n : Number} (h : integer? t = some n) : Obtained n
  | decimal {t : String} {n : Number} (h : decimal? t = some n) : Obtained n
  | read {σ : Type} [Source σ] {source : σ} {options : ReadOptions} {r : DocumentReader σ} {k : Nat}
      {v : Value} {n : Number} (hr : DocumentReader.ofSource source options = .ok r)
      (hv : .ok v ∈ r.readings k) (hn : n ∈ v.numbers) : Obtained n

variable {n m : Number} {form : NumberForm} {t : String}

theorem Obtained.canonical (h : n.Obtained) : n.Canonical := by
  cases h with
  | int64 x => exact (built_int64 x).canonical
  | ofInt z => exact (Built.ofInt z).canonical
  | ofBinary64 h => exact (Built.ofBinary64 h).canonical
  | integer h => exact (Built.integer h).canonical
  | decimal h => exact (Built.decimal h).canonical
  | read hr hv hn =>
    have hspelled := DocumentReader.spelled_ofSource hr
    obtain ⟨form, t, ht, rfl⟩ := DocumentReader.ofText_readings hspelled hv n hn
    exact canonical_ofLiteral _ ht

theorem readText_literal (h : NumberText form (utf8 t)) (options : ReadOptions) :
    readText t options = .ok (.number (ofLiteral options.fractions form t)) := by
  have hvalue := @ValueText.number options.fractions form _ h
  rw [utf8_injective h.utf8_ofAscii] at hvalue
  have hitem := ItemText.mk .nil hvalue .nil
  rw [List.nil_append, List.append_nil] at hitem
  exact readBytes_of_itemText hitem (Nat.zero_le _)

/-- However a number is obtained, its text is a literal and says which representation it has. What is
read from a literal is written as it was, and integers are equal just when their texts are, which is when
they denote the same integer with the same sign of zero. -/
theorem obtained_canonical :
    (∀ n : Number, n.Obtained → n.Canonical) ∧
    (∀ t form options, NumberForm.ofText? t = some form →
      readText t options = .ok (.number (ofLiteral options.fractions form t)) ∧
        (ofLiteral options.fractions form t).text = t) ∧
    ∀ n m : Number, n.Obtained → m.Obtained → n.isInteger = true → m.isInteger = true →
      ((n == m) = true ↔ n.text = m.text) ∧
      (n.text = m.text ↔ Integer.denoted n.text = Integer.denoted m.text ∧
        (n.text = "-0" ↔ m.text = "-0")) := by
  refine ⟨fun n hn => hn.canonical, fun t form options h => ?_, fun n m hn hm hi hj => ⟨?_, ?_⟩⟩
  · have ht := NumberForm.ofText?_eq_some_iff.mp h
    exact ⟨readText_literal ht options, text_ofLiteral ht options.fractions⟩
  · exact hn.canonical.beq_iff_text hm.canonical hi hj
  · exact Integer.literal_eq_iff (hn.canonical.numberText hi) (hm.canonical.numberText hj)

/-- Both zeros are integers, and a fraction is read to its last digit. -/
theorem obtained_canonical_zero :
    (ofInt 0).Obtained ∧ (bigInteger "-0").Obtained ∧ (bigInteger "-0").Canonical ∧
      ((ofInt 0 == bigInteger "-0") = true ↔ (ofInt 0).text = "-0") ∧
      NumberForm.ofText? "1.50" = some .fraction ∧
      (ofLiteral .float .fraction "1.50").text = "1.50" := by
  have hzero : (ofInt 0).Obtained := .ofInt 0
  have hminus : (bigInteger "-0").Obtained := @Obtained.integer "-0" _ rfl
  have hform : NumberForm.ofText? "1.50" = some .fraction := by decide
  exact ⟨hzero, hminus, obtained_canonical.1 _ hminus,
    (obtained_canonical.2.2 _ _ hzero hminus rfl rfl).1, hform,
    (obtained_canonical.2.1 "1.50" _ { fractions := .float } hform).2⟩

end Number
end ExactJson
