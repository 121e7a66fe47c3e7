import ExactJson.Proofs.Text.StringGrammar

/-! A quoted string is a literal of its text. -/
namespace ExactJson
open Grammar Text

namespace Escape

theorem shortEscape_of_letter? {c l : Char} (h : letter? c = some l) :
    ∃ b, String.utf8EncodeChar l = [b] ∧ ShortEscape b c := by
  simp only [letter?] at h
  repeat' split at h
  all_goals cases h
  all_goals
    subst c
    exact ⟨_, rfl, by constructor⟩

theorem digitChar_ascii : ∀ n < 16, n.digitChar.toNat < 0x80 := by decide

theorem hexDigit_digitChar {n : Nat} (h : n < 16) :
    HexDigit (UInt8.ofNat n.digitChar.toNat) n := by
  have hall : ∀ m < 16, Ascii.hexDigit? (UInt8.ofNat m.digitChar.toNat) = some m := by decide
  exact hexDigit?_eq_some_iff.mp (hall n h)

theorem lt_of_isNeeded {c : Char} (h : isNeeded c = true) (hl : letter? c = none) :
    c.toNat < 0x20 := by
  simp only [isNeeded, Bool.or_eq_true, decide_eq_true_eq, beq_iff_eq] at h
  obtain (h | rfl) | rfl := h
  · exact h
  · cases hl
  · cases hl

theorem escapeText_written {c : Char} (h : isNeeded c = true) :
    EscapeText (utf8 (written c)) c := by
  simp only [written]
  split
  · rename_i l hl
    obtain ⟨b, hb, hs⟩ := shortEscape_of_letter? hl
    rw [utf8_ofList, List.flatMap_cons, List.flatMap_cons, List.flatMap_nil, hb]
    exact .short hs
  · rename_i hl
    have hc := lt_of_isNeeded h hl
    have hhigh : c.toNat / 16 < 16 := by omega
    have hlow : c.toNat % 16 < 16 := Nat.mod_lt _ (by decide)
    have hzero : HexDigit 0x30 0 := .decimal rfl (by decide)
    have hhex := Hex4.mk hzero hzero (hexDigit_digitChar hhigh) (hexDigit_digitChar hlow)
    rw [show 0x1000 * 0 + 0x100 * 0 + 0x10 * (c.toNat / 16) + c.toNat % 16 = c.toNat by omega]
      at hhex
    simp only [utf8_ofList, List.flatMap_cons, List.flatMap_nil,
      encode_ascii (digitChar_ascii _ hhigh), encode_ascii (digitChar_ascii _ hlow)]
    exact .unit hhex

theorem raw_of_not_isNeeded {c : Char} (h : ¬ isNeeded c = true) :
    0x20 ≤ c.toNat ∧ c ≠ '"' ∧ c ≠ '\\' := by
  simpa [isNeeded, and_assoc] using h

theorem spellings_stretches {run : List Char}
    (hrun : ∀ c ∈ run, 0x20 ≤ c.toNat ∧ c ≠ '"' ∧ c ≠ '\\') (cs : List Char) :
    Spellings ((stretches run cs).flatMap utf8) (run.reverse ++ cs) := by
  have hrev : Spellings (utf8 (String.ofList run.reverse)) run.reverse := by
    rw [utf8_ofList]
    exact .raw fun c hc => hrun c (List.mem_reverse.mp hc)
  induction cs generalizing run with
  | nil => simpa [stretches] using hrev
  | cons c cs ih =>
    simp only [stretches]
    split
    · rename_i h
      rw [List.flatMap_cons, List.flatMap_cons]
      exact hrev.append (.cons (.escape (escapeText_written h)) (ih (by simp) .nil))
    · rename_i h
      have hc : ∀ d ∈ c :: run, 0x20 ≤ d.toNat ∧ d ≠ '"' ∧ d ≠ '\\' := by
        intro d hd
        obtain rfl | hd := List.mem_cons.mp hd
        · exact raw_of_not_isNeeded h
        · exact hrun d hd
      have hs := ih hc (by
        rw [utf8_ofList]
        exact .raw fun d hd => hc d (List.mem_reverse.mp hd))
      rwa [List.reverse_cons, List.append_assoc, List.singleton_append] at hs

theorem stringText_quoted (s : String) : StringText ((quoted s).flatMap utf8) s := by
  refine ⟨_, @spellings_stretches [] (by simp) s.toList, ?_⟩
  rw [quoted, List.flatMap_cons, List.flatMap_append]
  rfl

end Escape
end ExactJson
