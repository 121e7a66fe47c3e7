import ExactJson.Proofs.Layout.Grammar
import ExactJson.Proofs.Token.Literals

/-! Strings that are written. The loop over the bytes that copies what stands between two escapes
writes each character by itself, and the literal ends where it ends whatever comes behind it. -/
namespace ExactJson
open Grammar Text

namespace Escape
variable {c : Char} {b : UInt8} {text x bs rest : Bytes} {run : List Char}

def isNeededByte (b : UInt8) : Bool :=
  Ascii.isControl b || b == Ascii.quote || b == Ascii.backslash

/-- The slices and escapes of `text` that are still to be written at the byte `i`, when those up to
`start` are written. -/
def copies (text : Bytes) (start i : Nat) : Bytes → List Bytes
  | [] => [text.drop start]
  | b :: bs =>
    if isNeededByte b then
      text.extract start i :: utf8 (written (Char.ofUInt8 b)) :: copies text (i + 1) (i + 1) bs
    else copies text start (i + 1) bs

def letters : List (Char × UInt8) :=
  [('"', Ascii.quote), ('\\', Ascii.backslash), ('\x08', 0x62), ('\t', Ascii.lowerT),
    ('\n', Ascii.lowerN), ('\x0c', Ascii.lowerF), ('\r', 0x72)]

def hexDigits : Bytes := utf8 "0123456789abcdef"

def spelled (c : Char) : Bytes :=
  match letters.lookup c with
  | some l => [Ascii.backslash, l]
  | none =>
    if c.toNat < 0x20 then
      utf8 "\\u00" ++ [hexDigits.getD (c.toNat / 16) 0, hexDigits.getD (c.toNat % 16) 0]
    else String.utf8EncodeChar c

def literal (s : String) : Bytes := Ascii.quote :: (s.toList.flatMap spelled ++ [Ascii.quote])

theorem of_isNeeded (p : Char → Prop) (h : isNeeded c = true)
    (hcontrol : ∀ n < 0x20, p (Char.ofNat n)) (hquote : p '"') (hbackslash : p '\\') : p c := by
  simp only [isNeeded, Bool.or_eq_true, decide_eq_true_eq, beq_iff_eq] at h
  obtain (h | rfl) | rfl := h
  · exact Char.ofNat_toNat c ▸ hcontrol _ h
  · exact hquote
  · exact hbackslash

theorem utf8_written (h : isNeeded c = true) : utf8 (written c) = spelled c :=
  of_isNeeded (fun c => utf8 (written c) = spelled c) h (by decide) (by decide) (by decide)

theorem spelled_of_not_isNeeded (h : ¬ isNeeded c = true) :
    spelled c = String.utf8EncodeChar c := by
  have hletters : ∀ p ∈ letters, isNeeded p.1 = true := by decide
  have hlookup : letters.lookup c = none := by
    refine List.lookup_eq_none_iff.mpr fun p hp => ?_
    rw [bne_iff_ne]
    rintro rfl
    exact h (hletters p hp)
  have hc := (raw_of_not_isNeeded h).1
  rw [spelled, hlookup]
  exact if_neg (Nat.not_lt_of_le hc)

theorem isNeeded_of_isNeededByte (h : isNeededByte b = true) :
    isNeeded (Char.ofUInt8 b) = true := by
  simp only [isNeededByte, Ascii.isControl, Bool.or_eq_true, decide_eq_true_eq, beq_iff_eq] at h
  obtain (h | rfl) | rfl := h
  · have hb : (Char.ofUInt8 b).toNat < 0x20 := UInt8.lt_iff_toNat_lt.mp h
    simp [isNeeded, hb]
  · rfl
  · rfl

theorem isNeededByte_ascii (h : isNeededByte b = true) : b < 0x80 := by
  simp only [isNeededByte, Ascii.isControl, Bool.or_eq_true, decide_eq_true_eq, beq_iff_eq] at h
  obtain (h | rfl) | rfl := h
  · exact UInt8.lt_trans h (by decide)
  · decide
  · decide

theorem not_isNeededByte_of_mem (h : ¬ isNeeded c = true) (hb : b ∈ String.utf8EncodeChar c) :
    ¬ isNeededByte b = true := by
  intro hn
  obtain rfl := eq_ofUInt8_of_mem_encode (isNeededByte_ascii hn) hb
  exact h (isNeeded_of_isNeededByte hn)

theorem exists_byte_of_isNeeded (h : isNeeded c = true) :
    ∃ b, String.utf8EncodeChar c = [b] ∧ isNeededByte b = true ∧ Char.ofUInt8 b = c := by
  refine ⟨UInt8.ofNat c.toNat, ?_⟩
  exact of_isNeeded (fun c => String.utf8EncodeChar c = [UInt8.ofNat c.toNat] ∧
    isNeededByte (UInt8.ofNat c.toNat) = true ∧ Char.ofUInt8 (UInt8.ofNat c.toNat) = c) h
    (by decide) (by decide) (by decide)

theorem utf8_ofList_reverse_cons (c : Char) (run : List Char) :
    utf8 (String.ofList (c :: run).reverse) =
      utf8 (String.ofList run.reverse) ++ String.utf8EncodeChar c := by
  rw [utf8_ofList, utf8_ofList, List.reverse_cons, List.flatMap_append, List.flatMap_singleton]

theorem copies_append {start i : Nat} (h : ∀ b ∈ bs, ¬ isNeededByte b = true) :
    copies text start i (bs ++ rest) = copies text start (i + bs.length) rest := by
  induction bs generalizing i with
  | nil => rfl
  | cons b bs ih =>
    obtain ⟨hb, hbs⟩ := List.forall_mem_cons.mp h
    rw [List.cons_append, copies, if_neg hb, ih hbs, List.length_cons, Nat.add_assoc,
      Nat.add_comm 1]

/-- The loop over bytes copies the stretches. -/
theorem copies_eq_stretches (cs : List Char)
    (h : text = x ++ (utf8 (String.ofList run.reverse) ++ cs.flatMap String.utf8EncodeChar)) :
    copies text x.length (x.length + (utf8 (String.ofList run.reverse)).length)
      (cs.flatMap String.utf8EncodeChar) = (stretches run cs).map utf8 := by
  induction cs generalizing run x with
  | nil =>
    rw [h, stretches]
    simp [copies]
  | cons c cs ih =>
    rw [List.flatMap_cons] at h ⊢
    rw [stretches]
    split
    · rename_i hc
      obtain ⟨b, hb, hneeded, rfl⟩ := exists_byte_of_isNeeded hc
      rw [hb] at h ⊢
      have hcopied : text.extract x.length (x.length + (utf8 (String.ofList run.reverse)).length) =
          utf8 (String.ofList run.reverse) := by
        simp [h, List.extract_eq_take_drop]
      have hnone : utf8 (String.ofList [].reverse) = [] := rfl
      have hnext := @ih (x ++ utf8 (String.ofList run.reverse) ++ [b]) [] (by
        rw [h, hnone]
        simp only [List.nil_append, List.append_assoc])
      rw [hnone, List.length_nil, List.length_append, List.length_append] at hnext
      rw [List.singleton_append, copies, if_pos hneeded, hcopied, List.map_cons, List.map_cons]
      exact congrArg _ (congrArg _ hnext)
    · rename_i hc
      have hnext := @ih x (c :: run) (by rw [h, utf8_ofList_reverse_cons, List.append_assoc])
      rw [copies_append fun b hb => not_isNeededByte_of_mem hc hb, Nat.add_assoc,
        ← List.length_append, ← utf8_ofList_reverse_cons]
      exact hnext

theorem map_utf8_quoted (s : String) :
    (quoted s).map utf8 = [Ascii.quote] :: (copies (utf8 s) 0 0 (utf8 s) ++ [[Ascii.quote]]) := by
  have h := @copies_eq_stretches (utf8 s) [] [] s.toList (utf8_eq_flatMap s)
  rw [← utf8_eq_flatMap] at h
  rw [quoted, List.map_cons, List.map_append, ← h]
  rfl

theorem flatMap_utf8_stretches (run cs : List Char) :
    (stretches run cs).flatMap utf8 =
      utf8 (String.ofList run.reverse) ++ cs.flatMap spelled := by
  induction cs generalizing run with
  | nil => simp [stretches]
  | cons c cs ih =>
    rw [stretches, List.flatMap_cons]
    split
    · rename_i h
      rw [List.flatMap_cons, List.flatMap_cons, ih, utf8_written h]
      rfl
    · rename_i h
      rw [ih, utf8_ofList_reverse_cons, spelled_of_not_isNeeded h, List.append_assoc]

@[simp] theorem flatMap_utf8_quoted (s : String) : (quoted s).flatMap utf8 = literal s := by
  rw [quoted, List.flatMap_cons, List.flatMap_append, flatMap_utf8_stretches]
  rfl

theorem space_le_of_mem_spelled (hb : b ∈ spelled c) : Ascii.space ≤ b := by
  by_cases h : isNeeded c = true
  · have hall : (spelled c).all (fun b => decide (Ascii.space ≤ b)) = true :=
      of_isNeeded (fun c => (spelled c).all (fun b => decide (Ascii.space ≤ b)) = true) h
        (by decide) (by decide) (by decide)
    exact forall_mem_bytes hall b hb
  · rw [spelled_of_not_isNeeded h] at hb
    refine UInt8.not_lt.mp fun hlt => h ?_
    obtain rfl := eq_ofUInt8_of_mem_encode (UInt8.lt_trans hlt (by decide)) hb
    exact isNeeded_of_isNeededByte (by simp [isNeededByte, Ascii.isControl, hlt])

theorem space_le_of_mem_literal {s : String} (hb : b ∈ literal s) : Ascii.space ≤ b := by
  simp only [literal, List.mem_cons, List.mem_append, List.mem_flatMap, List.not_mem_nil,
    or_false] at hb
  obtain rfl | ⟨c, -, hb⟩ | rfl := hb
  · decide
  · exact space_le_of_mem_spelled hb
  · decide

theorem stringText_literal (s : String) : StringText (literal s) s :=
  flatMap_utf8_quoted s ▸ stringText_quoted s

end Escape

open Escape in
/-- A string is written as the loop over its bytes copies it, which is each character by itself
between quotes. The literal is text without control characters, and is read back as one token
whatever comes behind it. -/
theorem read_literal (s : String) :
    (quoted s).map utf8 = [Ascii.quote] :: (copies (utf8 s) 0 0 (utf8 s) ++ [[Ascii.quote]]) ∧
      (∀ l, utf8 ((Value.string s).render l) = literal s) ∧
      (text? (literal s)).isSome ∧ (∀ b ∈ literal s, Ascii.space ≤ b) ∧
      ∀ {σ : Type} [Source σ] {source : σ} (rest : Bytes),
        Source.Alike source (Slice.ofBytes (literal s ++ rest)) →
        ReadsLiteral (.ofSource source) (literal s) rest s := by
  have hrender : ∀ l, utf8 ((Value.string s).render l) = literal s := by
    intro l
    rw [Value.utf8_render, Value.pieces, Value.emit, List.append_nil, ← flatMap_utf8_quoted,
      Piece.bytes, Piece.quoted, List.flatMap_map]
    rfl
  refine ⟨map_utf8_quoted s, hrender, ?_, fun b => space_le_of_mem_literal,
    fun rest h => readsLiteral_of_stringText (stringText_literal s) h⟩
  rw [← hrender .compact, text?_utf8]
  rfl

/-- Escapes side by side and at both ends, with bytes behind them that are no text. -/
theorem read_literal_hard :
    Source.Alike (Slice.ofBytes (utf8 "\"\\t\\\"\\u001fé/\\n\"" ++ [0x22, 0xFF]))
        (Slice.ofBytes (Escape.literal "\t\"\x1fé/\n" ++ [0x22, 0xFF])) ∧
      ReadsLiteral (.ofSource (Slice.ofBytes (utf8 "\"\\t\\\"\\u001fé/\\n\"" ++ [0x22, 0xFF])))
        (Escape.literal "\t\"\x1fé/\n") [0x22, 0xFF] "\t\"\x1fé/\n" := by
  have hlit : Escape.literal "\t\"\x1fé/\n" = utf8 "\"\\t\\\"\\u001fé/\\n\"" := by decide
  have h := Source.Alike.refl (Slice.ofBytes (utf8 "\"\\t\\\"\\u001fé/\\n\"" ++ [0x22, 0xFF]))
  rw [← hlit] at h ⊢
  obtain ⟨-, -, -, -, hread⟩ := read_literal "\t\"\x1fé/\n"
  exact ⟨h, hread [0x22, 0xFF] h⟩

end ExactJson
