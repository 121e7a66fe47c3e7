import ExactJson.Proofs.Text.StringGrammar

/-! Where well-formed UTF-8 can be cut, and that the raw bytes of a string literal are characters in
its text just if they are in the literal. -/
namespace ExactJson

namespace Text

def IsUtf8 (bs : Bytes) : Prop := ∃ s, utf8 s = bs

variable {x y : Bytes}

theorem isUtf8_iff_chars : IsUtf8 x ↔ ∃ cs : List Char, x = cs.flatMap String.utf8EncodeChar := by
  constructor
  · rintro ⟨s, rfl⟩
    exact ⟨s.toList, utf8_eq_flatMap s⟩
  · rintro ⟨cs, rfl⟩
    exact ⟨String.ofList cs, utf8_ofList cs⟩

theorem isUtf8_encode (c : Char) : IsUtf8 (String.utf8EncodeChar c) :=
  isUtf8_iff_chars.mpr ⟨[c], (List.flatMap_singleton _ c).symm⟩

theorem isUtf8_of_ascii (h : ∀ b ∈ x, b < 0x80) : IsUtf8 x := ⟨ofAscii x, utf8_ofAscii h⟩

theorem IsUtf8.append (hx : IsUtf8 x) (hy : IsUtf8 y) : IsUtf8 (x ++ y) := by
  obtain ⟨s, rfl⟩ := hx
  obtain ⟨t, rfl⟩ := hy
  exact ⟨s ++ t, utf8_append s t⟩

theorem IsUtf8.of_append (hx : IsUtf8 x) (h : IsUtf8 (x ++ y)) : IsUtf8 y := by
  obtain ⟨ds, rfl⟩ := isUtf8_iff_chars.mp hx
  induction ds with
  | nil => exact h
  | cons d ds ih =>
    obtain ⟨cs, hcs⟩ := isUtf8_iff_chars.mp h
    rw [List.flatMap_cons, List.append_assoc] at hcs
    cases cs with
    | nil => exact absurd (List.append_eq_nil_iff.mp hcs).1 (encode_ne_nil d)
    | cons c cs =>
      obtain ⟨-, hrest⟩ := encode_append_inj hcs
      exact ih (isUtf8_iff_chars.mpr ⟨_, rfl⟩) (isUtf8_iff_chars.mpr ⟨cs, hrest⟩)

/-- A byte that starts a character ends those before it. -/
theorem IsUtf8.of_first (h : IsUtf8 (x ++ y)) (hy : ∀ b ∈ y.head?, b.IsUTF8FirstByte) :
    IsUtf8 x := by
  obtain ⟨cs, hcs⟩ := isUtf8_iff_chars.mp h
  induction cs generalizing x with
  | nil =>
    obtain ⟨rfl, -⟩ := List.append_eq_nil_iff.mp hcs
    exact ⟨"", rfl⟩
  | cons c cs ih =>
    rw [List.flatMap_cons] at hcs
    obtain ⟨z, hz, hy'⟩ | ⟨z, rfl, hz⟩ := List.append_eq_append_iff.mp hcs
    · -- The cut is in the first character: at one of its ends, for inside of it no byte starts one.
      obtain ⟨a, as, ha, -, has⟩ := encode_eq_cons c
      cases x with
      | nil => exact ⟨"", rfl⟩
      | cons d x =>
        cases z with
        | nil => exact (List.append_nil (d :: x) ▸ hz) ▸ isUtf8_encode c
        | cons b z =>
          obtain ⟨-, rfl⟩ := List.cons.inj (ha.symm.trans hz)
          exact absurd (hy b (by rw [hy']; rfl)) (has b (by simp))
    · exact .append (isUtf8_encode c) (ih ⟨_, hz.symm ▸ utf8_ofList cs⟩ hz.symm)

theorem IsUtf8.between {z : Bytes} (h : IsUtf8 (x ++ (y ++ z)))
    (hy : ∀ b ∈ (y ++ z).head?, b.IsUTF8FirstByte) (hz : ∀ b ∈ z.head?, b.IsUTF8FirstByte) :
    IsUtf8 y :=
  ((h.of_first hy).of_append h).of_first hz

theorem isUtf8_enclosed {a b : UInt8} (ha : a < 0x80) (hb : b < 0x80) :
    IsUtf8 (a :: (x ++ [b])) ↔ IsUtf8 x := by
  have hfirst : IsUtf8 [a] := isUtf8_of_ascii (List.forall_mem_singleton.mpr ha)
  have hlast : IsUtf8 [b] := isUtf8_of_ascii (List.forall_mem_singleton.mpr hb)
  refine ⟨fun h => (hfirst.of_append h).of_first ?_, fun h => hfirst.append (h.append hlast)⟩
  rintro _ ⟨⟩
  exact isFirstByte_of_ascii hb

end Text

namespace Grammar
open Text

theorem EscapeText.head {x : Bytes} {c : Char} (h : EscapeText x c) :
    ∃ z, x = Ascii.backslash :: z := by
  cases h <;> exact ⟨_, rfl⟩

/-- Where the bytes of a literal are well-formed those of its text are. The bytes `z` stand before
both, as a character may have begun in them. -/
theorem Part.isUtf8_text {ps : List Part} (hp : ∀ p ∈ ps, p.Legal) {z : Bytes}
    (h : IsUtf8 (z ++ ps.flatMap literal)) : IsUtf8 (z ++ ps.flatMap text) := by
  induction ps generalizing z with
  | nil => exact h
  | cons p ps ih =>
    obtain ⟨hlegal, hps⟩ := List.forall_mem_cons.mp hp
    rw [List.flatMap_cons] at h ⊢
    cases p with
    | raw b =>
      have hb := @ih hps (z ++ [b])
      simp only [List.append_assoc] at hb
      exact hb h
    | escape x c =>
      have hascii : IsUtf8 x := isUtf8_of_ascii (EscapeText.ascii hlegal)
      have hz : IsUtf8 z := by
        obtain ⟨y, rfl⟩ := EscapeText.head hlegal
        refine h.of_first ?_
        rintro _ ⟨⟩
        exact isFirstByte_of_ascii (by decide)
      have hrest : IsUtf8 (ps.flatMap literal) :=
        (hz.append hascii).of_append (by rw [List.append_assoc]; exact h)
      exact hz.append (.append (isUtf8_encode c) (@ih hps [] hrest))

/-- Whatever the raw bytes are, the text of a literal is well-formed just if the literal is. -/
theorem Part.isUtf8_text_iff {ps : List Part} (hp : ∀ p ∈ ps, p.Legal) :
    IsUtf8 (ps.flatMap text) ↔ IsUtf8 (ps.flatMap literal) := by
  refine ⟨fun h => ?_, @isUtf8_text ps hp []⟩
  obtain ⟨cs, hcs⟩ := isUtf8_iff_chars.mp h
  exact (spellings_of_parts hp hcs).exists_utf8

theorem exists_spellings {ps : List Part} (hp : ∀ p ∈ ps, p.Legal)
    (h : IsUtf8 (ps.flatMap Part.literal)) : ∃ cs, Spellings (ps.flatMap Part.literal) cs := by
  obtain ⟨cs, hcs⟩ := isUtf8_iff_chars.mp ((Part.isUtf8_text_iff hp).mpr h)
  exact ⟨cs, spellings_of_parts hp hcs⟩

end Grammar
end ExactJson
