import ExactJson.Text.Escape
import ExactJson.Proofs.Text.Encoding

/-! The grammar of string literals: each character of the text is spelled as it is or by an escape.
A literal whose raw bytes and escapes together make well-formed UTF-8 spells a text so. -/
namespace ExactJson
namespace Grammar

inductive ShortEscape : UInt8 → Char → Prop where
  | quote : ShortEscape Ascii.quote '"'
  | backslash : ShortEscape Ascii.backslash '\\'
  | solidus : ShortEscape 0x2F '/'
  | backspace : ShortEscape 0x62 '\x08'
  | formFeed : ShortEscape Ascii.lowerF '\x0c'
  | lineFeed : ShortEscape Ascii.lowerN '\n'
  | carriageReturn : ShortEscape 0x72 '\r'
  | tab : ShortEscape Ascii.lowerT '\t'

/-- The hexadecimal digits `0` to `9`, `A` to `F` and `a` to `f` with their values. -/
inductive HexDigit : UInt8 → Nat → Prop where
  | decimal {b : UInt8} {n : Nat} (hb : b.toNat = 0x30 + n) (hn : n < 10) : HexDigit b n
  | upper {b : UInt8} {n : Nat} (hb : b.toNat = 0x41 + n) (hn : n < 6) : HexDigit b (10 + n)
  | lower {b : UInt8} {n : Nat} (hb : b.toNat = 0x61 + n) (hn : n < 6) : HexDigit b (10 + n)

inductive Hex4 : Bytes → Nat → Prop where
  | mk {a b c d : UInt8} {i j k l : Nat} (ha : HexDigit a i) (hb : HexDigit b j)
      (hc : HexDigit c k) (hd : HexDigit d l) :
      Hex4 [a, b, c, d] (0x1000 * i + 0x100 * j + 0x10 * k + l)

/-- The escapes, and the character that each means. Half of a pair of code units means none. -/
inductive EscapeText : Bytes → Char → Prop where
  | short {b : UInt8} {c : Char} (h : ShortEscape b c) : EscapeText [Ascii.backslash, b] c
  | unit {ds : Bytes} {c : Char} (h : Hex4 ds c.toNat) :
      EscapeText (Ascii.backslash :: Ascii.lowerU :: ds) c
  | pair {ds es : Bytes} {u v : Nat} {c : Char} (hd : Hex4 ds u) (he : Hex4 es v)
      (hu : 0xD800 ≤ u ∧ u ≤ 0xDBFF) (hv : 0xDC00 ≤ v ∧ v ≤ 0xDFFF)
      (hc : c.toNat = 0x10000 + (u - 0xD800) * 0x400 + (v - 0xDC00)) :
      EscapeText (Ascii.backslash :: Ascii.lowerU :: ds ++ Ascii.backslash :: Ascii.lowerU :: es) c

inductive Spelling : Bytes → Char → Prop where
  | raw {c : Char} (hc : 0x20 ≤ c.toNat) (hq : c ≠ '"') (hb : c ≠ '\\') :
      Spelling (String.utf8EncodeChar c) c
  | escape {x : Bytes} {c : Char} (h : EscapeText x c) : Spelling x c

inductive Spellings : Bytes → List Char → Prop where
  | nil : Spellings [] []
  | cons {x y : Bytes} {c : Char} {cs : List Char} (h : Spelling x c) (hs : Spellings y cs) :
      Spellings (x ++ y) (c :: cs)

def StringText (bs : Bytes) (s : String) : Prop :=
  ∃ x, Spellings x s.toList ∧ bs = Ascii.quote :: (x ++ [Ascii.quote])

theorem Spellings.append {x y : Bytes} {cs ds : List Char} (h : Spellings x cs)
    (hy : Spellings y ds) : Spellings (x ++ y) (cs ++ ds) := by
  induction h with
  | nil => exact hy
  | cons h hs ih =>
    rw [List.append_assoc]
    exact .cons h ih

theorem Spellings.raw {cs : List Char} (h : ∀ c ∈ cs, 0x20 ≤ c.toNat ∧ c ≠ '"' ∧ c ≠ '\\') :
    Spellings (cs.flatMap String.utf8EncodeChar) cs := by
  induction cs with
  | nil => exact .nil
  | cons c cs ih =>
    obtain ⟨hc, hq, hb⟩ := h c List.mem_cons_self
    exact .cons (.raw hc hq hb) (ih fun d hd => h d (List.mem_cons_of_mem c hd))

theorem ShortEscape.ascii {b : UInt8} {c : Char} (h : ShortEscape b c) : b < 0x80 := by
  cases h <;> decide

theorem HexDigit.ascii {b : UInt8} {n : Nat} (h : HexDigit b n) : b < 0x80 := by
  have h₁ : (0x80 : UInt8).toNat = 128 := rfl
  apply UInt8.lt_iff_toNat_lt.mpr
  cases h <;> omega

theorem Hex4.ascii {ds : Bytes} {u : Nat} (h : Hex4 ds u) : ∀ d ∈ ds, d < 0x80 := by
  cases h with
  | mk ha hb hc hd =>
    intro e he
    simp only [List.mem_cons, List.not_mem_nil, or_false] at he
    obtain rfl | rfl | rfl | rfl := he
    · exact ha.ascii
    · exact hb.ascii
    · exact hc.ascii
    · exact hd.ascii

theorem EscapeText.ascii {x : Bytes} {c : Char} (h : EscapeText x c) : ∀ b ∈ x, b < 0x80 := by
  have hs : Ascii.backslash < 0x80 := by decide
  have hu : Ascii.lowerU < 0x80 := by decide
  intro b hb
  cases h with
  | short h =>
    simp only [List.mem_cons, List.not_mem_nil, or_false] at hb
    obtain rfl | rfl := hb
    · exact hs
    · exact h.ascii
  | unit h =>
    simp only [List.mem_cons] at hb
    obtain rfl | rfl | hb := hb
    · exact hs
    · exact hu
    · exact h.ascii b hb
  | pair hd he _ _ _ =>
    simp only [List.mem_append, List.mem_cons] at hb
    obtain (rfl | rfl | hb) | rfl | rfl | hb := hb
    · exact hs
    · exact hu
    · exact hd.ascii b hb
    · exact hs
    · exact hu
    · exact he.ascii b hb

theorem exists_utf8 {x : Bytes} (h : ∀ b ∈ x, b < 0x80) : ∃ s, Text.utf8 s = x :=
  ⟨Text.ofAscii x, Text.utf8_ofAscii h⟩

theorem Spellings.exists_utf8 {x : Bytes} {cs : List Char} (h : Spellings x cs) :
    ∃ s, Text.utf8 s = x := by
  induction h with
  | nil => exact ⟨"", rfl⟩
  | @cons x y c cs h hs ih =>
    obtain ⟨t, rfl⟩ := ih
    have hx : ∃ s, Text.utf8 s = x := by
      cases h with
      | raw =>
        refine ⟨String.ofList [c], ?_⟩
        rw [Text.utf8_ofList, List.flatMap_cons, List.flatMap_nil, List.append_nil]
      | escape h => exact Grammar.exists_utf8 h.ascii
    obtain ⟨s, rfl⟩ := hx
    exact ⟨s ++ t, Text.utf8_append s t⟩

inductive Part where
  | raw (b : UInt8)
  | escape (x : Bytes) (c : Char)

namespace Part

def Legal : Part → Prop
  | raw b => b ≠ Ascii.quote ∧ b ≠ Ascii.backslash ∧ Ascii.isControl b = false
  | escape x c => EscapeText x c

def literal : Part → Bytes
  | raw b => [b]
  | escape x _ => x

def text : Part → Bytes
  | raw b => [b]
  | escape _ c => String.utf8EncodeChar c

theorem text_ne_nil (p : Part) : p.text ≠ [] := by
  cases p with
  | raw b => exact List.cons_ne_nil b []
  | escape x c => exact Text.encode_ne_nil c

theorem eq_raw_append {ps : List Part} {bs rest : Bytes} (hbs : ∀ b ∈ bs, ¬ b.IsUTF8FirstByte)
    (h : ps.flatMap text = bs ++ rest) : ∃ qs, ps = bs.map raw ++ qs ∧ qs.flatMap text = rest := by
  induction bs generalizing ps with
  | nil => exact ⟨ps, rfl, h⟩
  | cons b bs ih =>
    cases ps with
    | nil => cases h
    | cons p ps =>
      cases p with
      | raw a =>
        simp only [List.flatMap_cons, text, List.cons_append, List.cons.injEq] at h
        obtain ⟨rfl, h⟩ := h
        obtain ⟨qs, rfl, hq⟩ := ih (fun c hc => hbs c (List.mem_cons_of_mem a hc)) h
        exact ⟨qs, rfl, hq⟩
      | escape x c =>
        obtain ⟨a, as, hc, ha, -⟩ := Text.encode_eq_cons c
        simp only [List.flatMap_cons, text, hc, List.cons_append, List.cons.injEq] at h
        exact absurd (h.1 ▸ ha) (hbs b List.mem_cons_self)

@[simp] theorem flatMap_literal_raw (bs : Bytes) : (bs.map raw).flatMap literal = bs := by
  induction bs with
  | nil => rfl
  | cons b bs ih => simp [literal, ih]

@[simp] theorem flatMap_text_raw (bs : Bytes) : (bs.map raw).flatMap text = bs := by
  induction bs with
  | nil => rfl
  | cons b bs ih => simp [text, ih]

theorem spelling_raw {c : Char} {b : UInt8} {bs : Bytes} (he : String.utf8EncodeChar c = b :: bs)
    (hb : (raw b).Legal) : Spelling (String.utf8EncodeChar c) c := by
  obtain ⟨hq, hs, hctl⟩ := hb
  have hne (d : Char) (hd : [b] ≠ (String.utf8EncodeChar d).take 1) : c ≠ d := by
    rintro rfl
    exact hd (by rw [he]; rfl)
  refine .raw (Nat.le_of_not_lt fun hlt => ?_) (hne '"' ?_) (hne '\\' ?_)
  · rw [Text.encode_ascii (by omega)] at he
    rw [← (List.cons.inj he).1] at hctl
    have hn : (UInt8.ofNat c.toNat).toNat = c.toNat :=
      UInt8.toNat_ofNat_of_lt' (show _ < 256 by omega)
    have h20 : Ascii.space.toNat = 0x20 := rfl
    simp only [Ascii.isControl, UInt8.lt_iff_toNat_lt, decide_eq_false_iff_not] at hctl
    omega
  · exact fun h => hq (List.cons.inj h).1
  · exact fun h => hs (List.cons.inj h).1

end Part

/-- Parts whose text is the encoding of characters spell these characters. -/
theorem spellings_of_parts {ps : List Part} {cs : List Char} (hp : ∀ p ∈ ps, p.Legal)
    (h : ps.flatMap Part.text = cs.flatMap String.utf8EncodeChar) :
    Spellings (ps.flatMap Part.literal) cs := by
  induction cs generalizing ps with
  | nil =>
    cases ps with
    | nil => exact .nil
    | cons p ps =>
      rw [List.flatMap_cons, List.flatMap_nil, List.append_eq_nil_iff] at h
      exact absurd h.1 p.text_ne_nil
  | cons c cs ih =>
    cases ps with
    | nil =>
      have hc := (List.append_eq_nil_iff.mp h.symm).1
      exact absurd hc (Text.encode_ne_nil c)
    | cons p ps =>
      have hps (q : Part) (hq : q ∈ ps) := hp q (List.mem_cons_of_mem p hq)
      cases p with
      | escape x d =>
        obtain ⟨rfl, hrest⟩ := Text.encode_append_inj (c := d) (d := c) h
        exact .cons (.escape (hp _ List.mem_cons_self)) (ih hps hrest)
      | raw b =>
        obtain ⟨a, as, he, -, has⟩ := Text.encode_eq_cons c
        simp only [List.flatMap_cons, Part.text, he, List.cons_append, List.cons.injEq] at h
        obtain ⟨rfl, h⟩ := h
        obtain ⟨qs, rfl, hq⟩ := Part.eq_raw_append has h
        have hs := Part.spelling_raw he (hp _ List.mem_cons_self)
        have hlit : (Part.raw b :: (as.map Part.raw ++ qs)).flatMap Part.literal =
            String.utf8EncodeChar c ++ qs.flatMap Part.literal := by
          rw [he, List.flatMap_cons, List.flatMap_append, Part.flatMap_literal_raw]
          rfl
        rw [hlit]
        exact .cons hs (ih (fun q hq => hps q (List.mem_append_right _ hq)) hq)

end Grammar

namespace Escape
open Grammar

theorem short?_eq_some_iff {b : UInt8} {c : Char} : short? b = some c ↔ ShortEscape b c := by
  constructor
  · intro h
    simp only [short?] at h
    repeat' split at h
    all_goals cases h
    all_goals
      subst b
      constructor
  · intro h
    cases h <;> rfl

theorem hexDigit?_eq_some_iff {b : UInt8} {n : Nat} :
    Ascii.hexDigit? b = some n ↔ HexDigit b n := by
  simp only [Ascii.hexDigit?, Ascii.isDigit, Ascii.digit, Bool.and_eq_true, decide_eq_true_eq,
    UInt8.le_iff_toNat_le, show Ascii.zero.toNat = 48 from rfl, show Ascii.nine.toNat = 57 from rfl,
    show (0x61 : UInt8).toNat = 97 from rfl, show (0x66 : UInt8).toNat = 102 from rfl,
    show (0x41 : UInt8).toNat = 65 from rfl, show (0x46 : UInt8).toNat = 70 from rfl]
  constructor
  · intro h
    split at h
    · cases h
      exact .decimal (by omega) (by omega)
    · split at h
      · cases h
        rw [show b.toNat - 87 = 10 + (b.toNat - 97) by omega]
        exact .lower (by omega) (by omega)
      · split at h
        · cases h
          rw [show b.toNat - 55 = 10 + (b.toNat - 65) by omega]
          exact .upper (by omega) (by omega)
        · cases h
  · intro h
    cases h with
    | decimal hb hn =>
      rw [if_pos (by omega), hb, Nat.add_sub_cancel_left]
    | upper hb hn =>
      rw [if_neg (by omega), if_neg (by omega), if_pos (by omega), hb]
      exact congrArg some (by omega)
    | lower hb hn =>
      rw [if_neg (by omega), if_pos (by omega), hb]
      exact congrArg some (by omega)

theorem char?_eq_some_iff {n : Nat} {c : Char} : char? n = some c ↔ c.toNat = n := by
  simp only [char?]
  constructor
  · intro h
    split at h
    · rename_i hn
      cases h
      rw [Char.ofNat, dif_pos hn]
      rfl
    · cases h
  · rintro rfl
    rw [if_pos (show c.toNat.isValidChar from c.valid), Char.ofNat_toNat]

theorem unit?_eq_some_iff {a b c d : UInt8} {u : Nat} :
    unit? [a, b, c, d] = some u ↔ Hex4 [a, b, c, d] u := by
  constructor
  · intro h
    simp only [unit?, List.foldlM_cons, List.foldlM_nil, Option.bind_eq_bind,
      Option.bind_eq_some_iff, Option.map_eq_some_iff, hexDigit?_eq_some_iff, Option.pure_def,
      Option.some.injEq] at h
    obtain ⟨_, ⟨i, ha, rfl⟩, _, ⟨j, hb, rfl⟩, _, ⟨k, hc, rfl⟩, _, ⟨l, hd, rfl⟩, rfl⟩ := h
    have hu := Hex4.mk ha hb hc hd
    rwa [show 0x1000 * i + 0x100 * j + 0x10 * k + l =
      16 * (16 * (16 * (16 * 0 + i) + j) + k) + l by omega] at hu
  · intro h
    cases h with
    | mk ha hb hc hd =>
      simp only [unit?, List.foldlM_cons, List.foldlM_nil, hexDigit?_eq_some_iff.mpr ha,
        hexDigit?_eq_some_iff.mpr hb, hexDigit?_eq_some_iff.mpr hc, hexDigit?_eq_some_iff.mpr hd,
        Option.map_some, Option.bind_eq_bind, Option.bind_some, Option.pure_def,
        Option.some.injEq]
      omega

end Escape
end ExactJson
