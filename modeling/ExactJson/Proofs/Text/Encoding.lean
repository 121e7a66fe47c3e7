import ExactJson.Text.Ascii
import ExactJson.Text.Utf8

/-! How characters lie in their encoding: which bytes start one, and that no encoding is the
beginning of another. -/
namespace ExactJson.Text

theorem text?_eq_some_iff {bs : Bytes} {s : String} : text? bs = some s ↔ utf8 s = bs :=
  ⟨utf8_of_text?, fun h => h ▸ text?_utf8 s⟩

theorem utf8_eq_flatMap (s : String) : utf8 s = s.toList.flatMap String.utf8EncodeChar := by
  rw [← utf8_ofList, String.ofList_toList]

@[simp] theorem utf8_join (ss : List String) : utf8 (String.join ss) = ss.flatMap utf8 := by
  induction ss with
  | nil => rfl
  | cons s ss ih => rw [String.join_cons, utf8_append, ih, List.flatMap_cons]

theorem utf8_injective {s t : String} (h : utf8 s = utf8 t) : s = t := by
  have hs := text?_utf8 s
  rw [h, text?_utf8] at hs
  exact (Option.some.inj hs).symm

theorem encode_ne_nil (c : Char) : String.utf8EncodeChar c ≠ [] := by
  have h := c.utf8Size_pos
  rw [← String.length_utf8EncodeChar] at h
  exact List.length_pos_iff.mp h

theorem encode_append_inj {c d : Char} {x y : Bytes}
    (h : String.utf8EncodeChar c ++ x = String.utf8EncodeChar d ++ y) : c = d ∧ x = y := by
  have hc := ByteArray.utf8DecodeChar?_utf8EncodeChar_append (b := x.toByteArray) (c := c)
  rw [← List.toByteArray_append, h, List.toByteArray_append,
    ByteArray.utf8DecodeChar?_utf8EncodeChar_append] at hc
  obtain rfl := Option.some.inj hc
  exact ⟨rfl, List.append_cancel_left h⟩

theorem encode_ascii {c : Char} (h : c.toNat < 0x80) :
    String.utf8EncodeChar c = [UInt8.ofNat c.toNat] := by
  have hc : c.val.toNat ≤ 0x7F := Nat.le_of_lt_succ h
  rw [String.utf8EncodeChar, if_pos hc]
  rfl

theorem encode_ofUInt8 {b : UInt8} (h : b < 0x80) :
    String.utf8EncodeChar (Char.ofUInt8 b) = [b] := by
  have hb : (Char.ofUInt8 b).toNat = b.toNat := rfl
  rw [encode_ascii (by rw [hb]; exact UInt8.lt_iff_toNat_lt.mp h), hb, UInt8.ofNat_toNat]

theorem encode_eq_cons (c : Char) : ∃ b bs, String.utf8EncodeChar c = b :: bs ∧
    b.IsUTF8FirstByte ∧ ∀ d ∈ bs, ¬ d.IsUTF8FirstByte := by
  cases h : String.utf8EncodeChar c with
  | nil => exact absurd h (encode_ne_nil c)
  | cons b bs =>
    have first (i : Nat) (hi : i < (b :: bs).length) : (b :: bs)[i].IsUTF8FirstByte ↔ i = 0 := by
      have hf := @UInt8.isUTF8FirstByte_getElem_utf8EncodeChar c i (by rw [h]; exact hi)
      simpa only [h] using hf
    refine ⟨b, bs, rfl, (first 0 (by simp)).mpr rfl, ?_⟩
    intro d hd
    obtain ⟨i, hi, rfl⟩ := List.mem_iff_getElem.mp hd
    have hf := first (i + 1) (by simpa using hi)
    simpa using hf

theorem isFirstByte_of_ascii {b : UInt8} (h : b < 0x80) : b.IsUTF8FirstByte := by
  have hf := UInt8.isUTF8FirstByte_getElem_zero_utf8EncodeChar (c := Char.ofUInt8 b)
  simpa only [encode_ofUInt8 h, List.getElem_cons_zero] using hf

/-- An ASCII byte in the encoding of a character is the whole of it. -/
theorem eq_ofUInt8_of_mem_encode {c : Char} {b : UInt8} (h : b < 0x80)
    (hb : b ∈ String.utf8EncodeChar c) : c = Char.ofUInt8 b := by
  obtain ⟨d, ds, he, -, hds⟩ := encode_eq_cons c
  rw [he, List.mem_cons] at hb
  obtain rfl | hb := hb
  · have hcat : String.utf8EncodeChar c ++ [] = String.utf8EncodeChar (Char.ofUInt8 b) ++ ds := by
      rw [he, encode_ofUInt8 h]
      simp
    exact (encode_append_inj hcat).1
  · exact absurd (isFirstByte_of_ascii h) (hds b hb)

theorem forall_mem_bytes {p : UInt8 → Prop} [DecidablePred p] {bs : Bytes}
    (h : bs.all (fun b => decide (p b)) = true) : ∀ b ∈ bs, p b :=
  fun b hb => of_decide_eq_true (List.all_eq_true.mp h b hb)

theorem utf8_ofAscii {bs : Bytes} (h : ∀ b ∈ bs, b < 0x80) : utf8 (ofAscii bs) = bs := by
  rw [ofAscii, utf8_ofList]
  induction bs with
  | nil => rfl
  | cons b bs ih =>
    rw [List.map_cons, List.flatMap_cons, encode_ofUInt8 (h b List.mem_cons_self),
      ih fun d hd => h d (List.mem_cons_of_mem b hd)]
    rfl

end ExactJson.Text
