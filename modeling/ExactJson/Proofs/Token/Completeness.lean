import ExactJson.Proofs.Token.Soundness

/-! The lexer gives every token that stands in the document, with nothing behind it that would make
it longer. -/
namespace ExactJson
open Grammar Text

namespace Lexer
variable {p start : Position} {rest : Bytes}

theorem run_of_take {s t : State} {b : UInt8} (h : s.step p b = .take t) :
    s.run p (b :: rest) = t.run (p.next b) rest := by
  simp only [State.run, h]

theorem run_of_takeLast {s : State} {o : Outcome} {b : UInt8} (h : s.step p b = .takeLast o) :
    s.run p (b :: rest) = (o, p.next b, rest) := by
  simp only [State.run, h]

theorem run_of_leave {s : State} {o : Outcome} {b : UInt8} (h : s.step p b = .leave o) :
    s.run p (b :: rest) = (o, p, b :: rest) := by
  simp only [State.run, h]

/-- The state that the machine comes to through some bytes, if it takes them all. -/
def State.through? (s : State) (p : Position) : Bytes → Option State
  | [] => some s
  | b :: bs => match s.step p b with
    | .take next => next.through? (p.next b) bs
    | .takeLast _ | .leave _ => none

theorem through?_of_take {s t : State} {b : UInt8} (h : s.step p b = .take t) (bs : Bytes) :
    s.through? p (b :: bs) = t.through? (p.next b) bs := by
  simp only [State.through?, h]

theorem through?_append (s : State) (p : Position) (x y : Bytes) :
    s.through? p (x ++ y) = (s.through? p x).bind fun t => t.through? (p.after x) y := by
  induction x generalizing s p with
  | nil => rfl
  | cons b x ih =>
    simp only [List.cons_append, State.through?]
    cases s.step p b with
    | take next => exact ih next (p.next b)
    | takeLast outcome | leave outcome => rfl

theorem run_through {s t : State} {x : Bytes} (h : s.through? p x = some t) :
    s.run p (x ++ rest) = t.run (p.after x) rest := by
  induction x generalizing s p with
  | nil =>
    cases h
    rfl
  | cons b x ih =>
    simp only [State.through?] at h
    split at h
    · rename_i next hs
      rw [List.cons_append, run_of_take hs, ih h]
      rfl
    · cases h
    · cases h

theorem through?_blanks {w : Bytes} (hw : Blanks w) :
    State.between.through? p w = some .between := by
  induction w generalizing p with
  | nil => rfl
  | cons b w ih =>
    have hb : State.between.step p b = .take .between := if_pos (hw b List.mem_cons_self)
    rw [through?_of_take hb]
    exact ih fun d hd => hw d (List.mem_cons_of_mem b hd)

theorem run_blanks {w : Bytes} (hw : Blanks w) :
    State.between.run p (w ++ rest) = State.between.run (p.after w) rest :=
  run_through (through?_blanks hw)

theorem through?_number {s t : LiteralState} {x : Bytes} (h : s.run? x = some t)
    (literal : Bytes) : (State.number s literal start).through? p x =
      some (.number t (x.reverse ++ literal) start) := by
  induction x generalizing s p literal with
  | nil =>
    cases h
    rfl
  | cons b x ih =>
    obtain ⟨u, hu, hx⟩ := Option.bind_eq_some_iff.mp h
    have hb : (State.number s literal start).step p b = .take (.number u (b :: literal) start) := by
      simp only [State.step, hu]
    rw [through?_of_take hb, ih hx, List.reverse_cons, List.append_assoc]
    rfl

theorem endNumber_delimited {s : LiteralState} {form : NumberForm} (hf : s.form? = some form)
    (hd : Delimited rest) (literal : Bytes) :
    endNumber s literal start p rest.head? =
      token (.number form) (ofAscii literal.reverse) start p := by
  have hdigit : rest.head?.any Ascii.isDigit = false := by
    cases rest with
    | nil => rfl
    | cons b rest => exact isDigit_delimiter b (hd b rfl)
  simp [endNumber, hf, hdigit]

theorem run_number_end {s : LiteralState} (hs : ∀ b ∈ rest.head?, s.next? b = none)
    (literal : Bytes) : (State.number s literal start).run p rest =
      (endNumber s literal start p rest.head?, p, rest) := by
  cases rest with
  | nil => rfl
  | cons b rest =>
    apply run_of_leave
    simp only [State.step, hs b rfl, List.head?_cons]

theorem begin_number {b : UInt8} {s : LiteralState} (h : LiteralState.start.next? b = some s) :
    Lexer.begin p b = .take (.number s [b] p) := by
  have hd : b ∉ delimiters := by
    intro hb
    have hn : ∀ d ∈ delimiters, LiteralState.start.next? d = none := forall_mem_bytes (by decide)
    rw [hn b hb] at h
    cases h
  have hblank : ¬ Ascii.isBlank b = true := fun hb => hd (mem_delimiters_of_isBlank hb)
  have hmark : mark? b = none :=
    Option.eq_none_iff_forall_ne_some.mpr fun c hc => hd (mem_delimiters_of_mark? hc)
  have hquote : b ≠ Ascii.quote := by
    rintro rfl
    cases h
  simp only [Lexer.begin, hblank, hmark, hquote, h, if_false, Bool.false_eq_true]

theorem run_literal {s : LiteralState} {x : Bytes} (h : LiteralState.start.run? x = some s)
    (hx : x ≠ []) (hs : ∀ b ∈ rest.head?, s.next? b = none) :
    State.between.run p (x ++ rest) =
      (endNumber s x.reverse p (p.after x) rest.head?, p.after x, rest) := by
  cases x with
  | nil => exact absurd rfl hx
  | cons b x =>
    obtain ⟨t, ht, h⟩ := Option.bind_eq_some_iff.mp h
    have hb : State.between.step p b = .take (.number t [b] p) := begin_number ht
    rw [List.cons_append, run_of_take hb, run_through (through?_number h [b]), run_number_end hs,
      List.reverse_cons]
    rfl

theorem run_numberText {form : NumberForm} {x : Bytes} (h : NumberText form x)
    (hd : Delimited rest) : State.between.run p (x ++ rest) =
      (token (.number form) (ofAscii x) p (p.after x), p.after x, rest) := by
  obtain ⟨t, ht, hf⟩ := LiteralState.run?_of_numberText h
  have hx : x ≠ [] := by
    rintro rfl
    cases ht
    cases hf
  rw [run_literal ht hx fun b hb => next?_delimiter hf (hd b hb), endNumber_delimited hf hd,
    List.reverse_reverse]

@[simp] theorem through?_keyword (word : Keyword) (x : Bytes) :
    (State.keyword word x start).through? p x = some (.keyword word [] start) := by
  induction x generalizing p with
  | nil => rfl
  | cons b x ih =>
    have hb : (State.keyword word (b :: x) start).step p b = .take (.keyword word x start) :=
      if_pos rfl
    rw [through?_of_take hb]
    exact ih

theorem run_keyword_end (word : Keyword) (hd : Delimited rest) :
    (State.keyword word [] start).run p rest =
      (token word.content word.spelling start p, p, rest) := by
  cases rest with
  | nil => rfl
  | cons b rest =>
    have hb : (some b).filter Ascii.isWordByte = none := by
      rw [Option.filter, isWordByte_delimiter b (hd b rfl)]
      rfl
    apply run_of_leave
    simp only [State.step, endKeyword, hb]

theorem run_word (word : Keyword) (hd : Delimited rest) :
    State.between.run p (utf8 word.spelling ++ rest) =
      (token word.content word.spelling p (p.after (utf8 word.spelling)),
        p.after (utf8 word.spelling), rest) := by
  obtain ⟨b, x, hx, hb⟩ : ∃ b x, utf8 word.spelling = b :: x ∧
      State.between.step p b = .take (.keyword word x p) := by
    cases word <;> exact ⟨_, _, rfl, rfl⟩
  rw [hx, List.cons_append, run_of_take hb, run_through (through?_keyword word x),
    run_keyword_end word hd]
  rfl

def OpenString.grow (o : OpenString) (x y : Bytes) : OpenString :=
  { o with literal := x.reverse ++ o.literal, text := y.reverse ++ o.text, lead := none }

theorem OpenString.grow_nil {o : OpenString} (h : o.lead = none) : o.grow [] [] = o := by
  cases o
  cases h
  rfl

theorem OpenString.grow_grow (o : OpenString) (x y x' y' : Bytes) :
    (o.grow x y).grow x' y' = o.grow (x ++ x') (y ++ y') := by
  simp [grow]

def OpenString.writes (o : OpenString) (x : Bytes) : OpenString :=
  { o with literal := x.reverse ++ o.literal }

theorem OpenString.addChar_writes (o : OpenString) (x : Bytes) (c : Char) :
    (o.writes x).addChar c = o.grow x (String.utf8EncodeChar c) := by
  simp [grow, writes, addChar, List.reverseAux_eq]

variable {o : OpenString}

theorem through?_raw {b : UInt8} (h : (Part.raw b).Legal) (ho : o.lead = none) :
    (State.string o).through? p [b] = some (.string (o.grow [b] [b])) := by
  obtain ⟨hq, hs, hc⟩ := h
  have hb : (State.string o).step p b = .take (.string (o.grow [b] [b])) := by
    simp only [State.step, stringByte, hq, hs, hc, ho, if_false, Bool.false_eq_true]
    rw [OpenString.grow, ← ho]
    rfl
  rw [through?_of_take hb]
  rfl

theorem legal_encode {c : Char} (hc : 0x20 ≤ c.toNat) (hq : c ≠ '"') (hs : c ≠ '\\') :
    ∀ b ∈ String.utf8EncodeChar c, (Part.raw b).Legal := by
  intro b hb
  refine ⟨?_, ?_, ?_⟩
  · rintro rfl
    exact hq (eq_ofUInt8_of_mem_encode (by decide) hb)
  · rintro rfl
    exact hs (eq_ofUInt8_of_mem_encode (by decide) hb)
  · apply decide_eq_false
    intro hlt
    have hn : b.toNat < 0x20 := UInt8.lt_iff_toNat_lt.mp hlt
    have hb₈ : b < 0x80 := UInt8.lt_iff_toNat_lt.mpr (Nat.lt_trans hn (by decide))
    obtain rfl := eq_ofUInt8_of_mem_encode hb₈ hb
    exact absurd hc (Nat.not_le_of_lt hn)

theorem exists_parts_of_spellings {x : Bytes} {cs : List Char} (h : Spellings x cs) :
    ∃ ps : List Part, (∀ q ∈ ps, q.Legal) ∧ x = ps.flatMap Part.literal ∧
      cs.flatMap String.utf8EncodeChar = ps.flatMap Part.text := by
  induction h with
  | nil => exact ⟨[], List.forall_mem_nil _, rfl, rfl⟩
  | @cons x y c cs h hs ih =>
    obtain ⟨ps, hps, rfl, htext⟩ := ih
    cases h with
    | raw hc hq hb =>
      refine ⟨(String.utf8EncodeChar c).map .raw ++ ps, fun q hq' => ?_, ?_, ?_⟩
      · obtain hq' | hq' := List.mem_append.mp hq'
        · obtain ⟨b, hb', rfl⟩ := List.mem_map.mp hq'
          exact legal_encode hc hq hb b hb'
        · exact hps q hq'
      · rw [List.flatMap_append, Part.flatMap_literal_raw]
      · rw [List.flatMap_append, Part.flatMap_text_raw, List.flatMap_cons, htext]
    | escape h =>
      refine ⟨.escape x c :: ps, List.forall_mem_cons.mpr ⟨h, hps⟩, rfl, ?_⟩
      rw [List.flatMap_cons, List.flatMap_cons, htext]
      rfl

theorem through?_short {b : UInt8} {c : Char} (h : ShortEscape b c) (ho : o.lead = none) :
    (State.string o).through? p [Ascii.backslash, b] =
      some (.string (o.grow [Ascii.backslash, b] (String.utf8EncodeChar c))) := by
  have hs : (State.string o).step p Ascii.backslash =
      .take (.escape (o.write Ascii.backslash) p) := rfl
  have hu : b ≠ Ascii.lowerU := by
    rintro rfl
    cases h
  have hb : (State.escape (o.write Ascii.backslash) p).step (p.next Ascii.backslash) b =
      .take (.string (((o.write Ascii.backslash).write b).addChar c)) := by
    have hl : (o.write Ascii.backslash).lead = none := ho
    simp only [State.step, escapeByte, hu, hl, Escape.short?_eq_some_iff.mpr h, if_false]
  rw [through?_of_take hs, through?_of_take hb, ← OpenString.addChar_writes]
  rfl

theorem resolve?_char (c : Char) : Escape.resolve? none c.toNat = some (.char c) := by
  have hc : c.toNat < 0xD800 ∨ 0xDFFF < c.toNat ∧ c.toNat < 0x110000 := c.valid
  have hlead : Escape.isLead c.toNat = false := by
    simp only [Escape.isLead, Bool.and_eq_false_iff, decide_eq_false_iff_not]
    omega
  have htrail : Escape.isTrail c.toNat = false := by
    simp only [Escape.isTrail, Bool.and_eq_false_iff, decide_eq_false_iff_not]
    omega
  simp [Escape.resolve?, hlead, htrail, Escape.char?_eq_some_iff.mpr rfl]

theorem isLead_iff {u : Nat} : Escape.isLead u = true ↔ 0xD800 ≤ u ∧ u ≤ 0xDBFF := by
  simp only [Escape.isLead, Bool.and_eq_true, decide_eq_true_eq]

theorem isTrail_iff {u : Nat} : Escape.isTrail u = true ↔ 0xDC00 ≤ u ∧ u ≤ 0xDFFF := by
  simp only [Escape.isTrail, Bool.and_eq_true, decide_eq_true_eq]

theorem resolve?_pair {u v : Nat} {c : Char} (hu : Escape.isLead u = true)
    (hv : Escape.isTrail v = true)
    (hc : c.toNat = 0x10000 + (u - 0xD800) * 0x400 + (v - 0xDC00)) :
    Escape.resolve? (some u) v = some (.char c) := by
  have hp : Escape.pair? u v = some c.toNat := by
    rw [Escape.pair?, hu, hv, hc]
    exact if_pos rfl
  rw [Escape.resolve?, hp, Option.bind_some, Escape.char?_eq_some_iff.mpr rfl]
  rfl

theorem unit?_of_hex4 {ds : Bytes} {u : Nat} (h : Hex4 ds u) : Escape.unit? ds = some u := by
  cases h with
  | mk ha hb hc hd => exact Escape.unit?_eq_some_iff.mpr (.mk ha hb hc hd)

theorem through?_unit {ds : Bytes} {u : Nat} (h : Hex4 ds u) {next : State}
    (hn : codeUnit (o.writes (Ascii.backslash :: Ascii.lowerU :: ds)) p ds = .take next) :
    (State.string o).through? p (Ascii.backslash :: Ascii.lowerU :: ds) = some next := by
  cases h with
  | @mk a b c d _ _ _ _ ha hb hc hd =>
    have hs : (State.string o).step p Ascii.backslash =
        .take (.escape (o.write Ascii.backslash) p) := rfl
    have hlast (q : Position) : (State.unicode (((((o.write Ascii.backslash).write
        Ascii.lowerU).write a).write b).write c) p [c, b, a]).step q d = .take next := hn
    rw [through?_of_take hs, through?_of_take rfl, through?_of_take rfl, through?_of_take rfl,
      through?_of_take rfl, through?_of_take (hlast _)]
    rfl

theorem through?_unit_char {ds : Bytes} {c : Char} (h : Hex4 ds c.toNat) (ho : o.lead = none) :
    (State.string o).through? p (Ascii.backslash :: Ascii.lowerU :: ds) =
      some (.string (o.grow (Ascii.backslash :: Ascii.lowerU :: ds)
        (String.utf8EncodeChar c))) := by
  apply through?_unit h
  have hl : (o.writes (Ascii.backslash :: Ascii.lowerU :: ds)).lead = none := ho
  simp only [codeUnit, unit?_of_hex4 h, hl, resolve?_char, OpenString.addChar_writes]

theorem through?_pair {ds es : Bytes} {u v : Nat} {c : Char} (hd : Hex4 ds u) (he : Hex4 es v)
    (hu : 0xD800 ≤ u ∧ u ≤ 0xDBFF) (hv : 0xDC00 ≤ v ∧ v ≤ 0xDFFF)
    (hc : c.toNat = 0x10000 + (u - 0xD800) * 0x400 + (v - 0xDC00)) (ho : o.lead = none) :
    (State.string o).through? p
        (Ascii.backslash :: Ascii.lowerU :: ds ++ Ascii.backslash :: Ascii.lowerU :: es) =
      some (.string (o.grow (Ascii.backslash :: Ascii.lowerU :: ds ++ Ascii.backslash ::
        Ascii.lowerU :: es) (String.utf8EncodeChar c))) := by
  have hl : (o.writes (Ascii.backslash :: Ascii.lowerU :: ds)).lead = none := ho
  have hu' := isLead_iff.mpr hu
  have hlead : codeUnit (o.writes (Ascii.backslash :: Ascii.lowerU :: ds)) p ds =
      .take (.string { o.writes (Ascii.backslash :: Ascii.lowerU :: ds) with lead := some u }) := by
    simp only [codeUnit, unit?_of_hex4 hd, hl, Escape.resolve?, hu', if_true]
  have htrail (q : Position) : codeUnit
      (OpenString.writes { o.writes (Ascii.backslash :: Ascii.lowerU :: ds) with lead := some u }
        (Ascii.backslash :: Ascii.lowerU :: es)) q es =
      .take (.string (o.grow (Ascii.backslash :: Ascii.lowerU :: ds ++ Ascii.backslash ::
        Ascii.lowerU :: es) (String.utf8EncodeChar c))) := by
    simp only [codeUnit, unit?_of_hex4 he, OpenString.writes,
      resolve?_pair hu' (isTrail_iff.mpr hv) hc]
    simp [OpenString.grow, OpenString.addChar, List.reverseAux_eq]
  rw [through?_append, through?_unit hd hlead, Option.bind_some]
  exact through?_unit he (htrail _)

theorem through?_part {q : Part} (h : q.Legal) (ho : o.lead = none) :
    (State.string o).through? p q.literal = some (.string (o.grow q.literal q.text)) := by
  cases q with
  | raw b => exact through?_raw h ho
  | escape x c =>
    cases h with
    | short h => exact through?_short h ho
    | unit h => exact through?_unit_char h ho
    | pair hd he hu hv hc => exact through?_pair hd he hu hv hc ho

/-- A string takes any parts, whether or not they make characters. -/
theorem through?_parts {ps : List Part} (h : ∀ q ∈ ps, q.Legal) (ho : o.lead = none) :
    (State.string o).through? p (ps.flatMap Part.literal) =
      some (.string (o.grow (ps.flatMap Part.literal) (ps.flatMap Part.text))) := by
  induction ps generalizing o p with
  | nil =>
    rw [List.flatMap_nil, List.flatMap_nil, OpenString.grow_nil ho]
    rfl
  | cons q ps ih =>
    obtain ⟨hq, hps⟩ := List.forall_mem_cons.mp h
    rw [List.flatMap_cons, through?_append, through?_part hq ho, Option.bind_some, ih hps rfl,
      OpenString.grow_grow]
    rfl

theorem run_stringText {x : Bytes} {s lexeme : String} (h : StringText x s)
    (hl : utf8 lexeme = x) : State.between.run p (x ++ rest) =
      (token (.string s) lexeme p (p.after x), p.after x, rest) := by
  obtain ⟨y, hy, rfl⟩ := h
  obtain ⟨ps, hps, hliteral, hcs⟩ := exists_parts_of_spellings hy
  have hopen : State.between.step p Ascii.quote =
      .take (.string ⟨p, [Ascii.quote], [], none⟩) := rfl
  have hparts := @through?_parts (p.next Ascii.quote) ⟨p, [Ascii.quote], [], none⟩ ps hps rfl
  rw [← hliteral, ← hcs] at hparts
  have htext : text? ((y.reverse ++ [Ascii.quote]).reverse ++ [Ascii.quote]) = some lexeme := by
    rw [text?_eq_some_iff, hl]
    simp
  have hs : text? (s.toList.flatMap String.utf8EncodeChar) = some s := by
    rw [text?_eq_some_iff, utf8_eq_flatMap]
  have hclose (q : Position) : (State.string (OpenString.grow ⟨p, [Ascii.quote], [], none⟩ y
      (s.toList.flatMap String.utf8EncodeChar))).step q Ascii.quote =
        .takeLast (token (.string s) lexeme p (q.next Ascii.quote)) := by
    simp only [State.step, stringByte, OpenString.grow, OpenString.write, OpenString.close,
      List.append_nil, List.reverse_reverse, List.reverse_cons, hs, htext, if_true]
  rw [List.cons_append, List.append_assoc, run_of_take hopen, run_through hparts,
    List.singleton_append, run_of_takeLast (hclose _), ← Position.after_snoc]
  rfl

theorem run_tokenText {c : TokenContent} {x : Bytes} {lexeme : String} (h : TokenText c x)
    (hl : utf8 lexeme = x) (he : Ends c rest) : State.between.run p (x ++ rest) =
      (token c lexeme p (p.after x), p.after x, rest) := by
  have eq_lexeme {s : String} (hs : utf8 s = x) : s = lexeme := utf8_injective (hs.trans hl.symm)
  cases h with
  | string h => exact run_stringText h hl
  | number h =>
    rw [run_numberText h he, eq_lexeme h.utf8_ofAscii]
  | trueWord =>
    rw [← eq_lexeme rfl]
    exact run_word .true he
  | falseWord =>
    rw [← eq_lexeme rfl]
    exact run_word .false he
  | nullWord =>
    rw [← eq_lexeme rfl]
    exact run_word .null he
  | endOfInput =>
    obtain rfl : rest = [] := he
    rw [← @eq_lexeme "" rfl]
    rfl
  | openBrace | closeBrace | openBracket | closeBracket | colon | comma =>
    rw [← eq_lexeme (utf8_ofAscii (forall_mem_bytes (by decide)))]
    rfl

/-- The lexer gives a token that stands behind blanks, and leaves what stands behind it. -/
theorem run_of_stands {t : Token} {w x : Bytes} (h : t.Stands p w x) (he : Ends t.content rest) :
    State.between.run p (w ++ x ++ rest) = (.ok t, p.after (w ++ x), rest) := by
  rw [List.append_assoc, run_blanks h.blanks, run_tokenText h.text h.lexeme he,
    Position.after_append]
  simp only [token, ← Position.after_append, ← h.span]

end Lexer
end ExactJson
