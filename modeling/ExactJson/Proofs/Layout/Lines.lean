import ExactJson.Proofs.Layout.Words
import Mathlib.Algebra.GroupWithZero.Nat
import Mathlib.Data.List.Chain

/-! The lines of the indented layout. The tokens that are read from it are those of the compact one,
and each line feed comes before a token at the depth of that token. -/
namespace ExactJson
open Grammar Text TokenStream

def Token.Behind (t : Token) (x : Bytes) : Prop :=
  t.span = ⟨.behind x, .behind (x ++ utf8 t.lexeme)⟩

namespace Layout
variable {l : Layout} {before : List TokenKind} {next : TokenKind} {ws : List Word} {width n : Nat}
variable {data c x y : Bytes} {ts : List Token} {w : Word}

theorem gap_cases (l : Layout) (before : List TokenKind) (next : TokenKind) :
    l.gap before next = [] ∨ l.gap before next = [Ascii.space] ∨ ∃ width, l = .indented width ∧
      l.gap before next =
        Ascii.lineFeed :: List.replicate (width * level before next) Ascii.space := by
  cases l with
  | compact => exact .inl rfl
  | indented width =>
    cases hlast : before.getLast? with
    | none =>
      left
      simp only [gap, hlast]
    | some last =>
      rw [gap_of_last hlast]
      by_cases hcolon : last = .colon
      · exact .inr (.inl (if_pos hcolon))
      · rw [if_neg hcolon]
        by_cases hbreak : last = .comma ∨ last.opens ≠ next.closes
        · exact .inr (.inr ⟨width, rfl, if_pos hbreak⟩)
        · exact .inl (if_neg hbreak)

theorem blanks_gap (l : Layout) (before : List TokenKind) (next : TokenKind) :
    Blanks (l.gap before next) := by
  obtain h | h | ⟨width, -, h⟩ := gap_cases l before next <;> rw [h] <;> intro b hb
  · cases hb
  · rw [List.mem_singleton.mp hb]
    rfl
  · obtain rfl | hb := List.mem_cons.mp hb
    · rfl
    · rw [List.eq_of_mem_replicate hb]
      rfl

theorem delimited_of_isMark {content : TokenContent} (h : TokenText content x)
    (hk : content.kind.isMark = true) (rest : Bytes) : Delimited (x ++ rest) := by
  cases h with
  | openBrace | closeBrace | openBracket | closeBracket | colon | comma =>
    exact .cons _ (by decide) rest
  | string | number | trueWord | falseWord | nullWord | endOfInput => cases hk

theorem ends_spread {content : TokenContent} (hne : content ≠ .endOfInput)
    (hws : ∀ w ∈ ws, w.IsToken) (hsep : ∀ w ∈ ws.head?, Separated content.kind w.1) :
    Ends content (l.spread before ws) := by
  cases ws with
  | nil => exact .of_delimited hne .nil
  | cons w ws =>
    obtain hmark | hmark := hsep w rfl
    · cases content with
      | number | null => cases hmark
      | boolean b => cases b <;> cases hmark
      | endOfInput => exact absurd rfl hne
      | string | openBrace | closeBrace | openBracket | closeBracket | colon | comma => trivial
    · obtain ⟨d, hd, hk⟩ := (hws w List.mem_cons_self).text
      rw [← hk] at hmark
      exact .of_delimited hne (.blanks (blanks_gap l before w.1) (delimited_of_isMark hd hmark _))

/-- The tokens of a document, where they stand in a layout. -/
structure LaidOut (l : Layout) (data : Bytes) (ts : List Token) : Prop where
  tokens : Tokens data ts
  bytes : data = l.spread [] (ts.map Token.word)
  places : ∀ us t vs, ts = us ++ t :: vs →
    t.Behind (l.spread [] (us.map Token.word) ++ l.gap (us.map Token.kind) t.kind)

theorem exists_read (hw : w.IsToken) (hws : ∀ u ∈ ws, u.IsToken)
    (hsep : ∀ k ∈ (ws.map Prod.fst).head?, Separated w.1 k) (before : List TokenKind)
    (data c : Bytes) :
    ∃ t, (ofRest data (.behind c) (l.spread before (w :: ws))).read = (.ok t, ofRest data
        (.behind (c ++ (l.gap before w.1 ++ utf8 w.2))) (l.spread (before ++ [w.1]) ws)) ∧
      t.word = w ∧ t.Behind (c ++ l.gap before w.1) := by
  obtain ⟨content, htext, hkind⟩ := hw.text
  have hne : content ≠ .endOfInput := by
    rintro rfl
    exact hw.inside hkind.symm
  obtain ⟨t, rfl, ht⟩ := Token.exists_stands htext (blanks_gap l before w.1) (.behind c)
  have hends : Ends t.content (l.spread (before ++ [w.1]) ws) := by
    apply ends_spread hne hws
    intro u hu
    rw [hkind]
    apply hsep
    rw [List.head?_map, Option.mem_def.mp hu]
    rfl
  refine ⟨t, ?_, Prod.ext hkind (utf8_injective ht.lexeme), ?_⟩
  · rw [spread, ← List.append_assoc, ← Position.after_behind]
    exact read_of_stands ht hends
  · have hspan := ht.span
    rw [Position.after_behind, Position.after_behind, ← ht.lexeme, ← List.append_assoc] at hspan
    exact hspan

theorem exists_reads (l : Layout) (hws : ∀ w ∈ ws, w.IsToken)
    (hsep : (ws.map Prod.fst).IsChain Separated) (before : List TokenKind) (data c : Bytes) :
    ∃ ts q, Reads (ofRest data (.behind c) (l.spread before ws)) ts (ofRest data q []) ∧
      ts.map Token.word = ws ∧ ∀ us t vs, ts = us ++ t :: vs → t.Behind (c ++
        (l.spread before (us.map Token.word) ++ l.gap (before ++ us.map Token.kind) t.kind)) := by
  -- `c` is what the document has before the words, so that their places can be said.
  induction ws generalizing before c with
  | nil => exact ⟨[], _, .nil _, rfl, by simp⟩
  | cons w ws ih =>
    obtain ⟨hw, hrest⟩ := List.forall_mem_cons.mp hws
    obtain ⟨hhead, htail⟩ := List.isChain_cons.mp hsep
    obtain ⟨t, hread, rfl, hplace⟩ := @exists_read l ws w hw hrest hhead before data c
    obtain ⟨ts, q, hreads, hwords, hplaces⟩ := ih hrest htail (before ++ [t.kind])
      (c ++ (l.gap before t.kind ++ utf8 t.lexeme))
    refine ⟨t :: ts, q, .cons hread hreads, by rw [List.map_cons, hwords], fun us s vs hs => ?_⟩
    cases us with
    | nil =>
      cases hs
      simpa [spread, Token.word] using hplace
    | cons u us =>
      cases hs
      simpa [spread, Token.word] using hplaces us s vs rfl

theorem laidOut_of_words (l : Layout) (hws : ∀ w ∈ ws, w.IsToken)
    (hsep : (ws.map Prod.fst).IsChain Separated) :
    ∃ ts, LaidOut l (l.spread [] ws) ts ∧ ts.map Token.word = ws := by
  obtain ⟨ts, q, hreads, hwords, hplaces⟩ := exists_reads l hws hsep [] (l.spread [] ws) []
  obtain ⟨e, he, hstands⟩ := Token.exists_stands .endOfInput .nil q
  have hread : (ofRest (l.spread [] ws) q ([] ++ [] ++ [])).read = _ :=
    read_of_stands hstands (he ▸ rfl)
  have hinside : ∀ t ∈ ts, t.content ≠ .endOfInput := by
    intro t ht hend
    have hmem : t.word ∈ ws := hwords ▸ List.mem_map_of_mem ht
    exact (hws _ hmem).inside (congrArg TokenContent.kind hend)
  exact ⟨ts, ⟨⟨hinside, _, _, e, hreads, hread, he⟩, by rw [hwords], hplaces⟩, hwords⟩

/-- A line break stands before one of the words, with `x` before its line feed and `y` behind. -/
def BreaksAt (width : Nat) (before : List TokenKind) (ws : List Word) (x y : Bytes) : Prop :=
  ∃ us w vs, ws = us ++ w :: vs ∧ x = (indented width).spread before us ∧
    y = List.replicate (width * level (before ++ us.map Prod.fst) w.1) Ascii.space ++
      (utf8 w.2 ++ (indented width).spread (before ++ us.map Prod.fst ++ [w.1]) vs) ∧
    (indented width).gap (before ++ us.map Prod.fst) w.1 = Ascii.lineFeed ::
      List.replicate (width * level (before ++ us.map Prod.fst) w.1) Ascii.space

theorem BreaksAt.cons (h : BreaksAt width (before ++ [w.1]) ws x y) :
    BreaksAt width before (w :: ws) ((indented width).gap before w.1 ++ utf8 w.2 ++ x) y := by
  obtain ⟨us, u, vs, rfl, rfl, hy, hgap⟩ := h
  refine ⟨w :: us, u, vs, rfl, ?_, by simpa using hy, by simpa using hgap⟩
  rw [spread, List.append_assoc]

theorem breaksAt_of_lineFeed (hws : ∀ w ∈ ws, Ascii.lineFeed ∉ utf8 w.2)
    (h : (indented width).spread before ws = x ++ Ascii.lineFeed :: y) :
    BreaksAt width before ws x y := by
  induction ws generalizing before x with
  | nil => simp [spread] at h
  | cons w ws ih =>
    obtain ⟨hw, hrest⟩ := List.forall_mem_cons.mp hws
    rw [spread, ← List.append_assoc] at h
    -- The line feed is behind the first word, or not.
    obtain ⟨x', rfl, hx'⟩ | ⟨z, hz, hy⟩ := List.append_eq_append_iff.mp h
    · exact (ih hrest hx').cons
    · cases z with
      | nil =>
        have hlater := (ih hrest (x := []) hy.symm).cons
        rwa [List.append_nil, hz, List.append_nil] at hlater
      | cons b z =>
        obtain ⟨rfl, rfl⟩ := List.cons.inj hy
        obtain hgap | hgap | ⟨_, ⟨⟩, hgap⟩ := gap_cases (indented width) before w.1
        · rw [hgap, List.nil_append] at hz
          exact absurd (hz ▸ List.mem_append_right x List.mem_cons_self) hw
        · rw [hgap, List.singleton_append] at hz
          have hmem : Ascii.lineFeed ∈ Ascii.space :: utf8 w.2 :=
            hz ▸ List.mem_append_right x List.mem_cons_self
          obtain hmem | hmem := List.mem_cons.mp hmem
          · cases hmem
          · exact absurd hmem hw
        · have hone : Ascii.lineFeed ∉
              List.replicate (width * level before w.1) Ascii.space ++ utf8 w.2 := by
            simp [hw, show Ascii.lineFeed ≠ Ascii.space by decide]
          have hsplit : [] ++ Ascii.lineFeed ::
              (List.replicate (width * level before w.1) Ascii.space ++ utf8 w.2) =
                x ++ Ascii.lineFeed :: z := by
            rw [← hz, hgap]
            rfl
          obtain ⟨rfl, -, rfl⟩ :=
            (List.append_cons_inj_of_notMem List.not_mem_nil hone).mp hsplit
          exact ⟨[], w, ws, rfl, rfl, by simp, by simpa using hgap⟩

end Layout

namespace Value

mutual
def containers : Value → List Value
  | array vs => array vs :: containersOfItems vs
  | object ms => object ms :: containersOfMembers ms
  | _ => []
def containersOfItems : List Value → List Value
  | [] => []
  | v :: vs => v.containers ++ containersOfItems vs
def containersOfMembers : List (String × Value) → List Value
  | [] => []
  | (_, v) :: ms => v.containers ++ containersOfMembers ms
end

def breaksOf (us : List Value) : Nat :=
  ((us.filter fun u => !u.isEmpty).map fun u => u.size + 1).sum

def breaks (v : Value) : Nat := breaksOf v.containers

variable {v : Value} {vs : List Value} {ms : List (String × Value)} {width : Nat}

@[simp] theorem breaksOf_append (us ws : List Value) :
    breaksOf (us ++ ws) = breaksOf us + breaksOf ws := by
  rw [breaksOf, List.filter_append, List.map_append, List.sum_append]
  rfl

@[simp] theorem breaksOf_items (vs : List Value) :
    breaksOf (containersOfItems vs) = (vs.map breaks).sum := by
  induction vs with
  | nil => rfl
  | cons v vs ih => simp [containersOfItems, ih, breaks]

@[simp] theorem breaksOf_members (ms : List (String × Value)) :
    breaksOf (containersOfMembers ms) = (ms.map fun m => m.2.breaks).sum := by
  induction ms with
  | nil => rfl
  | cons m ms ih => simp [containersOfMembers, ih, breaks]

@[simp] theorem breaks_array (vs : List Value) :
    (array vs).breaks = (if vs = [] then 0 else vs.length + 1) + (vs.map breaks).sum := by
  rw [breaks, containers, ← List.singleton_append, breaksOf_append, breaksOf_items]
  cases vs <;> rfl

@[simp] theorem breaks_object (ms : List (String × Value)) : (object ms).breaks =
    (if ms = [] then 0 else ms.length + 1) + (ms.map fun m => m.2.breaks).sum := by
  rw [breaks, containers, ← List.singleton_append, breaksOf_append, breaksOf_members]
  cases ms <;> rfl

def Counts (width : Nat) (v : Value) : Prop := ∀ n ps,
  (Piece.bytes (v.emit (.indented width) n ps)).count Ascii.lineFeed =
    v.breaks + (Piece.bytes ps).count Ascii.lineFeed

theorem count_lineBreak (width n : Nat) (ps : List Piece) :
    (Piece.bytes ((Layout.indented width).lineBreak n ++ ps)).count Ascii.lineFeed =
      1 + (Piece.bytes ps).count Ascii.lineFeed := by
  have hspaces : (List.replicate (width * n) Ascii.space).count Ascii.lineFeed = 0 := by
    rw [List.count_eq_zero]
    intro hmem
    cases List.eq_of_mem_replicate hmem
  rw [Piece.bytes_append, Layout.bytes_lineBreak, List.count_append, List.count_cons_self, hspaces,
    Nat.zero_add]

theorem count_text {s : String} (h : Ascii.lineFeed ∉ utf8 s) (ps : List Piece) :
    (Piece.bytes (.text s :: ps)).count Ascii.lineFeed =
      (Piece.bytes ps).count Ascii.lineFeed := by
  rw [Piece.bytes_cons, List.count_append, Piece.toString, List.count_eq_zero.mpr h, Nat.zero_add]

theorem count_quoted (s : String) (ps : List Piece) :
    (Piece.bytes (Piece.quoted s ++ ps)).count Ascii.lineFeed =
      (Piece.bytes ps).count Ascii.lineFeed := by
  have hline : Ascii.lineFeed ∉ utf8 (Symbol.string s).text :=
    (Symbol.isToken_word (a := .string s) fun _ h => nomatch h).line
  rw [Piece.bytes_append, Piece.bytes_quoted, List.count_append, List.count_eq_zero.mpr hline,
    Nat.zero_add]

theorem count_emitItems (hvs : ∀ v ∈ vs, v.Counts width) (n : Nat) (ps : List Piece) :
    (Piece.bytes (emitItems (.indented width) n vs ps)).count Ascii.lineFeed =
      vs.length + (vs.map breaks).sum + (Piece.bytes ps).count Ascii.lineFeed := by
  induction vs with
  | nil => simp [emitItems]
  | cons v vs ih =>
    rw [emitItems, count_text (by decide), count_lineBreak, hvs v List.mem_cons_self,
      ih fun u hu => hvs u (List.mem_cons_of_mem v hu), List.map_cons, List.sum_cons,
      List.length_cons]
    omega

theorem count_member (name : String) (hv : v.Counts width) (n : Nat) (ps : List Piece) :
    (Piece.bytes ((Layout.indented width).lineBreak n ++ (Piece.quoted name ++
      (Layout.indented width).colon :: v.emit (.indented width) n ps))).count Ascii.lineFeed =
      1 + (v.breaks + (Piece.bytes ps).count Ascii.lineFeed) := by
  rw [count_lineBreak, count_quoted, Layout.colon, count_text (by decide), hv]

theorem count_emitMembers (hms : ∀ m ∈ ms, m.2.Counts width) (n : Nat) (ps : List Piece) :
    (Piece.bytes (emitMembers (.indented width) n ms ps)).count Ascii.lineFeed =
      ms.length + (ms.map fun m => m.2.breaks).sum + (Piece.bytes ps).count Ascii.lineFeed := by
  induction ms with
  | nil => simp [emitMembers]
  | cons m ms ih =>
    obtain ⟨name, v⟩ := m
    rw [emitMembers, count_text (by decide), count_member name (hms (name, v) List.mem_cons_self),
      ih fun u hu => hms u (List.mem_cons_of_mem _ hu), List.map_cons, List.sum_cons,
      List.length_cons]
    omega

theorem counts (h : ∀ n ∈ v.numbers, n.Built) (width : Nat) : v.Counts width := by
  induction v using Value.induction with
  | null =>
    intro n ps
    rw [emit, count_text (by decide)]
    exact (Nat.zero_add _).symm
  | boolean b =>
    intro n ps
    cases b <;> rw [emit, count_text (by decide)] <;> exact (Nat.zero_add _).symm
  | number m =>
    intro n ps
    obtain ⟨form, hm, -⟩ := (h m List.mem_cons_self).rereads
    rw [emit, count_text hm.lineFeed_not_mem]
    exact (Nat.zero_add _).symm
  | string s =>
    intro n ps
    rw [emit, count_quoted]
    exact (Nat.zero_add _).symm
  | array vs ih =>
    intro n ps
    have hvs : ∀ v ∈ vs, v.Counts width := fun v hv =>
      ih v hv fun m hm => h m (mem_numbers_array.mpr ⟨v, hv, hm⟩)
    cases vs with
    | nil =>
      rw [emit, count_text (by decide)]
      exact (Nat.zero_add _).symm
    | cons v vs =>
      rw [emit, count_text (by decide), count_lineBreak, hvs v List.mem_cons_self,
        count_emitItems fun u hu => hvs u (List.mem_cons_of_mem v hu), count_lineBreak,
        count_text (by decide), breaks_array, if_neg (List.cons_ne_nil v vs), List.map_cons,
        List.sum_cons, List.length_cons]
      omega
  | object ms ih =>
    intro n ps
    have hms : ∀ m ∈ ms, m.2.Counts width := fun m hm =>
      ih m hm fun d hd => h d (mem_numbers_object.mpr ⟨m, hm, hd⟩)
    cases ms with
    | nil =>
      rw [emit, count_text (by decide)]
      exact (Nat.zero_add _).symm
    | cons m ms =>
      obtain ⟨name, v⟩ := m
      rw [emit, count_text (by decide), count_member name (hms (name, v) List.mem_cons_self),
        count_emitMembers fun u hu => hms u (List.mem_cons_of_mem _ hu), count_lineBreak,
        count_text (by decide), breaks_object, if_neg (List.cons_ne_nil _ ms), List.map_cons,
        List.sum_cons, List.length_cons]
      omega

end Value

open Layout in
/-- The same tokens are read from the indented text of a value and from the compact one, each where
the layout has it. In the indented text a line feed stands only before a token that begins a line,
with the spaces of its depth between them. -/
theorem tokens_of_layouts {v : Value} (h : ∀ n ∈ v.numbers, n.Built) (width : Nat) :
    ∃ ts us, LaidOut (.indented width) (utf8 (v.render (.indented width))) ts ∧
      LaidOut .compact (utf8 v.compact) us ∧ ts.map Token.word = us.map Token.word ∧
      (∀ x y, utf8 (v.render (.indented width)) = x ++ Ascii.lineFeed :: y →
        ∃ before t after rest, ts = before ++ t :: after ∧
          x = (indented width).spread [] (before.map Token.word) ∧
          y = List.replicate (width * level (before.map Token.kind) t.kind) Ascii.space ++
            (utf8 t.lexeme ++ rest) ∧
          t.Behind (x ++ Ascii.lineFeed ::
            List.replicate (width * level (before.map Token.kind) t.kind) Ascii.space)) ∧
      (utf8 (v.render (.indented width))).count Ascii.lineFeed = v.breaks := by
  have hwords : ∀ w ∈ v.symbols.map Symbol.word, w.IsToken :=
    List.forall_mem_map.mpr (Value.isToken_word_symbols h)
  have hsep : ((v.symbols.map Symbol.word).map Prod.fst).IsChain Separated := by
    rw [map_fst_word]
    exact v.separated_symbols
  obtain ⟨ts, hts, htw⟩ := laidOut_of_words (.indented width) hwords hsep
  obtain ⟨us, hus, huw⟩ := laidOut_of_words .compact hwords hsep
  rw [← utf8_render_eq_spread] at hts hus
  refine ⟨ts, us, hts, hus, htw.trans huw.symm, fun x y hxy => ?_, ?_⟩
  · rw [hts.bytes] at hxy
    have hbreaks : BreaksAt width [] (ts.map Token.word) x y :=
      breaksAt_of_lineFeed (fun w hw => (hwords w (htw ▸ hw)).line) hxy
    obtain ⟨ws, w, vs, hsplit, hx, hy, hgap⟩ := hbreaks
    obtain ⟨before, more, rfl, rfl, hmore⟩ := List.map_eq_append_iff.mp hsplit
    obtain ⟨t, after, rfl, rfl, rfl⟩ := List.map_eq_cons_iff.mp hmore
    have hkinds : (before.map Token.word).map Prod.fst = before.map Token.kind := by
      rw [List.map_map]
      rfl
    rw [List.nil_append, hkinds] at hy hgap
    have hplace := hts.places before t after rfl
    have hbreak : (indented width).gap (before.map Token.kind) t.kind = _ := hgap
    rw [hbreak, ← hx] at hplace
    exact ⟨before, t, after, _, rfl, hx, hy, hplace⟩
  · have hcount := Value.counts h width 0 []
    rw [Value.utf8_render]
    exact hcount

/-- An empty object on a line of its own, and a member two levels deep. -/
theorem tokens_of_layouts_nested :
    (∀ n ∈ (Value.array [.object [], .object [("a", .ofInt (-1))]]).numbers, n.Built) ∧
      ∃ ts us, Layout.LaidOut (.indented 3)
          (utf8 "[\n   \x7b\x7d,\n   \x7b\n      \"a\": -1\n   \x7d\n]") ts ∧
        Layout.LaidOut .compact (utf8 "[\x7b\x7d,\x7b\"a\":-1\x7d]") us ∧
        ts.map Token.word = us.map Token.word ∧
        (utf8 "[\n   \x7b\x7d,\n   \x7b\n      \"a\": -1\n   \x7d\n]").count Ascii.lineFeed =
          (2 + 1) + (1 + 1) := by
  have hbuilt : ∀ n ∈ (Value.array [.object [], .object [("a", .ofInt (-1))]]).numbers, n.Built :=
    List.forall_mem_singleton.mpr (.ofInt (-1))
  obtain ⟨ts, us, hts, hus, hwords, -, hcount⟩ := tokens_of_layouts hbuilt 3
  exact ⟨hbuilt, ts, us, hts, hus, hwords, hcount⟩

end ExactJson
