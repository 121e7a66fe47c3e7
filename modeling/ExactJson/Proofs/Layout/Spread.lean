import ExactJson.Proofs.Document.Depth
import ExactJson.Proofs.Layout.Grammar

/-! Each layout by the tokens of its text. What stands before a token depends on the token before it
and on how many containers are open there. -/
namespace ExactJson
open Text

def Symbol.text : Symbol → String
  | openBrace => "\x7b"
  | closeBrace => "\x7d"
  | openBracket => "["
  | closeBracket => "]"
  | colon => ":"
  | comma => ","
  | string s => String.join (Escape.quoted s)
  | number n => n.text
  | boolean true => "true"
  | boolean false => "false"
  | null => "null"

@[simp]
theorem Piece.bytes_quoted (s : String) : bytes (Piece.quoted s) = utf8 (Symbol.string s).text := by
  rw [bytes, Piece.quoted, List.flatMap_map, Symbol.text, utf8_join]
  rfl

abbrev Word := TokenKind × String

def Token.word (t : Token) : Word := (t.kind, t.lexeme)

def Symbol.word (a : Symbol) : Word := (a.kind, a.text)

def TokenKind.endsValue : TokenKind → Bool
  | openBrace | openBracket | colon | comma => false
  | _ => true

namespace Layout

/-- How many containers are open behind some tokens, but for one that the next token closes. -/
def level (before : List TokenKind) (next : TokenKind) : Nat :=
  nesting before - if next.closes then 1 else 0

/-- What stands between some tokens and the next. In the indented layout it is a space behind a
colon, and a line break behind a comma and at both ends of a container that is not empty. -/
def gap (l : Layout) (before : List TokenKind) (next : TokenKind) : Bytes :=
  match l, before.getLast? with
  | .compact, _ | .indented _, none => []
  | .indented width, some last =>
    if last = .colon then [Ascii.space]
    else if last = .comma ∨ last.opens ≠ next.closes then
      Ascii.lineFeed :: List.replicate (width * level before next) Ascii.space
    else []

def spread (l : Layout) (before : List TokenKind) : List Word → Bytes
  | [] => []
  | w :: ws => l.gap before w.1 ++ (utf8 w.2 ++ l.spread (before ++ [w.1]) ws)

def Inside (before : List TokenKind) (n : Nat) : Prop :=
  before.countP TokenKind.opens = before.countP TokenKind.closes + n

def Ended (before : List TokenKind) : Prop := ∃ k ∈ before.getLast?, k.endsValue = true

variable {l : Layout} {before : List TokenKind} {last next k : TokenKind} {n width : Nat}
variable {ws us : List Word} {v : Value}

theorem spread_append (l : Layout) (before : List TokenKind) (ws us : List Word) :
    l.spread before (ws ++ us) =
      l.spread before ws ++ l.spread (before ++ ws.map Prod.fst) us := by
  induction ws generalizing before with
  | nil => simp [spread]
  | cons w ws ih => simp [spread, ih]

theorem spread_compact (before : List TokenKind) (ws : List Word) :
    compact.spread before ws = ws.flatMap fun w => utf8 w.2 := by
  induction ws generalizing before with
  | nil => rfl
  | cons w ws ih =>
    rw [spread, ih, List.flatMap_cons]
    rfl

theorem Inside.nesting_eq (h : Inside before n) : nesting before = n := by
  rw [nesting, h]
  omega

theorem Inside.opens (h : Inside before n) (ho : k.opens = true) :
    Inside (before ++ [k]) (n + 1) := by
  have hc : k.closes = false := by cases k <;> first | rfl | cases ho
  simp only [Inside, List.countP_append, List.countP_singleton, ho, hc] at h ⊢
  simp [h, Nat.add_assoc]

theorem Inside.neutral (h : Inside before n) (ho : k.opens = false) (hc : k.closes = false) :
    Inside (before ++ [k]) n := by
  simpa [Inside, List.countP_append, List.countP_singleton, ho, hc] using h

/-- A value closes the containers that it opens. -/
theorem Inside.symbols (h : Inside before n) (v : Value) :
    Inside (before ++ v.symbols.map Symbol.kind) n := by
  have hrun := DocumentState.run_symbols v (.value []) (Nat.le_refl v.depth)
  have hcount := hrun.containers_eq
  rw [DocumentState.containers_complete] at hcount
  simp only [Inside, List.countP_append] at h ⊢
  simp only [DocumentState.containers, List.length_nil] at hcount
  omega

theorem ended_append (before ks : List TokenKind) (h : k.endsValue = true) :
    Ended (before ++ (ks ++ [k])) :=
  ⟨k, by simp, h⟩

theorem ended_symbols (before : List TokenKind) (v : Value) :
    Ended (before ++ v.symbols.map Symbol.kind) := by
  cases v with
  | null | number | string => exact ended_append before [] rfl
  | boolean b => cases b <;> exact ended_append before [] rfl
  | array vs =>
    induction vs using List.reverseRecOn with
    | nil => exact ended_append (k := .closeBracket) before [.openBracket] rfl
    | append_singleton vs v =>
      rw [Value.symbols_array_snoc, ← List.cons_append, List.map_append]
      exact ended_append before _ rfl
  | object ms =>
    induction ms using List.reverseRecOn with
    | nil => exact ended_append (k := .closeBrace) before [.openBrace] rfl
    | append_singleton ms m =>
      rw [Value.symbols_object_snoc, ← List.cons_append, List.map_append]
      exact ended_append before _ rfl

theorem gap_of_last (h : last ∈ before.getLast?) : (indented width).gap before next =
    if last = .colon then [Ascii.space]
    else if last = .comma ∨ last.opens ≠ next.closes then
      Ascii.lineFeed :: List.replicate (width * level before next) Ascii.space
    else [] := by
  simp only [gap, Option.mem_def.mp h]

theorem last_mem (before : List TokenKind) (last : TokenKind) :
    last ∈ (before ++ [last]).getLast? := by
  simp

theorem gap_ended (he : Ended before) : (indented width).gap before next =
    if next.closes then Ascii.lineFeed :: List.replicate (width * level before next) Ascii.space
    else [] := by
  obtain ⟨last, hlast, hends⟩ := he
  rw [gap_of_last hlast]
  cases last with
  | openBrace | openBracket | colon | comma => cases hends
  | _ => cases hclose : next.closes <;> simp [TokenKind.opens]

theorem gap_congr (h : next.closes = k.closes) : l.gap before next = l.gap before k := by
  simp only [gap, level, h]

theorem gap_break (h : Inside (before ++ [last]) n) (hlast : last = .comma ∨ last.opens = true)
    (hnext : next.closes = false) :
    l.gap (before ++ [last]) next = Piece.bytes (l.lineBreak n) := by
  cases l with
  | compact => rfl
  | indented width =>
    have hcolon : last ≠ .colon := by
      rintro rfl
      simp [TokenKind.opens] at hlast
    have hbreak : last = .comma ∨ last.opens ≠ next.closes := by
      rw [hnext]
      exact hlast.imp_right fun ho => by simp [ho]
    rw [bytes_lineBreak, gap_of_last (last_mem before last), if_neg hcolon, if_pos hbreak, level,
      hnext, h.nesting_eq]
    rfl

theorem gap_close (h : Inside before (n + 1)) (he : Ended before) (hnext : next.closes = true) :
    l.gap before next = Piece.bytes (l.lineBreak n) := by
  cases l with
  | compact => rfl
  | indented width =>
    rw [bytes_lineBreak, gap_ended he]
    simp [level, hnext, h.nesting_eq]

theorem gap_none (he : Ended before) (hnext : next.closes = false) : l.gap before next = [] := by
  cases l with
  | compact => rfl
  | indented width => rw [gap_ended he, hnext, if_neg Bool.false_ne_true]

theorem gap_empty (hlast : last.opens = true) (hnext : next.closes = true) :
    l.gap (before ++ [last]) next = [] := by
  cases l with
  | compact => rfl
  | indented width =>
    have hcolon : last ≠ .colon := by
      rintro rfl
      cases hlast
    have hcomma : last ≠ .comma := by
      rintro rfl
      cases hlast
    rw [gap_of_last (last_mem before last), if_neg hcolon, if_neg (by simp [hcomma, hlast, hnext])]

theorem bytes_colon_gap (l : Layout) (before : List TokenKind) (next : TokenKind) :
    utf8 l.colon.toString = Ascii.colon :: l.gap (before ++ [.colon]) next := by
  cases l with
  | compact => rfl
  | indented width =>
    rw [gap_of_last (last_mem before .colon), if_pos rfl]
    rfl

def Spreads (l : Layout) (v : Value) : Prop := ∀ before n ps, Inside before n →
  l.gap before .nullWord ++ Piece.bytes (v.emit l n ps) =
    l.spread before (v.symbols.map Symbol.word) ++ Piece.bytes ps

theorem map_fst_word (as : List Symbol) :
    (as.map Symbol.word).map Prod.fst = as.map Symbol.kind := by
  rw [List.map_map]
  rfl

theorem bytes_emitItems {vs : List Value} (hvs : ∀ v ∈ vs, Spreads l v)
    (h : Inside before (n + 1)) (he : Ended before) (ps : List Piece) :
    Piece.bytes (Value.emitItems l (n + 1) vs (l.lineBreak n ++ .text "]" :: ps)) =
      l.spread before ((Value.moreItems vs).map Symbol.word) ++ Piece.bytes ps := by
  induction vs generalizing before with
  | nil =>
    rw [Value.emitItems, Value.moreItems, Piece.bytes_append, Piece.bytes_cons,
      ← gap_close h he (show TokenKind.closeBracket.closes = true from rfl), List.map_cons, spread]
    simp [spread, Symbol.word, Symbol.kind, Symbol.text, Piece.toString]
  | cons v vs ih =>
    have hcomma : Inside (before ++ [.comma]) (n + 1) := h.neutral rfl rfl
    have hv := hvs v List.mem_cons_self (before ++ [.comma]) (n + 1)
      (Value.emitItems l (n + 1) vs (l.lineBreak n ++ .text "]" :: ps)) hcomma
    have hrest := ih (fun u hu => hvs u (List.mem_cons_of_mem v hu)) (hcomma.symbols v)
      (ended_symbols _ v)
    rw [gap_break hcomma (.inl rfl) rfl, hrest] at hv
    rw [Value.emitItems, Value.moreItems, Piece.bytes_cons, Piece.bytes_append, hv, List.map_cons,
      spread, List.map_append, spread_append, map_fst_word]
    simp [Symbol.word, Symbol.kind, Symbol.text, Piece.toString,
      gap_none he (show TokenKind.comma.closes = false from rfl)]

theorem bytes_member (name : String) (hv : Spreads l v) (h : Inside before n)
    (hgap : l.gap before .string = Piece.bytes (l.lineBreak n)) (ps : List Piece) :
    Piece.bytes (l.lineBreak n ++ (Piece.quoted name ++ l.colon :: v.emit l n ps)) =
      l.spread before ((Value.memberSymbols (name, v)).map Symbol.word) ++ Piece.bytes ps := by
  have hname : Inside (before ++ [.string]) n := h.neutral rfl rfl
  have hcolon : Inside (before ++ [.string] ++ [.colon]) n := hname.neutral rfl rfl
  have hnone : l.gap (before ++ [.string]) .colon = [] := gap_none (ended_append before [] rfl) rfl
  have hmark : utf8 ":" = [Ascii.colon] := rfl
  have hvalue := hv _ n ps hcolon
  rw [Value.memberSymbols, List.map_cons, List.map_cons, spread, spread, Piece.bytes_append,
    Piece.bytes_append, Piece.bytes_cons, Piece.bytes_quoted,
    bytes_colon_gap l (before ++ [.string]) .nullWord, ← hgap, List.cons_append, hvalue]
  simp [Symbol.word, Symbol.kind, Symbol.text, hmark, hnone]

theorem Inside.member (h : Inside before n) (m : String × Value) :
    Inside (before ++ (Value.memberSymbols m).map Symbol.kind) n := by
  have hname : Inside (before ++ [.string]) n := h.neutral rfl rfl
  have hcolon : Inside (before ++ [.string] ++ [.colon]) n := hname.neutral rfl rfl
  simpa [Value.memberSymbols, Symbol.kind] using hcolon.symbols m.2

theorem ended_member (before : List TokenKind) (m : String × Value) :
    Ended (before ++ (Value.memberSymbols m).map Symbol.kind) := by
  have h := ended_symbols (before ++ [.string] ++ [.colon]) m.2
  simpa [Value.memberSymbols, Symbol.kind] using h

theorem bytes_emitMembers {ms : List (String × Value)} (hms : ∀ m ∈ ms, Spreads l m.2)
    (h : Inside before (n + 1)) (he : Ended before) (ps : List Piece) :
    Piece.bytes (Value.emitMembers l (n + 1) ms (l.lineBreak n ++ .text "\x7d" :: ps)) =
      l.spread before ((Value.moreMembers ms).map Symbol.word) ++ Piece.bytes ps := by
  induction ms generalizing before with
  | nil =>
    rw [Value.emitMembers, Value.moreMembers, Piece.bytes_append, Piece.bytes_cons,
      ← gap_close h he (show TokenKind.closeBrace.closes = true from rfl), List.map_cons, spread]
    simp [spread, Symbol.word, Symbol.kind, Symbol.text, Piece.toString]
  | cons m ms ih =>
    obtain ⟨name, v⟩ := m
    have hcomma : Inside (before ++ [.comma]) (n + 1) := h.neutral rfl rfl
    have hrest := ih (fun u hu => hms u (List.mem_cons_of_mem _ hu)) (hcomma.member (name, v))
      (ended_member _ (name, v))
    have hm := bytes_member name (hms (name, v) List.mem_cons_self) hcomma
      (gap_break hcomma (.inl rfl) rfl)
      (Value.emitMembers l (n + 1) ms (l.lineBreak n ++ .text "\x7d" :: ps))
    have hsymbols : Value.moreMembers ((name, v) :: ms) =
        .comma :: (Value.memberSymbols (name, v) ++ Value.moreMembers ms) := by
      simp [Value.moreMembers, Value.memberSymbols]
    rw [Value.emitMembers, hsymbols, Piece.bytes_cons, hm, hrest, List.map_cons, spread,
      List.map_append, spread_append, map_fst_word]
    simp [Symbol.word, Symbol.kind, Symbol.text, Piece.toString,
      gap_none he (show TokenKind.comma.closes = false from rfl)]

theorem spreads_word (a : Symbol) (ha : a.kind.closes = false) (ps : List Piece) :
    l.gap before .nullWord ++ (utf8 a.text ++ Piece.bytes ps) =
      l.spread before [a.word] ++ Piece.bytes ps := by
  rw [gap_congr (show TokenKind.nullWord.closes = a.word.1.closes from ha.symm)]
  simp [spread, Symbol.word]

theorem spreads_empty {a b : Symbol} (ho : a.kind.opens = true) (ha : a.kind.closes = false)
    (hb : b.kind.closes = true) (ps : List Piece) :
    l.gap before .nullWord ++ (utf8 a.text ++ (utf8 b.text ++ Piece.bytes ps)) =
      l.spread before [a.word, b.word] ++ Piece.bytes ps := by
  have hnone : l.gap (before ++ [a.kind]) b.kind = [] := gap_empty ho hb
  rw [gap_congr (show TokenKind.nullWord.closes = a.word.1.closes from ha.symm)]
  simp [spread, Symbol.word, hnone]

/-- In each layout a value is written as its symbols are spread. -/
theorem spreads (l : Layout) (v : Value) : Spreads l v := by
  induction v using Value.induction with
  | null =>
    intro before n ps _
    exact spreads_word .null rfl ps
  | boolean b =>
    intro before n ps _
    cases b with
    | true => exact spreads_word (.boolean true) rfl ps
    | false => exact spreads_word (.boolean false) rfl ps
  | number m =>
    intro before n ps _
    exact spreads_word (.number m) rfl ps
  | string s =>
    intro before n ps _
    rw [Value.emit, Piece.bytes_append, Piece.bytes_quoted]
    exact spreads_word (.string s) rfl ps
  | array vs ih =>
    intro before n ps h
    cases vs with
    | nil => exact @spreads_empty l before .openBracket .closeBracket rfl rfl rfl ps
    | cons v vs =>
      have hopen : Inside (before ++ [.openBracket]) (n + 1) := h.opens rfl
      have hv := ih v List.mem_cons_self (before ++ [.openBracket]) (n + 1)
        (Value.emitItems l (n + 1) vs (l.lineBreak n ++ .text "]" :: ps)) hopen
      have hrest := bytes_emitItems (fun u hu => ih u (List.mem_cons_of_mem v hu))
        (hopen.symbols v) (ended_symbols _ v) ps
      rw [gap_break hopen (.inr rfl) rfl, hrest] at hv
      have hfirst : l.gap before .nullWord = l.gap before .openBracket := gap_congr rfl
      rw [Value.emit, Value.symbols, Piece.bytes_cons, Piece.bytes_append, hv, List.map_cons,
        spread, List.map_append, spread_append, map_fst_word, hfirst]
      simp [Symbol.word, Symbol.kind, Symbol.text, Piece.toString]
  | object ms ih =>
    intro before n ps h
    cases ms with
    | nil => exact @spreads_empty l before .openBrace .closeBrace rfl rfl rfl ps
    | cons m ms =>
      obtain ⟨name, v⟩ := m
      have hopen : Inside (before ++ [.openBrace]) (n + 1) := h.opens rfl
      have hrest := bytes_emitMembers (fun u hu => ih u (List.mem_cons_of_mem _ hu))
        (hopen.member (name, v)) (ended_member _ (name, v)) ps
      have hm := bytes_member name (ih (name, v) List.mem_cons_self) hopen
        (gap_break hopen (.inr rfl) rfl)
        (Value.emitMembers l (n + 1) ms (l.lineBreak n ++ .text "\x7d" :: ps))
      have hfirst : l.gap before .nullWord = l.gap before .openBrace := gap_congr rfl
      have hsymbols : (Value.object ((name, v) :: ms)).symbols =
          .openBrace :: (Value.memberSymbols (name, v) ++ Value.moreMembers ms) := by
        simp [Value.symbols, Value.memberSymbols]
      rw [Value.emit, hsymbols, Piece.bytes_cons, hm, hrest, List.map_cons, spread,
        List.map_append, spread_append, map_fst_word, hfirst]
      simp [Symbol.word, Symbol.kind, Symbol.text, Piece.toString]

theorem utf8_render_eq_spread (l : Layout) (v : Value) :
    utf8 (v.render l) = l.spread [] (v.symbols.map Symbol.word) := by
  have h := spreads l v [] 0 [] rfl
  have hstart : l.gap [] .nullWord = [] := by cases l <;> rfl
  rw [hstart] at h
  rw [Value.utf8_render, Value.pieces]
  exact h.trans (List.append_nil _)

end Layout
end ExactJson
