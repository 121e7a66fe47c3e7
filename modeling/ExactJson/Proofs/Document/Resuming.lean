import ExactJson.Proofs.Document.Expected
import ExactJson.Proofs.Document.Related
import ExactJson.Proofs.Token.Relocation

/-! Readers that are used again. Behind an error the reader begins with the token that is blamed, as
a new reader does over the part of the document that begins there. -/
namespace ExactJson
open Grammar TokenStream

def ReadError.blamed? : ReadError → Option Position
  | unexpected found _ => some found.span.start
  | tooDeep _ p => some p
  | lexical _ | input _ => none

namespace DocumentState
variable {options : ReadOptions} {stack : List Frame} {t : Token}

def Move.relocate (f : Position → Position) : Move → Move
  | take next => take next
  | accept v => accept v
  | refuse e => refuse (e.relocate f)

theorem enter_relocate (f : Position → Position) (next : DocumentState) :
    enter options stack (t.relocate f) next = (enter options stack t next).relocate f := by
  simp only [enter]
  split <;> rfl

theorem beginValue_relocate (f : Position → Position) (expected : KindSet) (stack : List Frame)
    (t : Token) : beginValue options expected stack (t.relocate f) =
      (beginValue options expected stack t).relocate f := by
  obtain ⟨content, lexeme, span⟩ := t
  cases content with
  | openBrace | openBracket => exact enter_relocate f _
  | _ => rfl

/-- The machine does not look at the places of tokens. -/
theorem move_relocate (f : Position → Position) (options : ReadOptions) (s : DocumentState)
    (t : Token) : s.move options (t.relocate f) = (s.move options t).relocate f := by
  cases s with
  | value stack => exact beginValue_relocate f _ stack t
  | firstItem stack =>
    by_cases hc : t.content = .closeBracket
    · have hc' : (t.relocate f).content = .closeBracket := hc
      rw [move_closeBracket hc, move_closeBracket hc']
      rfl
    · have hc' : (t.relocate f).content ≠ .closeBracket := hc
      rw [move_firstItem hc, move_firstItem hc']
      exact beginValue_relocate f _ _ t
  | itemEnd | firstName | name | colon | memberEnd | documentEnd =>
    obtain ⟨content, lexeme, span⟩ := t
    cases content <;> rfl

end DocumentState

namespace DocumentReader

section Uses
variable {σ : Type} [Source σ] {r : DocumentReader σ} {e : ReadError}

def again (r : DocumentReader σ) : Nat → DocumentReader σ
  | 0 => r
  | k + 1 => r.read.2.again k

theorem again_succ (r : DocumentReader σ) (k : Nat) : r.again (k + 1) = (r.again k).read.2 := by
  induction k generalizing r with
  | zero => rfl
  | succ k ih => exact ih r.read.2

theorem readings_succ (r : DocumentReader σ) (k : Nat) :
    r.readings (k + 1) = r.readings k ++ [(r.again k).read.1] := by
  induction k generalizing r with
  | zero => rfl
  | succ k ih => exact congrArg (r.read.1 :: ·) (ih r.read.2)

@[simp]
theorem options_again (r : DocumentReader σ) (k : Nat) : (r.again k).options = r.options := by
  induction k generalizing r with
  | zero => rfl
  | succ k ih => exact (ih r.read.2).trans (options_goOn (.value []) r)

theorem readings_of_refuse (h : (DocumentState.value []).move r.options r.current = .refuse e)
    (n : Nat) : r.readings n = List.replicate n (.error e) := by
  have hread : r.read = (.error e, r) := by rw [read, goOn_eq, h]
  induction n with
  | zero => rfl
  | succ n ih => rw [readings, hread, ih, List.replicate_succ]

end Uses

variable {data : Bytes} {options : ReadOptions} {p : Position} {t : Token} {c x rest : Bytes}
variable {r q : DocumentReader Slice}

structure Shifted (p : Position) (r q : DocumentReader Slice) : Prop where
  tokens : TokenStream.Shifted p r.tokens q.tokens
  current : q.current = r.current.relocate p.shift
  options : q.options = r.options

theorem Shifted.goOn (h : Shifted p r q) (s : DocumentState) :
    (q.goOn s).1 = (r.goOn s).1.mapError (ReadError.relocate p.shift) ∧
      Shifted p (r.goOn s).2 (q.goOn s).2 := by
  fun_induction DocumentReader.goOn s r generalizing q with
  | case1 s r e hm | case2 s r v hm =>
    rw [goOn_eq s q, h.current, h.options, DocumentState.move_relocate, hm]
    exact ⟨rfl, h⟩
  | case3 s r next hm e tokens hread =>
    obtain ⟨ht, hnext⟩ := h.tokens.read
    rw [hread] at ht hnext
    rw [goOn_eq s q, h.current, h.options, DocumentState.move_relocate, hm]
    simp only [DocumentState.Move.relocate, ht]
    exact ⟨rfl, hnext, rfl, rfl⟩
  | case4 s r next hm token tokens hread ih =>
    obtain ⟨ht, hnext⟩ := h.tokens.read
    rw [hread] at ht hnext
    rw [goOn_eq s q, h.current, h.options, DocumentState.move_relocate, hm]
    simp only [DocumentState.Move.relocate, ht]
    exact ih ⟨hnext, rfl, rfl⟩

theorem Shifted.readings (h : Shifted p r q) (n : Nat) :
    q.readings n = (r.readings n).map (Except.mapError (ReadError.relocate p.shift)) := by
  induction n generalizing r q with
  | zero => rfl
  | succ n ih =>
    obtain ⟨hread, hnext⟩ := h.goOn (.value [])
    exact congrArg₂ List.cons hread (ih hnext)

/-- A token of a document: behind the bytes `c` it is `x`, and `rest` is behind it. -/
structure Standing (data : Bytes) (t : Token) (c x rest : Bytes) : Prop where
  bytes : data = c ++ (x ++ rest)
  stands : t.Stands (.behind c) [] x
  last : t.content = .endOfInput → rest = []
  read : (behind data c (x ++ rest) false).read = (.ok t, behind data (c ++ x) rest false)

theorem read_blanks {w : Bytes} (hw : Blanks w) (data c rest : Bytes) :
    (behind data (c ++ w) rest false).read = (behind data c (w ++ rest) false).read := by
  rw [TokenStream.read, TokenStream.read, behind, behind, feed_slice, feed_slice,
    ← Position.after_behind, Lexer.run_blanks hw]

theorem exists_standing {u : TokenStream Slice} (hdata : data = c ++ rest)
    (h : (behind data c rest false).read = (.ok t, u)) :
    ∃ c' x rest', Standing data t c' x rest' ∧ u = behind data (c' ++ x) rest' false := by
  obtain ⟨outcome, x, left, rfl, hread, htakes⟩ := read_behind data c rest false
  rw [hread] at h
  cases h
  obtain ⟨w, y, rfl, hs, hlast⟩ := htakes t rfl
  refine ⟨c ++ w, y, left, ⟨?_, ⟨.nil, hs.text, hs.lexeme, ?_⟩, hlast, ?_⟩, ?_⟩
  · simp only [hdata, List.append_assoc]
  · rw [hs.span]
    simp only [Position.after_behind, List.append_assoc, List.append_nil, List.nil_append]
  · rw [read_blanks hs.blanks, ← List.append_assoc, hread, List.append_assoc]
  · rw [List.append_assoc]

theorem Standing.start (h : Standing data t c x rest) : t.span.start = .behind c := by
  rw [h.stands.span]
  rfl

theorem Standing.finish (h : Standing data t c x rest) : t.span.finish = .behind (c ++ x) := by
  rw [h.stands.span]
  exact Position.after_behind c x

theorem Standing.located (h : Standing data t c x rest) : t.Located data := by
  have hl := h.stands.located h.last
  rwa [List.append_nil, List.append_assoc, ← h.bytes] at hl

theorem Standing.tokens_eq (h : Standing data t c x rest) :
    behind data (c ++ x) rest false = behind data (data.take t.span.finish.offset)
      (data.drop t.span.finish.offset) false := by
  have hoffset : t.span.finish.offset = (c ++ x).length := by
    rw [h.finish]
    rfl
  rw [hoffset, h.bytes, ← List.append_assoc, List.take_left, List.drop_left]

theorem Standing.exists_fresh (h : Standing data t c x rest) (options : ReadOptions) :
    ∃ tokens t₀, ofSource (Slice.ofBytes (data.drop t.span.start.offset)) options =
        .ok ⟨tokens, t₀, options⟩ ∧ t = t₀.relocate t.span.start.shift ∧
      TokenStream.Shifted t.span.start tokens (behind data (c ++ x) rest false) := by
  have hdrop : data.drop (Position.behind c).offset = x ++ rest := by
    rw [h.bytes]
    exact List.drop_left
  obtain ⟨hread, hnext⟩ := (shifted_behind data c (x ++ rest)).read
  rw [h.read] at hread hnext
  rw [h.start, hdrop, ofSource_eq]
  cases hfresh : (TokenStream.ofSource (Slice.ofBytes (x ++ rest))).read.1 with
  | error e =>
    rw [hfresh] at hread
    cases hread
  | ok t₀ =>
    rw [hfresh] at hread
    exact ⟨_, t₀, rfl, Except.ok.inj hread, hnext⟩

/-- A reader in a document. Its stream has come to the current token, and may have gone on if it
failed behind that. -/
structure Inside (data : Bytes) (r : DocumentReader Slice) : Prop where
  current : ∃ c x rest, Standing data r.current c x rest
  tokens : ∃ c rest, data = c ++ rest ∧ r.tokens = behind data c rest false

def Ahead (data : Bytes) (r : DocumentReader Slice) : Prop :=
  ∃ c x rest, Standing data r.current c x rest ∧ r.tokens = behind data (c ++ x) rest false

/-- The reader with exactly the bytes up to the end of its current token taken. -/
def behindCurrent (data : Bytes) (r : DocumentReader Slice) : DocumentReader Slice :=
  { r with
    tokens := behind data (data.take r.current.span.finish.offset)
      (data.drop r.current.span.finish.offset) false }

theorem Ahead.inside (h : Ahead data r) : Inside data r := by
  obtain ⟨c, x, rest, hs, ht⟩ := h
  exact ⟨⟨c, x, rest, hs⟩, c ++ x, rest, by rw [hs.bytes, List.append_assoc], ht⟩

theorem ahead_ofSource (h : ofSource (Slice.ofBytes data) options = .ok r) : Ahead data r := by
  have hread : (behind data [] data false).read = (.ok r.current, r.tokens) :=
    (read_of_ofSource h).1
  obtain ⟨c, x, rest, hs, hu⟩ := exists_standing (List.nil_append data).symm hread
  exact ⟨c, x, rest, hs, hu⟩

inductive Stopped (options : ReadOptions) (s : DocumentState) (t : Token) :
    Except ReadError Value → Prop where
  | refused {e : ReadError} (h : s.move options t = .refuse e) : Stopped options s t (.error e)
  | accepted {v : Value} (h : s.move options t = .accept v) : Stopped options s t (.ok v)

/-- How the reader ends: with a fault behind the current token, or with the current token, which it
had from the start or has just read. -/
theorem goOn_ends (s : DocumentState) (r : DocumentReader Slice) (h : Inside data r) :
    (Inside data (r.goOn s).2 ∧ ∃ fault, (r.goOn s).1 = .error (.lexical fault)) ∨
      ((r.goOn s).2 = r ∧ Stopped r.options s r.current (r.goOn s).1) ∨
      (Ahead data (r.goOn s).2 ∧
        ∃ s', Stopped r.options s' (r.goOn s).2.current (r.goOn s).1) := by
  fun_induction goOn s r with
  | case1 s r e hm => exact .inr (.inl ⟨rfl, .refused hm⟩)
  | case2 s r v hm => exact .inr (.inl ⟨rfl, .accepted hm⟩)
  | case3 s r next hm e tokens hread =>
    obtain ⟨c, rest, hdata, ht⟩ := h.tokens
    rw [ht] at hread
    obtain ⟨fault, rfl⟩ :=
      lexical_of_read (show (ofRest data (.behind c) rest).read = _ from hread)
    obtain ⟨outcome, x, left, rfl, hleft, -⟩ := read_behind data c rest false
    rw [hleft] at hread
    cases hread
    refine .inl ⟨⟨h.current, c ++ x, left, ?_, rfl⟩, fault, rfl⟩
    rw [hdata, List.append_assoc]
  | case4 s r next hm token tokens hread ih =>
    obtain ⟨c, rest, hdata, ht⟩ := h.tokens
    rw [ht] at hread
    obtain ⟨c', x, rest', hs, hu⟩ := exists_standing hdata hread
    have hahead : Ahead data { r with tokens, current := token } := ⟨c', x, rest', hs, hu⟩
    obtain hfault | ⟨hr, hstop⟩ | hnew := ih hahead.inside
    · exact .inl hfault
    · rw [hr]
      exact .inr (.inr ⟨hahead, next, hstop⟩)
    · exact .inr (.inr hnew)

/-- Some answers ended with a fault, behind which there was nothing but the error `e`. -/
def StuckBehindFault (e : ReadError) (answers : List (Except ReadError Value)) : Prop :=
  ∃ front fault m, answers = front ++ .error (.lexical fault) :: List.replicate m (.error e)

/-- Behind any uses the stream is directly behind the current token, unless a use ended with a fault
and the current token has been refused ever since. -/
theorem inside_again (hr : Ahead data r) (k : Nat) : Inside data (r.again k) ∧
    (Ahead data (r.again k) ∨
      ∀ e, (DocumentState.value []).move r.options (r.again k).current = .refuse e →
        StuckBehindFault e (r.readings k)) := by
  induction k with
  | zero => exact ⟨hr.inside, .inl hr⟩
  | succ k ih =>
    obtain ⟨hin, hbefore⟩ := ih
    have hends := goOn_ends (.value []) (r.again k) hin
    rw [← DocumentReader.read, options_again] at hends
    rw [again_succ, readings_succ]
    obtain ⟨hnext, fault, hfault⟩ | ⟨hsame, hstop⟩ | ⟨hahead, -⟩ := hends
    · exact ⟨hnext, .inr fun e _ => ⟨r.readings k, fault, 0, congrArg _ (congrArg ([·]) hfault)⟩⟩
    · rw [hsame]
      refine ⟨hin, hbefore.imp_right fun hstuck e he => ?_⟩
      obtain ⟨front, fault, m, hreadings⟩ := hstuck e he
      have hanswer : (r.again k).read.1 = .error e := by
        generalize (r.again k).read.1 = outcome at hstop
        cases hstop with
        | refused hm =>
          cases hm.symm.trans he
          rfl
        | accepted hm => cases hm.symm.trans he
      refine ⟨front, fault, m + 1, ?_⟩
      rw [hanswer, hreadings, List.append_assoc, List.cons_append, List.replicate_succ']
    · exact ⟨hahead.inside, .inl hahead⟩

/-- How a reader has stopped with an error that blames the token at `p`, after some answers. -/
structure Resumes (data : Bytes) (options : ReadOptions) (before : List (Except ReadError Value))
    (r r' : DocumentReader Slice) (e : ReadError) (p : Position) : Prop where
  blames : DocumentState.Blames options e r'.current
  located : r'.current.Located data
  start : r'.current.span.start = p
  /-- It answers as a new reader over what begins with the token. -/
  resumes : ∃ fresh, ofSource (Slice.ofBytes (data.drop p.offset)) options = .ok fresh ∧
    ∀ n, r'.readings n = (fresh.readings n).map (Except.mapError (ReadError.relocate p.shift))
  /-- It answers as if exactly the bytes up to the end of the token were taken. -/
  consumes : ∀ n, r'.readings n = (r'.behindCurrent data).readings n
  /-- These are what is taken, unless it has given nothing but this error since it ended with a fault.
  Then it takes no more than it had with the fault. -/
  taken : r' = r'.behindCurrent data ∨ r' = r ∧ StuckBehindFault e before

variable {e : ReadError}

theorem Ahead.readings (h : Ahead data r) :
    ∃ fresh, ofSource (Slice.ofBytes (data.drop r.current.span.start.offset)) r.options =
        .ok fresh ∧
      ∀ n, r.readings n =
        (fresh.readings n).map (Except.mapError (ReadError.relocate r.current.span.start.shift)) := by
  obtain ⟨c, x, rest, hs, ht⟩ := h
  obtain ⟨tokens, t₀, hfresh, hcurrent, hshifted⟩ := hs.exists_fresh r.options
  have hr : Shifted r.current.span.start ⟨tokens, t₀, r.options⟩ r := ⟨ht ▸ hshifted, hcurrent, rfl⟩
  exact ⟨_, hfresh, hr.readings⟩

/-- Where the current token cannot begin a value, it does not matter how far the stream is. -/
theorem Inside.readings (h : Inside data r)
    (hm : (DocumentState.value []).move r.options r.current = .refuse e) :
    ∃ fresh, ofSource (Slice.ofBytes (data.drop r.current.span.start.offset)) r.options =
        .ok fresh ∧
      ∀ n, r.readings n =
        (fresh.readings n).map (Except.mapError (ReadError.relocate r.current.span.start.shift)) := by
  obtain ⟨c, x, rest, hs⟩ := h.current
  obtain ⟨tokens, t₀, hfresh, hcurrent, -⟩ := hs.exists_fresh r.options
  refine ⟨_, hfresh, fun n => ?_⟩
  have hmove := DocumentState.move_relocate r.current.span.start.shift r.options (.value []) t₀
  rw [← hcurrent, hm] at hmove
  cases hm₀ : (DocumentState.value []).move r.options t₀ with
  | take next | accept v =>
    rw [hm₀] at hmove
    cases hmove
  | refuse e₀ =>
    rw [hm₀] at hmove
    cases hmove
    rw [readings_of_refuse hm, readings_of_refuse (r := ⟨tokens, t₀, r.options⟩) hm₀,
      List.map_replicate]
    rfl

theorem Ahead.located (h : Ahead data r) : r.current.Located data := by
  obtain ⟨c, x, rest, hs, -⟩ := h
  exact hs.located

theorem Ahead.eq_behindCurrent (h : Ahead data r) : r = r.behindCurrent data := by
  obtain ⟨c, x, rest, hs, ht⟩ := h
  rw [behindCurrent, ← hs.tokens_eq, ← ht]

theorem Ahead.readings_end (h : Ahead data r) (hc : r.current.content = .endOfInput) (n : Nat) :
    r.readings n = List.replicate n
      (.error (.unexpected ⟨.endOfInput, "", ⟨.behind data, .behind data⟩⟩ .value)) := by
  obtain ⟨c, x, rest, hs, -⟩ := h
  obtain ⟨tokens, ⟨content, lexeme, span⟩, options⟩ := r
  obtain rfl : content = .endOfInput := hc
  obtain rfl := hs.last rfl
  have hx : x = [] := by
    cases hs.stands.text
    rfl
  subst hx
  have hdata : data = c := by simpa using hs.bytes
  have hspan : span = ⟨.behind data, .behind data⟩ := by
    rw [show span = _ from hs.stands.span, hdata]
    rfl
  have hlexeme : lexeme = "" := Text.utf8_injective hs.stands.lexeme
  subst hspan hlexeme
  exact readings_of_refuse rfl n

end DocumentReader

open DocumentReader

variable {data : Bytes} {options : ReadOptions} {r : DocumentReader Slice}

theorem blamed_of_blames {e : ReadError} {t : Token} (h : DocumentState.Blames options e t) :
    e.blamed? = some t.span.start := by
  obtain ⟨expected, rfl⟩ | rfl := h <;> rfl

/-- However often a reader has been used, behind an error that blames a token it goes on as a new
reader does over the part of the document that begins there, at shifted places; and behind a
document it finds nothing but the end. -/
theorem readings_resume (h : ofSource (Slice.ofBytes data) options = .ok r) (k : Nat) :
    (∀ e p, (r.again k).read.1 = .error e → e.blamed? = some p →
      Resumes data options (r.readings k) (r.again k) (r.again k).read.2 e p) ∧
    ∀ v, (r.again k).read.1 = .ok v → ∀ n, (r.again k).read.2.readings n = List.replicate n
      (.error (.unexpected ⟨.endOfInput, "", ⟨.behind data, .behind data⟩⟩ .value)) := by
  have hr := ahead_ofSource h
  obtain ⟨hin, hahead⟩ := inside_again hr k
  have hr₀ : r.options = options := (read_of_ofSource h).2
  have hk : (r.again k).options = options := (options_again r k).trans hr₀
  have hnext : (r.again k).read.2.options = options := (options_goOn _ _).trans hk
  have hends := goOn_ends (.value []) (r.again k) hin
  rw [← DocumentReader.read, hk] at hends
  generalize (r.again k).read.1 = outcome at hends ⊢
  constructor
  · rintro e p rfl hp
    obtain ⟨-, fault, hfault⟩ | ⟨hsame, hstop⟩ | ⟨hnew, s', hstop⟩ := hends
    · cases hfault
      cases hp
    · cases hstop with
      | refused hm =>
        have hb := DocumentState.blames_of_move hm
        cases (blamed_of_blames hb).symm.trans hp
        obtain ⟨c, x, rest, hs⟩ := hin.current
        have hm' := hk.symm ▸ hm
        rw [hsame]
        refine ⟨hb, hs.located, rfl, hk ▸ hin.readings hm', fun n => ?_, ?_⟩
        · rw [readings_of_refuse hm', readings_of_refuse (r := behindCurrent data (r.again k)) hm']
        · exact hahead.imp Ahead.eq_behindCurrent fun hstuck => ⟨rfl, hstuck e (hr₀.symm ▸ hm)⟩
    · cases hstop with
      | refused hm =>
        have hb := DocumentState.blames_of_move hm
        cases (blamed_of_blames hb).symm.trans hp
        have htaken := hnew.eq_behindCurrent
        exact ⟨hb, hnew.located, rfl, hnext ▸ hnew.readings,
          fun n => congrArg (DocumentReader.readings · n) htaken, .inl htaken⟩
  · rintro v rfl
    obtain ⟨-, fault, hfault⟩ | ⟨-, hstop⟩ | ⟨hnew, s', hstop⟩ := hends
    · cases hfault
    · cases hstop with
      | accepted hm => cases (DocumentState.accept_of_move hm).1
    · cases hstop with
      | accepted hm => exact hnew.readings_end (DocumentState.accept_of_move hm).2

/-- Behind a number a second one is blamed, then read by itself, and then there is only the end. -/
theorem readings_resume_number :
    ∃ r e v, ofSource (Slice.ofBytes (Text.utf8 "1 2")) {} = .ok r ∧
      (r.again 0).read.1 = .error e ∧ e.blamed? = some ⟨1, 3, 2⟩ ∧
      Resumes (Text.utf8 "1 2") {} (r.readings 0) (r.again 0) (r.again 0).read.2 e ⟨1, 3, 2⟩ ∧
      (r.again 1).read.1 = .ok v ∧ (r.again 1).read.2.readings 2 =
        List.replicate 2 (.error (.unexpected ⟨.endOfInput, "", ⟨⟨1, 4, 3⟩, ⟨1, 4, 3⟩⟩⟩ .value)) := by
  let data := Text.utf8 "1 2"
  let one : Token := ⟨.number .integer, "1", ⟨⟨1, 1, 0⟩, ⟨1, 2, 1⟩⟩⟩
  let two : Token := ⟨.number .integer, "2", ⟨⟨1, 3, 2⟩, ⟨1, 4, 3⟩⟩⟩
  let last : Token := ⟨.endOfInput, "", ⟨⟨1, 4, 3⟩, ⟨1, 4, 3⟩⟩⟩
  have hone : (TokenStream.ofSource (Slice.ofBytes data)).read =
      (.ok one, behind data (Text.utf8 "1") (Text.utf8 " 2") false) := by
    rw [TokenStream.read, TokenStream.ofSource, Slice.ofBytes, feed_slice]
    rfl
  have htwo : (behind data (Text.utf8 "1") (Text.utf8 " 2") false).read =
      (.ok two, behind data data [] false) := by
    rw [TokenStream.read, behind, feed_slice]
    rfl
  have hlast : (behind data data [] false).read = (.ok last, behind data data [] false) := by
    rw [TokenStream.read, behind, feed_slice]
    rfl
  have h : ofSource (Slice.ofBytes data) {} =
      .ok ⟨behind data (Text.utf8 "1") (Text.utf8 " 2") false, one, {}⟩ := by
    rw [ofSource_eq, hone]
    rfl
  have hfirst : DocumentReader.read
      ⟨behind data (Text.utf8 "1") (Text.utf8 " 2") false, one, {}⟩ =
        (.error (.unexpected two (.ofList [.endOfInput])), ⟨behind data data [] false, two, {}⟩) := by
    rw [DocumentReader.read, goOn_of_take rfl htwo, goOn_eq]
    rfl
  have hsecond : DocumentReader.read ⟨behind data data [] false, two, {}⟩ =
      (.ok (.number (.ofLiteral .exact .integer "2")), ⟨behind data data [] false, last, {}⟩) := by
    rw [DocumentReader.read, goOn_of_take rfl hlast, goOn_eq]
    rfl
  have hagain : DocumentReader.again
      ⟨behind data (Text.utf8 "1") (Text.utf8 " 2") false, one, {}⟩ 1 =
        ⟨behind data data [] false, two, {}⟩ := congrArg Prod.snd hfirst
  have hvalue := (congrArg (fun r => r.read.1) hagain).trans (congrArg Prod.fst hsecond)
  have herror := congrArg Prod.fst hfirst
  exact ⟨_, _, _, h, herror, rfl, (readings_resume h 0).1 _ _ herror rfl, hvalue,
    (readings_resume h 1).2 _ hvalue 2⟩

/-- The bytes that a fault takes stay taken when the token before them is blamed: the comma ends
behind three bytes, and six are taken. -/
theorem readings_resume_behind_fault :
    ∃ data r e fault, data = Text.utf8 "[1,\"\\q 2" ∧ ofSource (Slice.ofBytes data) {} = .ok r ∧
      (r.again 0).read.1 = .error (.lexical fault) ∧
      (r.again 1).read.1 = .error e ∧ e.blamed? = some ⟨1, 3, 2⟩ ∧
      (r.again 1).read.2.current.span = ⟨⟨1, 3, 2⟩, ⟨1, 4, 3⟩⟩ ∧
      (r.again 1).read.2.tokens = behind data (Text.utf8 "[1,\"\\q") (Text.utf8 " 2") false ∧
      (r.again 1).read.2 ≠ (r.again 1).read.2.behindCurrent data := by
  let data := Text.utf8 "[1,\"\\q 2"
  let bracket : Token := ⟨.openBracket, "[", ⟨⟨1, 1, 0⟩, ⟨1, 2, 1⟩⟩⟩
  let one : Token := ⟨.number .integer, "1", ⟨⟨1, 2, 1⟩, ⟨1, 3, 2⟩⟩⟩
  let comma : Token := ⟨.comma, ",", ⟨⟨1, 3, 2⟩, ⟨1, 4, 3⟩⟩⟩
  let tokens := behind data (Text.utf8 "[1,\"\\q") (Text.utf8 " 2") false
  have hbracket : (TokenStream.ofSource (Slice.ofBytes data)).read =
      (.ok bracket, behind data (Text.utf8 "[") (Text.utf8 "1,\"\\q 2") false) := by
    rw [TokenStream.read, TokenStream.ofSource, Slice.ofBytes, feed_slice]
    rfl
  have hone : (behind data (Text.utf8 "[") (Text.utf8 "1,\"\\q 2") false).read =
      (.ok one, behind data (Text.utf8 "[1") (Text.utf8 ",\"\\q 2") false) := by
    rw [TokenStream.read, behind, feed_slice]
    rfl
  have hcomma : (behind data (Text.utf8 "[1") (Text.utf8 ",\"\\q 2") false).read =
      (.ok comma, behind data (Text.utf8 "[1,") (Text.utf8 "\"\\q 2") false) := by
    rw [TokenStream.read, behind, feed_slice]
    rfl
  have hescape : (behind data (Text.utf8 "[1,") (Text.utf8 "\"\\q 2") false).read =
      (.error (.lexical ⟨.invalidEscape, some 'q', ⟨1, 5, 4⟩⟩), tokens) := by
    rw [TokenStream.read, behind, feed_slice]
    rfl
  have h := ofSource_of_read {} hbracket
  have hfirst : DocumentReader.read
      ⟨behind data (Text.utf8 "[") (Text.utf8 "1,\"\\q 2") false, bracket, {}⟩ =
        (.error (.lexical ⟨.invalidEscape, some 'q', ⟨1, 5, 4⟩⟩), ⟨tokens, comma, {}⟩) := by
    rw [DocumentReader.read, goOn_of_take rfl hone, goOn_of_take rfl hcomma, goOn_eq]
    simp only [hescape]
    rfl
  have hsecond : DocumentReader.read ⟨tokens, comma, {}⟩ =
      (.error (.unexpected comma .value), ⟨tokens, comma, {}⟩) := by
    rw [DocumentReader.read, goOn_eq]
    rfl
  have hagain : DocumentReader.again
      ⟨behind data (Text.utf8 "[") (Text.utf8 "1,\"\\q 2") false, bracket, {}⟩ 1 =
        ⟨tokens, comma, {}⟩ := congrArg Prod.snd hfirst
  refine ⟨data, _, .unexpected comma .value, _, rfl, h, congrArg Prod.fst hfirst, ?_, rfl, ?_⟩
  · rw [hagain, hsecond]
  · rw [hagain, hsecond]
    refine ⟨rfl, rfl, fun htaken => ?_⟩
    have hplace := congrArg (·.tokens.position.offset) htaken
    cases hplace

end ExactJson
