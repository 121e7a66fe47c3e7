import ExactJson.Proofs.Document.Related
import ExactJson.Proofs.Value.Numbers

/-! Where the numbers of documents come from. Whatever a document is read from, and however often its
reader is used, each of its numbers is made from a literal. -/
namespace ExactJson
open Grammar Text

def Number.OfText (policy : FractionPolicy) (n : Number) : Prop := ∃ form t,
  NumberText form (utf8 t) ∧ n = .ofLiteral policy form t

theorem Grammar.TokenText.numberText {form : NumberForm} {x : Bytes}
    (h : TokenText (.number form) x) : NumberText form x := by
  cases h with
  | number h => exact h

namespace TokenStream
variable {σ : Type} [Source σ]

/-- Over any source a stream runs the lexer, on the bytes that it is shown, unless the source fails. -/
theorem feed_eq_run (state : Lexer.State) (t : TokenStream σ) :
    (∃ e, (t.feed state).1 = .error (.input e)) ∨
      ∃ bs, (t.feed state).1 = (state.run t.position bs).1.mapError .lexical := by
  fun_induction feed state t with
  | case1 state t e s hs => exact .inl ⟨e, rfl⟩
  | case2 state t s hs => exact .inr ⟨[], rfl⟩
  | case3 state t b s hs next hstep ih =>
    obtain he | ⟨bs, hbs⟩ := ih
    · exact .inl he
    · refine .inr ⟨b :: bs, ?_⟩
      simpa only [Lexer.State.run, hstep] using hbs
  | case4 state t b s hs outcome hstep | case5 state t b s hs outcome hstep =>
    exact .inr ⟨[b], by simp only [Lexer.State.run, hstep]⟩

theorem tokenText_of_read {t u : TokenStream σ} {token : Token} (h : t.read = (.ok token, u)) :
    TokenText token.content (utf8 token.lexeme) := by
  obtain ⟨e, he⟩ | ⟨bs, hbs⟩ := feed_eq_run .between t
  · rw [← read, h] at he
    cases he
  · rw [← read, h] at hbs
    cases hr : Lexer.State.between.run t.position bs with
    | mk outcome left =>
      rw [hr] at hbs
      cases outcome with
      | error e => cases hbs
      | ok token' =>
        cases hbs
        obtain ⟨w, x, -, hs, -⟩ := Lexer.stands_of_run hr
        exact hs.lexeme.symm ▸ hs.text

end TokenStream

def Frame.numbers : Frame → List Number
  | array items => (Value.array items).numbers
  | member members _ => (Value.object members).numbers

namespace DocumentState
variable {limit : Nat} {s s' : DocumentState} {stack : List Frame} {a : Symbol} {n : Number}
variable {v : Value} {options : ReadOptions} {t : Token}

def numbers : DocumentState → List Number
  | value stack | firstItem stack | firstName stack => stack.flatMap Frame.numbers
  | itemEnd items stack => (Value.array items).numbers ++ stack.flatMap Frame.numbers
  | name members stack | colon members _ stack | memberEnd members stack =>
    (Value.object members).numbers ++ stack.flatMap Frame.numbers
  | documentEnd v => v.numbers

/-- A value brings its numbers into the container that waits for it, where it may take the place of
others. -/
theorem mem_numbers_complete (h : n ∈ (complete v stack).numbers) :
    n ∈ v.numbers ∨ n ∈ stack.flatMap Frame.numbers := by
  cases stack with
  | nil => exact .inl h
  | cons frame stack =>
    rw [List.flatMap_cons, List.mem_append]
    cases frame with
    | array items =>
      obtain h | h := List.mem_append.mp h
      · obtain h | h := List.mem_append.mp h
        · exact .inl h
        · exact .inr (.inl h)
      · exact .inr (.inr h)
    | member members key =>
      obtain h | h := List.mem_append.mp h
      · obtain ⟨m, hm, hn⟩ := Value.mem_numbers_object.mp h
        obtain rfl | hm := OrderedMap.mem_insert hm
        · exact .inl hn
        · exact .inr (.inl (Value.mem_numbers_object.mpr ⟨m, hm, hn⟩))
      · exact .inr (.inr h)

theorem Begins.numbers_eq (h : Begins s stack) : s.numbers = stack.flatMap Frame.numbers := by
  cases h <;> rfl

theorem Takes.mem_numbers (h : Takes limit s a s') (hn : n ∈ s'.numbers) :
    n ∈ s.numbers ∨ a = .number n := by
  cases h with
  | scalar hb hv =>
    rw [hb.numbers_eq]
    refine (mem_numbers_complete hn).symm.imp_right fun hn => ?_
    cases a with
    | number m =>
      cases hv
      rw [List.mem_singleton.mp hn]
    | string | boolean | null =>
      cases hv
      cases hn
    | openBrace | closeBrace | openBracket | closeBracket | colon | comma => cases hv
  | openBrace hb hd | openBracket hb hd =>
    rw [hb.numbers_eq]
    exact .inl hn
  | emptyArray stack | emptyObject stack =>
    exact .inl ((mem_numbers_complete hn).resolve_left List.not_mem_nil)
  | closeArray items stack =>
    refine .inl (List.mem_append.mpr ((mem_numbers_complete hn).imp_left fun hn => ?_))
    obtain ⟨v, hv, hn⟩ := Value.mem_numbers_array.mp hn
    exact Value.mem_numbers_array.mpr ⟨v, List.mem_reverse.mp hv, hn⟩
  | closeObject members stack => exact .inl (List.mem_append.mpr (mem_numbers_complete hn))
  | itemComma | firstName | name | colon | memberComma => exact .inl hn

theorem ofText_of_move (ht : TokenText t.content (utf8 t.lexeme))
    (hs : ∀ n ∈ s.numbers, n.OfText options.fractions) (hm : s.move options t = .take s') :
    ∀ n ∈ s'.numbers, n.OfText options.fractions := by
  intro n hn
  obtain ⟨a, ha, htakes⟩ := takes_of_move hm
  obtain hn | rfl := htakes.mem_numbers hn
  · exact hs n hn
  · obtain ⟨content, lexeme, span⟩ := t
    cases content with
    | number form =>
      cases ha
      exact ⟨form, lexeme, ht.numberText, rfl⟩
    | _ => cases ha

end DocumentState

namespace DocumentReader
variable {σ : Type} [Source σ] {r : DocumentReader σ}

def Spelled (r : DocumentReader σ) : Prop := TokenText r.current.content (utf8 r.current.lexeme)

theorem ofText_goOn (s : DocumentState) (r : DocumentReader σ) (hr : r.Spelled)
    (hs : ∀ n ∈ s.numbers, n.OfText r.options.fractions) :
    (r.goOn s).2.Spelled ∧
      ∀ v, (r.goOn s).1 = .ok v → ∀ n ∈ v.numbers, n.OfText r.options.fractions := by
  fun_induction goOn s r with
  | case1 s r e hm =>
    refine ⟨hr, ?_⟩
    rintro v ⟨⟩
  | case2 s r v hm =>
    refine ⟨hr, ?_⟩
    rintro w ⟨⟩
    obtain ⟨rfl, -⟩ := DocumentState.accept_of_move hm
    exact hs
  | case3 s r next hm e tokens hread =>
    refine ⟨hr, ?_⟩
    rintro v ⟨⟩
  | case4 s r next hm token tokens hread ih =>
    exact ih (TokenStream.tokenText_of_read hread) (DocumentState.ofText_of_move hr hs hm)

theorem ofText_readings (hr : r.Spelled) {k : Nat} {v : Value} (hv : .ok v ∈ r.readings k) :
    ∀ n ∈ v.numbers, n.OfText r.options.fractions := by
  induction k generalizing r with
  | zero => cases hv
  | succ k ih =>
    obtain ⟨hnext, hfirst⟩ := ofText_goOn (.value []) r hr (List.forall_mem_nil _)
    obtain hv | hv := List.mem_cons.mp hv
    · exact hfirst v hv.symm
    · exact options_goOn (.value []) r ▸ ih hnext hv

theorem spelled_ofSource {source : σ} {options : ReadOptions}
    (h : ofSource source options = .ok r) : r.Spelled :=
  TokenStream.tokenText_of_read (read_of_ofSource h).1

end DocumentReader
end ExactJson
