import ExactJson.Proofs.Document.Kinds
import ExactJson.Proofs.Document.Outline
import ExactJson.Proofs.Document.Reading

/-! The error of a document is the first that there is: what comes before it can still become a
document, and exactly the expected kinds can follow. -/
namespace ExactJson
open Grammar TokenStream DocumentReader

namespace DocumentState

variable {limit limit' : Nat} {s t : DocumentState} {a : Symbol} {as : List Symbol} {k : TokenKind}
variable {stack : List Frame} {v : Value} {options : ReadOptions} {token : Token} {e : ReadError}

theorem refuse_of_beginValue {expected : KindSet}
    (h : beginValue options expected stack token = .refuse e) :
    (e = .unexpected token expected ∧
        ∀ arrays, Outline.beginValue? arrays token.kind = none) ∨
      (options.maxDepth ≤ stack.length ∧ token.content ≠ .endOfInput) := by
  obtain ⟨c, lexeme, span⟩ := token
  cases c with
  | openBrace | openBracket =>
    simp only [beginValue, enter] at h
    split at h
    · exact .inr ⟨by omega, by simp⟩
    · cases h
  | string | number | boolean | null => cases h
  | closeBrace | closeBracket | colon | comma | endOfInput =>
    cases h
    exact .inl ⟨rfl, fun _ => rfl⟩

theorem kind_ne_closeBracket (h : token.content ≠ .closeBracket) : token.kind ≠ .closeBracket := by
  obtain ⟨c, lexeme, span⟩ := token
  cases c with
  | closeBracket => exact absurd rfl h
  | boolean b => cases b <;> simp [Token.kind, TokenContent.kind]
  | _ => simp [Token.kind, TokenContent.kind]

theorem refuse_of_move (h : s.move options token = .refuse e) :
    (e = .unexpected token s.expected ∧ s.outline.next? token.kind = none ∧
        ¬(s.outline.place = .documentEnd ∧ token.kind = .endOfInput)) ∨
      (options.maxDepth ≤ s.containers ∧ token.content ≠ .endOfInput) := by
  cases s with
  | value stack =>
    obtain ⟨he, hk⟩ | hdeep := refuse_of_beginValue h
    · exact .inl ⟨he, hk _, by simp [outline]⟩
    · exact .inr hdeep
  | firstItem stack =>
    by_cases hc : token.content = .closeBracket
    · simp [move, hc] at h
    · rw [move_firstItem hc] at h
      have hnext := (Begins.firstItem stack).next? (kind_ne_closeBracket hc)
      obtain ⟨he, hk⟩ | hdeep := refuse_of_beginValue h
      · exact .inl ⟨he, hnext.trans (hk _), by simp [outline]⟩
      · exact .inr hdeep
  | itemEnd | firstName | name | colon | memberEnd =>
    obtain ⟨c, lexeme, span⟩ := token
    cases c with
    | boolean b =>
      cases h
      exact .inl ⟨rfl, by cases b <;> rfl, by simp [outline]⟩
    | _ => cases h <;> exact .inl ⟨rfl, rfl, by simp [outline]⟩
  | documentEnd v =>
    obtain ⟨c, lexeme, span⟩ := token
    cases c with
    | boolean b =>
      cases h
      exact .inl ⟨rfl, rfl, by cases b <;> simp [Token.kind, TokenContent.kind]⟩
    | _ => cases h <;> exact .inl ⟨rfl, rfl, by simp [Token.kind, TokenContent.kind]⟩

theorem not_expected_of_refuse (hk : s.outline.next? k = none)
    (hend : ¬(s.outline.place = .documentEnd ∧ k = .endOfInput)) :
    s.expected.contains k = false := by
  rw [Bool.eq_false_iff]
  intro h
  obtain ⟨o, ho⟩ | hplace := contains_expected.mp h
  · rw [hk] at ho
    cases ho
  · exact hend hplace

theorem Takes.mono (h : Takes limit s a t) (hl : limit ≤ limit') : Takes limit' s a t := by
  cases h with
  | scalar hb ha => exact .scalar hb ha
  | openBrace hb hd => exact .openBrace hb (Nat.lt_of_lt_of_le hd hl)
  | openBracket hb hd => exact .openBracket hb (Nat.lt_of_lt_of_le hd hl)
  | emptyArray stack => exact .emptyArray stack
  | itemComma items stack => exact .itemComma items stack
  | closeArray items stack => exact .closeArray items stack
  | emptyObject stack => exact .emptyObject stack
  | firstName k stack => exact .firstName k stack
  | name members k stack => exact .name members k stack
  | colon members k stack => exact .colon members k stack
  | memberComma members stack => exact .memberComma members stack
  | closeObject members stack => exact .closeObject members stack

theorem Run.mono (h : Run limit s as t) (hl : limit ≤ limit') : Run limit' s as t := by
  induction h with
  | nil s => exact .nil s
  | cons h _ ih => exact .cons (h.mono hl) ih

theorem Begins.exists_takes (hb : Begins s stack) (hl : stack.length < limit) {arrays : List Bool}
    {o : Outline} (h : Outline.beginValue? arrays k = some o) :
    ∃ a t, a.kind = k ∧ Takes limit s a t := by
  cases k with
  | openBrace => exact ⟨_, _, rfl, .openBrace hb hl⟩
  | openBracket => exact ⟨_, _, rfl, .openBracket hb hl⟩
  | string => exact ⟨.string "", _, rfl, .scalar hb rfl⟩
  | number => exact ⟨.number (.ofInt 0), _, rfl, .scalar hb rfl⟩
  | trueWord => exact ⟨.boolean true, _, rfl, .scalar hb rfl⟩
  | falseWord => exact ⟨.boolean false, _, rfl, .scalar hb rfl⟩
  | nullWord => exact ⟨.null, _, rfl, .scalar hb rfl⟩
  | closeBrace | closeBracket | colon | comma | endOfInput => cases h

theorem exists_takes (hl : s.containers < limit) {o : Outline} (h : s.outline.next? k = some o) :
    ∃ a t, a.kind = k ∧ Takes limit s a t := by
  cases s with
  | value stack => exact (Begins.value stack).exists_takes hl h
  | firstItem stack =>
    by_cases hk : k = .closeBracket
    · subst hk
      exact ⟨_, _, rfl, .emptyArray stack⟩
    · rw [(Begins.firstItem stack).next? hk] at h
      exact (Begins.firstItem stack).exists_takes hl h
  | itemEnd items stack =>
    cases k with
    | comma => exact ⟨_, _, rfl, .itemComma items stack⟩
    | closeBracket => exact ⟨_, _, rfl, .closeArray items stack⟩
    | _ => cases h
  | firstName stack =>
    cases k with
    | string => exact ⟨_, _, rfl, .firstName "" stack⟩
    | closeBrace => exact ⟨_, _, rfl, .emptyObject stack⟩
    | _ => cases h
  | name members stack =>
    cases k with
    | string => exact ⟨_, _, rfl, .name members "" stack⟩
    | _ => cases h
  | colon members name stack =>
    cases k with
    | colon => exact ⟨_, _, rfl, .colon members name stack⟩
    | _ => cases h
  | memberEnd members stack =>
    cases k with
    | comma => exact ⟨_, _, rfl, .memberComma members stack⟩
    | closeBrace => exact ⟨_, _, rfl, .closeObject members stack⟩
    | _ => cases h
  | documentEnd v => cases h

theorem exists_close (limit : Nat) (v : Value) (stack : List Frame) :
    ∃ as w, Run limit (complete v stack) as (.documentEnd w) := by
  induction stack generalizing v with
  | nil => exact ⟨[], v, .nil _⟩
  | cons f stack ih =>
    cases f with
    | array items =>
      obtain ⟨as, w, h⟩ := ih (.array (v :: items).reverse)
      exact ⟨_, w, .cons (.closeArray (v :: items) stack) h⟩
    | member members name =>
      obtain ⟨as, w, h⟩ := ih (.object (members.insert name v))
      exact ⟨_, w, .cons (.closeObject (members.insert name v) stack) h⟩

theorem exists_run_documentEnd (limit : Nat) (s : DocumentState) :
    ∃ as v, Run limit s as (.documentEnd v) := by
  have close {u : DocumentState} {b : Symbol} {w : Value} {rest : List Frame}
      (h : Takes limit u b (complete w rest)) : ∃ as v, Run limit u as (.documentEnd v) := by
    obtain ⟨as, v, hr⟩ := exists_close limit w rest
    exact ⟨_, v, .cons h hr⟩
  have member (members : Object) (name : String) (rest : List Frame) :
      ∃ as v, Run limit (.colon members name rest) as (.documentEnd v) := by
    obtain ⟨as, v, hr⟩ := close (.scalar (.value (.member members name :: rest)) (a := .null) rfl)
    exact ⟨_, v, .cons (.colon members name rest) hr⟩
  cases s with
  | value stack => exact close (.scalar (.value stack) (a := .null) rfl)
  | firstItem stack => exact close (.emptyArray stack)
  | itemEnd items stack => exact close (.closeArray items stack)
  | firstName stack => exact close (.emptyObject stack)
  | name members stack =>
    obtain ⟨as, v, hr⟩ := member members "" stack
    exact ⟨_, v, .cons (.name members "" stack) hr⟩
  | colon members name stack => exact member members name stack
  | memberEnd members stack => exact close (.closeObject members stack)
  | documentEnd v => exact ⟨[], v, .nil _⟩

theorem viable_of_run (h : Run limit (.value []) as s) : Viable (as.map Symbol.kind) := by
  obtain ⟨bs, v, hr⟩ := exists_run_documentEnd limit s
  obtain ⟨tree, htree, -⟩ := exists_tree (h.append hr)
  refine ⟨bs.map Symbol.kind ++ [.endOfInput], sentence_iff.mpr ⟨tree, ?_⟩⟩
  rw [← htree, List.map_append, List.append_assoc]

/-- In a state that is reached, the expected kinds are exactly those that can follow. -/
theorem viable_snoc_iff (h : Run limit (.value []) as s) :
    Viable (as.map Symbol.kind ++ [k]) ↔ s.expected.contains k = true := by
  rw [contains_expected]
  constructor
  · rintro ⟨more, hs⟩
    obtain ⟨tree, htree⟩ := sentence_iff.mp hs
    have hrun := (run_symbols tree (.value []) (Nat.le_refl tree.depth)).outline
    -- The end of the document is either the kind itself or the last of what follows it.
    induction more using List.reverseRecOn with
    | nil =>
      rw [List.append_nil] at htree
      obtain ⟨has, hk⟩ := List.append_inj' htree rfl
      rw [← has, h.outline] at hrun
      cases hk
      exact .inr ⟨congrArg Outline.place (Option.some.inj hrun), rfl⟩
    | append_singleton more _ _ =>
      rw [← List.append_assoc] at htree
      obtain ⟨has, -⟩ := List.append_inj' htree rfl
      rw [← has, List.append_assoc, Outline.run?_append, h.outline, Option.bind_some] at hrun
      obtain ⟨o, ho, -⟩ := Option.bind_eq_some_iff.mp hrun
      exact .inl ⟨o, ho⟩
  · rintro (⟨o, ho⟩ | ⟨hplace, rfl⟩)
    · obtain ⟨a, t, rfl, ht⟩ := exists_takes (Nat.lt_succ_self s.containers) ho
      have hrun := (h.mono (Nat.le_max_left limit _)).snoc (ht.mono (Nat.le_max_right limit _))
      simpa using viable_of_run hrun
    · cases s with
      | documentEnd v =>
        obtain ⟨tree, rfl, -⟩ := exists_tree h
        exact ⟨[], sentence_iff.mpr ⟨tree, List.append_nil _⟩⟩
      | _ => cases hplace

end DocumentState

variable {data : Bytes} {options : ReadOptions} {e : ReadError}

/-- Where the limit on nesting cannot be met, the error is at the first token that cannot be read or
cannot follow those before it, and it names exactly the kinds that can. -/
theorem readBytes_eq_error (h : data.length ≤ options.maxDepth)
    (he : readBytes data options = .error e) :
    ∃ ts u, Reads (TokenStream.ofSource (Slice.ofBytes data)) ts u ∧ Viable (ts.map Token.kind) ∧
      ((∃ t v expected, e = .unexpected t expected ∧ u.read = (.ok t, v) ∧
          expected.contains t.kind = false ∧
          ∀ k, expected.contains k = true ↔ Viable (ts.map Token.kind ++ [k])) ∨
        ∃ fault v, e = .lexical fault ∧ u.read = (.error (.lexical fault), v)) := by
  obtain ⟨ts, s, u, hf, hend⟩ := exists_follows options (.value []) (ofRest data .start data)
  rw [readBytes_eq_answer, hf.answer] at he
  obtain ⟨as, has, hrun⟩ := hf.run
  obtain ⟨q, rest, rfl, -, hlen⟩ := hf.reads.ofRest
  have hkinds : ts.map Token.kind = as.map Symbol.kind :=
    map_of_symbols has fun _ _ _ ha => (Token.kind_of_symbol? ha).symm
  refine ⟨ts, _, hf.reads, hkinds ▸ DocumentState.viable_of_run hrun, ?_⟩
  obtain ⟨e', v, hread⟩ | ⟨t, v, hread, hnot⟩ := hend
  · rw [answer_of_error hread] at he
    obtain ⟨fault, rfl⟩ := lexical_of_read hread
    cases he
    exact .inr ⟨fault, v, rfl, hread⟩
  · cases hm : s.move options t with
    | take n => exact absurd hm (hnot n)
    | accept w =>
      rw [answer_of_accept hread hm] at he
      cases he
    | refuse e' =>
      rw [answer_of_refuse hread hm] at he
      cases he
      obtain ⟨rfl, hnext, hplace⟩ | ⟨hdeep, hc⟩ := DocumentState.refuse_of_move hm
      · refine .inl ⟨t, v, s.expected, rfl, hread,
          DocumentState.not_expected_of_refuse hnext hplace, fun k => ?_⟩
        rw [hkinds, DocumentState.viable_snoc_iff hrun]
      · -- There are no more containers than tokens, and one byte at least for each of these.
        have hopen : s.containers ≤ 0 + as.length := hrun.containers_le
        have hcount : ts.length = as.length := by simpa using congrArg List.length has
        obtain ⟨w, x, left, rfl, ht, -⟩ := stands_of_read hread
        have hx := length_pos_of_tokenText ht.text hc
        have hbytes := hlen (content_ne_of_symbols has)
        simp only [List.length_append] at hbytes
        omega

/-- Behind a bracket a comma is the first error, and a value or the other bracket could follow. -/
theorem readBytes_comma_behind_bracket :
    (Text.utf8 "[,").length ≤ ({} : ReadOptions).maxDepth ∧
      readBytes (Text.utf8 "[,") {} = .error (.unexpected ⟨.comma, ",", ⟨⟨1, 2, 1⟩, ⟨1, 3, 2⟩⟩⟩
        (KindSet.value.insert .closeBracket)) ∧
      ∃ ts : List Token, Viable (ts.map Token.kind) ∧
        ∀ k, (KindSet.value.insert .closeBracket).contains k = true ↔
          Viable (ts.map Token.kind ++ [k]) := by
  have hlen : (Text.utf8 "[,").length ≤ ({} : ReadOptions).maxDepth := by decide
  have hbracket : Token.Stands ⟨.openBracket, "[", ⟨.start, ⟨1, 2, 1⟩⟩⟩ .start [] [Ascii.openBracket] :=
    ⟨.nil, .openBracket, rfl, rfl⟩
  have hcomma : Token.Stands ⟨.comma, ",", ⟨⟨1, 2, 1⟩, ⟨1, 3, 2⟩⟩⟩ ⟨1, 2, 1⟩ [] [Ascii.comma] :=
    ⟨.nil, .comma, rfl, rfl⟩
  have he : readBytes (Text.utf8 "[,") {} = .error (.unexpected
      ⟨.comma, ",", ⟨⟨1, 2, 1⟩, ⟨1, 3, 2⟩⟩⟩ (KindSet.value.insert .closeBracket)) := by
    have hfirst : (ofRest (Text.utf8 "[,") .start ([] ++ [Ascii.openBracket] ++ [Ascii.comma])).read =
      _ := read_of_stands hbracket trivial
    have hsecond : (ofRest (Text.utf8 "[,") ⟨1, 2, 1⟩ ([] ++ [Ascii.comma] ++ [])).read = _ :=
      read_of_stands hcomma trivial
    have htake : answer {} (.value []) (ofRest (Text.utf8 "[,") .start _) = _ :=
      answer_of_take hfirst rfl
    rw [readBytes_eq_answer]
    exact htake.trans (answer_of_refuse hsecond rfl)
  refine ⟨hlen, he, ?_⟩
  obtain ⟨ts, u, -, hts, ⟨t, v, expected, hexp, -, -, hk⟩ | ⟨fault, v, hfault, -⟩⟩ :=
    readBytes_eq_error hlen he
  · cases hexp
    exact ⟨ts, hts, hk⟩
  · cases hfault

end ExactJson
