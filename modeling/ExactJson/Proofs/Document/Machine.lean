import ExactJson.Proofs.Document.Symbols

/-! The machine of the grammar as a relation between states, and that it goes over the symbols of
trees, and no others, to their values. -/
namespace ExactJson.DocumentState

inductive Begins : DocumentState → List Frame → Prop where
  | value (stack : List Frame) : Begins (.value stack) stack
  | firstItem (stack : List Frame) : Begins (.firstItem stack) (.array [] :: stack)

inductive Takes (limit : Nat) : DocumentState → Symbol → DocumentState → Prop where
  | scalar {s : DocumentState} {stack : List Frame} {a : Symbol} {v : Value}
      (hb : Begins s stack) (ha : a.value? = some v) : Takes limit s a (complete v stack)
  | openBrace {s : DocumentState} {stack : List Frame} (hb : Begins s stack)
      (hd : stack.length < limit) : Takes limit s .openBrace (.firstName stack)
  | openBracket {s : DocumentState} {stack : List Frame} (hb : Begins s stack)
      (hd : stack.length < limit) : Takes limit s .openBracket (.firstItem stack)
  | emptyArray (stack : List Frame) :
      Takes limit (.firstItem stack) .closeBracket (complete (.array []) stack)
  | itemComma (items : List Value) (stack : List Frame) :
      Takes limit (.itemEnd items stack) .comma (.value (.array items :: stack))
  | closeArray (items : List Value) (stack : List Frame) :
      Takes limit (.itemEnd items stack) .closeBracket (complete (.array items.reverse) stack)
  | emptyObject (stack : List Frame) :
      Takes limit (.firstName stack) .closeBrace (complete (.object []) stack)
  | firstName (k : String) (stack : List Frame) :
      Takes limit (.firstName stack) (.string k) (.colon [] k stack)
  | name (members : Object) (k : String) (stack : List Frame) :
      Takes limit (.name members stack) (.string k) (.colon members k stack)
  | colon (members : Object) (k : String) (stack : List Frame) :
      Takes limit (.colon members k stack) .colon (.value (.member members k :: stack))
  | memberComma (members : Object) (stack : List Frame) :
      Takes limit (.memberEnd members stack) .comma (.name members stack)
  | closeObject (members : Object) (stack : List Frame) :
      Takes limit (.memberEnd members stack) .closeBrace (complete (.object members) stack)

inductive Run (limit : Nat) : DocumentState → List Symbol → DocumentState → Prop where
  | nil (s : DocumentState) : Run limit s [] s
  | cons {s t u : DocumentState} {a : Symbol} {as : List Symbol} (h : Takes limit s a t)
      (hr : Run limit t as u) : Run limit s (a :: as) u

variable {limit : Nat} {s t u : DocumentState} {a : Symbol} {as bs : List Symbol}
variable {options : ReadOptions} {stack : List Frame} {token : Token} {v : Value}

theorem takes_of_beginValue (hb : Begins s stack) (expected : KindSet)
    (h : beginValue options expected stack token = .take t) :
    ∃ a, token.symbol? options.fractions = some a ∧ Takes options.maxDepth s a t := by
  obtain ⟨c, lexeme, span⟩ := token
  cases c with
  | openBrace =>
    simp only [beginValue, enter] at h
    split at h
    · cases h
    · cases h
      exact ⟨.openBrace, rfl, .openBrace hb (by omega)⟩
  | openBracket =>
    simp only [beginValue, enter] at h
    split at h
    · cases h
    · cases h
      exact ⟨.openBracket, rfl, .openBracket hb (by omega)⟩
  | string | number | boolean | null =>
    cases h
    exact ⟨_, rfl, .scalar hb rfl⟩
  | closeBrace | closeBracket | colon | comma | endOfInput => cases h

theorem takes_of_move (h : s.move options token = .take t) :
    ∃ a, token.symbol? options.fractions = some a ∧ Takes options.maxDepth s a t := by
  obtain ⟨c, lexeme, span⟩ := token
  cases s with
  | value stack => exact takes_of_beginValue (.value stack) _ h
  | firstItem stack =>
    cases c with
    | closeBracket =>
      cases h
      exact ⟨_, rfl, .emptyArray stack⟩
    | _ => exact takes_of_beginValue (.firstItem stack) (expected (.firstItem stack)) h
  | itemEnd items stack =>
    cases c with
    | comma =>
      cases h
      exact ⟨_, rfl, .itemComma items stack⟩
    | closeBracket =>
      cases h
      exact ⟨_, rfl, .closeArray items stack⟩
    | _ => cases h
  | firstName stack =>
    cases c with
    | closeBrace =>
      cases h
      exact ⟨_, rfl, .emptyObject stack⟩
    | string k =>
      cases h
      exact ⟨_, rfl, .firstName k stack⟩
    | _ => cases h
  | name members stack =>
    cases c with
    | string k =>
      cases h
      exact ⟨_, rfl, .name members k stack⟩
    | _ => cases h
  | colon members k stack =>
    cases c with
    | colon =>
      cases h
      exact ⟨_, rfl, .colon members k stack⟩
    | _ => cases h
  | memberEnd members stack =>
    cases c with
    | comma =>
      cases h
      exact ⟨_, rfl, .memberComma members stack⟩
    | closeBrace =>
      cases h
      exact ⟨_, rfl, .closeObject members stack⟩
    | _ => cases h
  | documentEnd v => cases c <;> cases h

theorem move_of_takes (ha : token.symbol? options.fractions = some a)
    (h : Takes options.maxDepth s a t) : s.move options token = .take t := by
  obtain ⟨c, lexeme, span⟩ := token
  cases h with
  | scalar hb hv =>
    cases c <;> cases ha <;> cases hv <;> cases hb <;> rfl
  | openBrace hb hd | openBracket hb hd =>
    cases c <;> cases ha
    cases hb <;> exact if_neg (by omega)
  | emptyArray | itemComma | closeArray | emptyObject | firstName | name | colon | memberComma
  | closeObject =>
    cases c <;> cases ha
    rfl

theorem beginValue_ne_accept (expected : KindSet) (stack : List Frame) (token : Token) (v : Value) :
    beginValue options expected stack token ≠ .accept v := by
  simp only [beginValue, enter]
  repeat' split
  all_goals
    intro h
    cases h

theorem move_firstItem (h : token.content ≠ .closeBracket) :
    (firstItem stack).move options token =
      beginValue options (expected (.firstItem stack)) (.array [] :: stack) token := by
  obtain ⟨c, lexeme, span⟩ := token
  cases c with
  | closeBracket => exact absurd rfl h
  | _ => rfl

theorem move_closeBracket (h : token.content = .closeBracket) :
    (firstItem stack).move options token = .take (complete (.array []) stack) := by
  simp only [move, h]

def Blames (options : ReadOptions) (e : ReadError) (token : Token) : Prop :=
  (∃ expected, e = .unexpected token expected) ∨
    e = .tooDeep options.maxDepth token.span.start

theorem blames_of_beginValue {expected : KindSet} {e : ReadError}
    (h : beginValue options expected stack token = .refuse e) : Blames options e token := by
  obtain ⟨c, lexeme, span⟩ := token
  cases c with
  | openBrace | openBracket =>
    simp only [beginValue, enter] at h
    split at h
    · cases h
      exact .inr rfl
    · cases h
  | string | number | boolean | null => cases h
  | closeBrace | closeBracket | colon | comma | endOfInput =>
    cases h
    exact .inl ⟨expected, rfl⟩

theorem blames_of_move {e : ReadError} (h : s.move options token = .refuse e) :
    Blames options e token := by
  cases s with
  | value stack => exact blames_of_beginValue h
  | firstItem stack =>
    by_cases hc : token.content = .closeBracket
    · rw [move_closeBracket hc] at h
      cases h
    · rw [move_firstItem hc] at h
      exact blames_of_beginValue h
  | itemEnd | firstName | name | colon | memberEnd | documentEnd =>
    obtain ⟨c, lexeme, span⟩ := token
    cases c <;> cases h <;> exact .inl ⟨_, rfl⟩

theorem accept_of_move (h : s.move options token = .accept v) :
    s = .documentEnd v ∧ token.content = .endOfInput := by
  cases s with
  | value stack => exact absurd h (beginValue_ne_accept _ stack token v)
  | firstItem stack =>
    by_cases hc : token.content = .closeBracket
    · simp [move, hc] at h
    · rw [move_firstItem hc] at h
      exact absurd h (beginValue_ne_accept _ _ token v)
  | documentEnd w =>
    obtain ⟨c, lexeme, span⟩ := token
    cases c with
    | endOfInput =>
      cases h
      exact ⟨rfl, rfl⟩
    | _ => cases h
  | itemEnd | firstName | name | colon | memberEnd =>
    obtain ⟨c, lexeme, span⟩ := token
    cases c <;> cases h

theorem Run.append (h : Run limit s as t) (hr : Run limit t bs u) : Run limit s (as ++ bs) u := by
  induction h with
  | nil => exact hr
  | cons h _ ih => exact .cons h (ih hr)

theorem Run.snoc (h : Run limit s as t) (ht : Takes limit t a u) : Run limit s (as ++ [a]) u :=
  h.append (.cons ht (.nil u))

section Completeness

theorem run_moreItems {vs : List Value} (hvs : ∀ v ∈ vs, ∀ {s stack}, Begins s stack →
      v.depth + stack.length ≤ limit → Run limit s v.symbols (complete v.settled stack))
    (hd : ∀ v ∈ vs, v.depth + (stack.length + 1) ≤ limit) (items : List Value) :
    Run limit (.itemEnd items stack) (Value.moreItems vs)
      (complete (.array (items.reverse ++ vs.map Value.settled)) stack) := by
  induction vs generalizing items with
  | nil =>
    rw [Value.moreItems, List.map_nil, List.append_nil]
    exact .cons (.closeArray items stack) (.nil _)
  | cons v vs ih =>
    have hv := hvs v List.mem_cons_self (.value (.array items :: stack))
      (hd v List.mem_cons_self)
    have hrest := ih (fun w hw => hvs w (List.mem_cons_of_mem v hw))
      (fun w hw => hd w (List.mem_cons_of_mem v hw)) (v.settled :: items)
    rw [List.reverse_cons, List.append_assoc] at hrest
    exact .cons (.itemComma items stack) (hv.append hrest)

theorem run_moreMembers {ms : List (String × Value)} (hms : ∀ m ∈ ms, ∀ {s stack}, Begins s stack →
      m.2.depth + stack.length ≤ limit → Run limit s m.2.symbols (complete m.2.settled stack))
    (hd : ∀ m ∈ ms, m.2.depth + (stack.length + 1) ≤ limit) (members : Object) :
    Run limit (.memberEnd members stack) (Value.moreMembers ms)
      (complete (.object (members.extend (ms.map Value.settledMember))) stack) := by
  induction ms generalizing members with
  | nil => exact .cons (.closeObject members stack) (.nil _)
  | cons m ms ih =>
    have hm := hms m List.mem_cons_self (.value (.member members m.1 :: stack))
      (hd m List.mem_cons_self)
    have hrest := ih (fun w hw => hms w (List.mem_cons_of_mem m hw))
      (fun w hw => hd w (List.mem_cons_of_mem m hw)) (members.insert m.1 m.2.settled)
    exact .cons (.memberComma members stack) (.cons (.name members m.1 stack)
      (.cons (.colon members m.1 stack) (hm.append hrest)))

/-- The machine goes over the symbols of a tree to its value. -/
theorem run_symbols (v : Value) {s : DocumentState} {stack : List Frame} (hb : Begins s stack)
    (hd : v.depth + stack.length ≤ limit) : Run limit s v.symbols (complete v.settled stack) := by
  induction v using Value.induction generalizing s stack with
  | null | boolean | number | string => exact .cons (.scalar hb rfl) (.nil _)
  | array vs ih =>
    have hdepth : ∀ v ∈ vs, v.depth + (stack.length + 1) ≤ limit := fun v hv => by
      have hv := (Value.depth_array_le.mp (Nat.le_refl _)).2 v hv
      omega
    have hopen : stack.length < limit := by
      have h₁ := (Value.depth_array_le.mp (Nat.le_refl (Value.array vs).depth)).1
      omega
    rw [Value.settled_array]
    cases vs with
    | nil => exact .cons (.openBracket hb hopen) (.cons (.emptyArray stack) (.nil _))
    | cons v vs =>
      have hv := ih v List.mem_cons_self (.firstItem stack) (hdepth v List.mem_cons_self)
      have hrest := run_moreItems (fun w hw => ih w (List.mem_cons_of_mem v hw))
        (fun w hw => hdepth w (List.mem_cons_of_mem v hw)) [v.settled]
      exact .cons (.openBracket hb hopen) (hv.append hrest)
  | object ms ih =>
    have hdepth : ∀ m ∈ ms, m.2.depth + (stack.length + 1) ≤ limit := fun m hm => by
      have hm := (Value.depth_object_le.mp (Nat.le_refl _)).2 m hm
      omega
    have hopen : stack.length < limit := by
      have h₁ := (Value.depth_object_le.mp (Nat.le_refl (Value.object ms).depth)).1
      omega
    rw [Value.settled_object]
    cases ms with
    | nil => exact .cons (.openBrace hb hopen) (.cons (.emptyObject stack) (.nil _))
    | cons m ms =>
      have hm := ih m List.mem_cons_self (.value (.member [] m.1 :: stack))
        (hdepth m List.mem_cons_self)
      have hrest := run_moreMembers (fun w hw => ih w (List.mem_cons_of_mem m hw))
        (fun w hw => hdepth w (List.mem_cons_of_mem m hw)) [(m.1, m.2.settled)]
      exact .cons (.openBrace hb hopen) (.cons (.firstName m.1 stack)
        (.cons (.colon [] m.1 stack) (hm.append hrest)))

end Completeness

end ExactJson.DocumentState
