import ExactJson.Document.State
import ExactJson.Proofs.Value.Tree

/-! What the grammar of documents sees of a token, and the symbols of a tree in the order in which a
document has them. -/
namespace ExactJson

inductive Symbol where
  | openBrace
  | closeBrace
  | openBracket
  | closeBracket
  | colon
  | comma
  | string (s : String)
  | number (n : Number)
  | boolean (b : Bool)
  | null

namespace Symbol

def kind : Symbol → TokenKind
  | openBrace => .openBrace
  | closeBrace => .closeBrace
  | openBracket => .openBracket
  | closeBracket => .closeBracket
  | colon => .colon
  | comma => .comma
  | string _ => .string
  | number _ => .number
  | boolean true => .trueWord
  | boolean false => .falseWord
  | null => .nullWord

def value? : Symbol → Option Value
  | string s => some (.string s)
  | number n => some (.number n)
  | boolean b => some (.boolean b)
  | null => some .null
  | _ => none

end Symbol

def Token.symbol? (policy : FractionPolicy) (t : Token) : Option Symbol :=
  match t.content with
  | .openBrace => some .openBrace
  | .closeBrace => some .closeBrace
  | .openBracket => some .openBracket
  | .closeBracket => some .closeBracket
  | .colon => some .colon
  | .comma => some .comma
  | .string s => some (.string s)
  | .number form => some (.number (.ofLiteral policy form t.lexeme))
  | .boolean b => some (.boolean b)
  | .null => some .null
  | .endOfInput => none

theorem Token.kind_of_symbol? {policy : FractionPolicy} {t : Token} {a : Symbol}
    (h : t.symbol? policy = some a) : a.kind = t.kind := by
  obtain ⟨c, lexeme, span⟩ := t
  cases c with
  | boolean b =>
    cases h
    cases b <;> rfl
  | endOfInput => cases h
  | _ =>
    cases h
    rfl

theorem Token.symbol?_eq_none {policy : FractionPolicy} {t : Token} :
    t.symbol? policy = none ↔ t.content = .endOfInput := by
  obtain ⟨c, lexeme, span⟩ := t
  cases c <;> simp [symbol?]

theorem content_ne_of_symbols {policy : FractionPolicy} {ts : List Token} {as : List Symbol}
    (h : ts.map (Token.symbol? policy) = as.map some) : ∀ t ∈ ts, t.content ≠ .endOfInput := by
  intro t ht hend
  have hmem : t.symbol? policy ∈ as.map some := h ▸ List.mem_map_of_mem ht
  rw [Token.symbol?_eq_none.mpr hend] at hmem
  simp at hmem

theorem map_of_symbols {β : Type} {policy : FractionPolicy} {f : Token → β} {g : Symbol → β}
    {ts : List Token} {as : List Symbol} (h : ts.map (Token.symbol? policy) = as.map some)
    (hfg : ∀ t ∈ ts, ∀ a, t.symbol? policy = some a → f t = g a) : ts.map f = as.map g := by
  induction ts generalizing as with
  | nil =>
    obtain rfl := List.map_eq_nil_iff.mp h.symm
    rfl
  | cons t ts ih =>
    cases as with
    | nil => cases h
    | cons a as =>
      obtain ⟨hhead, htail⟩ := List.cons.inj h
      have hrest := ih htail fun u hu => hfg u (List.mem_cons_of_mem t hu)
      rw [List.map_cons, List.map_cons, hrest, hfg t List.mem_cons_self a hhead]

namespace Value

mutual
def symbols : Value → List Symbol
  | null => [.null]
  | boolean b => [.boolean b]
  | number n => [.number n]
  | string s => [.string s]
  | array [] => [.openBracket, .closeBracket]
  | array (v :: vs) => .openBracket :: (v.symbols ++ moreItems vs)
  | object [] => [.openBrace, .closeBrace]
  | object ((k, v) :: ms) => .openBrace :: .string k :: .colon :: (v.symbols ++ moreMembers ms)
def moreItems : List Value → List Symbol
  | [] => [.closeBracket]
  | v :: vs => .comma :: (v.symbols ++ moreItems vs)
def moreMembers : List (String × Value) → List Symbol
  | [] => [.closeBrace]
  | (k, v) :: ms => .comma :: .string k :: .colon :: (v.symbols ++ moreMembers ms)
end

def itemsBefore (vs : List Value) : List Symbol := vs.flatMap fun v => v.symbols ++ [.comma]

def memberSymbols (m : String × Value) : List Symbol := .string m.1 :: .colon :: m.2.symbols

def membersBefore (ms : List (String × Value)) : List Symbol :=
  ms.flatMap fun m => memberSymbols m ++ [.comma]

theorem itemsBefore_snoc (vs : List Value) (v : Value) :
    itemsBefore (vs ++ [v]) = itemsBefore vs ++ v.symbols ++ [.comma] := by
  simp [itemsBefore]

theorem membersBefore_snoc (ms : List (String × Value)) (m : String × Value) :
    membersBefore (ms ++ [m]) = membersBefore ms ++ memberSymbols m ++ [.comma] := by
  simp [membersBefore]

theorem moreItems_append (vs : List Value) (v : Value) (ws : List Value) :
    .comma :: (itemsBefore vs ++ (v.symbols ++ moreItems ws)) = moreItems (vs ++ v :: ws) := by
  induction vs with
  | nil => simp [itemsBefore, moreItems]
  | cons w vs ih =>
    rw [List.cons_append, moreItems, ← ih]
    simp [itemsBefore]

theorem moreMembers_append (ms : List (String × Value)) (m : String × Value)
    (ns : List (String × Value)) :
    .comma :: (membersBefore ms ++ (memberSymbols m ++ moreMembers ns)) =
      moreMembers (ms ++ m :: ns) := by
  induction ms with
  | nil => simp [membersBefore, memberSymbols, moreMembers]
  | cons n ms ih =>
    rw [List.cons_append, moreMembers, ← ih]
    simp [membersBefore, memberSymbols]

theorem symbols_array_append (vs : List Value) (v : Value) (ws : List Value) :
    (array (vs ++ v :: ws)).symbols =
      .openBracket :: (itemsBefore vs ++ v.symbols ++ moreItems ws) := by
  cases vs with
  | nil => simp [itemsBefore, symbols]
  | cons w vs =>
    rw [List.cons_append, symbols, ← moreItems_append]
    simp [itemsBefore]

theorem symbols_object_append (ms : List (String × Value)) (m : String × Value)
    (ns : List (String × Value)) :
    (object (ms ++ m :: ns)).symbols =
      .openBrace :: (membersBefore ms ++ memberSymbols m ++ moreMembers ns) := by
  cases ms with
  | nil => simp [membersBefore, memberSymbols, symbols]
  | cons n ms =>
    rw [List.cons_append, symbols, ← moreMembers_append]
    simp [membersBefore, memberSymbols]

theorem symbols_array_snoc (vs : List Value) (v : Value) :
    (array (vs ++ [v])).symbols =
      .openBracket :: (itemsBefore vs ++ v.symbols ++ [.closeBracket]) := by
  rw [symbols_array_append, moreItems]

theorem symbols_object_snoc (ms : List (String × Value)) (m : String × Value) :
    (object (ms ++ [m])).symbols =
      .openBrace :: (membersBefore ms ++ memberSymbols m ++ [.closeBrace]) := by
  rw [symbols_object_append, moreMembers]

section Unambiguous
variable {v w : Value} {vs ws : List Value} {k j : String} {ms ns : List (String × Value)}
variable {as bs : List Symbol}

def Unambiguous (v : Value) : Prop := ∀ {w as bs}, v.symbols ++ as = w.symbols ++ bs → v = w ∧ as = bs

theorem symbols_ne_closeBracket (v : Value) (as bs : List Symbol) :
    .closeBracket :: as ≠ v.symbols ++ bs := by
  cases v with
  | null | boolean | number | string => simp [symbols]
  | array vs => cases vs <;> simp [symbols]
  | object ms => cases ms <;> simp [symbols]

theorem moreItems_inj (hvs : ∀ v ∈ vs, v.Unambiguous)
    (h : moreItems vs ++ as = moreItems ws ++ bs) : vs = ws ∧ as = bs := by
  induction vs generalizing ws with
  | nil =>
    cases ws with
    | nil => exact ⟨rfl, by simpa [moreItems] using h⟩
    | cons w ws => simp [moreItems] at h
  | cons v vs ih =>
    cases ws with
    | nil => simp [moreItems] at h
    | cons w ws =>
      simp only [moreItems, List.cons_append, List.append_assoc, List.cons.injEq, true_and] at h
      obtain ⟨rfl, hrest⟩ := hvs v List.mem_cons_self h
      obtain ⟨rfl, has⟩ := ih (fun u hu => hvs u (List.mem_cons_of_mem v hu)) hrest
      exact ⟨rfl, has⟩

theorem moreMembers_inj (hms : ∀ m ∈ ms, m.2.Unambiguous)
    (h : moreMembers ms ++ as = moreMembers ns ++ bs) : ms = ns ∧ as = bs := by
  induction ms generalizing ns with
  | nil =>
    cases ns with
    | nil => exact ⟨rfl, by simpa [moreMembers] using h⟩
    | cons n ns => simp [moreMembers] at h
  | cons m ms ih =>
    obtain ⟨k, v⟩ := m
    cases ns with
    | nil => simp [moreMembers] at h
    | cons n ns =>
      obtain ⟨j, w⟩ := n
      simp only [moreMembers, List.cons_append, List.append_assoc, List.cons.injEq, true_and,
        Symbol.string.injEq] at h
      obtain ⟨rfl, hvalue⟩ := h
      obtain ⟨rfl, hrest⟩ := hms (k, v) List.mem_cons_self hvalue
      obtain ⟨rfl, has⟩ := ih (fun u hu => hms u (List.mem_cons_of_mem _ hu)) hrest
      exact ⟨rfl, has⟩

/-- The symbols of a value say where it ends and which it is. -/
theorem unambiguous (v : Value) : v.Unambiguous := by
  induction v using Value.induction with
  | null | boolean | number | string =>
    intro w as bs h
    cases w with
    | null | boolean | number | string => simp_all [symbols]
    | array ws => cases ws <;> simp [symbols] at h
    | object ns => cases ns <;> simp [symbols] at h
  | array vs ih =>
    intro w as bs h
    cases vs with
    | nil =>
      cases w with
      | array ws =>
        cases ws with
        | nil => exact ⟨rfl, by simpa [symbols] using h⟩
        | cons w ws =>
          simp only [symbols, List.cons_append, List.append_assoc, List.cons.injEq, true_and] at h
          exact absurd h (symbols_ne_closeBracket w _ _)
      | object ns => cases ns <;> simp [symbols] at h
      | null | boolean | number | string => simp [symbols] at h
    | cons v vs =>
      cases w with
      | array ws =>
        cases ws with
        | nil =>
          simp only [symbols, List.cons_append, List.append_assoc, List.cons.injEq, true_and] at h
          exact absurd h.symm (symbols_ne_closeBracket v _ _)
        | cons w ws =>
          simp only [symbols, List.cons_append, List.append_assoc, List.cons.injEq, true_and] at h
          obtain ⟨rfl, hrest⟩ := ih v List.mem_cons_self h
          obtain ⟨rfl, has⟩ := moreItems_inj (fun u hu => ih u (List.mem_cons_of_mem v hu)) hrest
          exact ⟨rfl, has⟩
      | object ns => cases ns <;> simp [symbols] at h
      | null | boolean | number | string => simp [symbols] at h
  | object ms ih =>
    intro w as bs h
    cases w with
    | object ns =>
      have hmore : moreMembers ms ++ as = moreMembers ns ++ bs := by
        cases ms <;> cases ns <;> simp_all [symbols, moreMembers]
      obtain ⟨rfl, has⟩ := moreMembers_inj ih hmore
      exact ⟨rfl, has⟩
    | array ws => cases ms <;> cases ws <;> simp [symbols] at h
    | null | boolean | number | string => cases ms <;> simp [symbols] at h

theorem symbols_injective (h : v.symbols = w.symbols) : v = w :=
  (v.unambiguous (congrArg (· ++ []) h)).1

end Unambiguous

end Value
end ExactJson
