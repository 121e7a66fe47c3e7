import ExactJson.Proofs.Document.Symbols

/-! The grammar of documents over the kinds of their tokens, which is the grammar of the kinds of
symbols of values. -/
namespace ExactJson.Grammar

mutual
inductive ValueKinds : List TokenKind → Prop where
  | string : ValueKinds [.string]
  | number : ValueKinds [.number]
  | trueWord : ValueKinds [.trueWord]
  | falseWord : ValueKinds [.falseWord]
  | nullWord : ValueKinds [.nullWord]
  | emptyArray : ValueKinds [.openBracket, .closeBracket]
  | array {ks : List TokenKind} (h : ItemsKinds ks) :
      ValueKinds (.openBracket :: (ks ++ [.closeBracket]))
  | emptyObject : ValueKinds [.openBrace, .closeBrace]
  | object {ks : List TokenKind} (h : MembersKinds ks) :
      ValueKinds (.openBrace :: (ks ++ [.closeBrace]))
inductive ItemsKinds : List TokenKind → Prop where
  | one {ks : List TokenKind} (h : ValueKinds ks) : ItemsKinds ks
  | cons {ks js : List TokenKind} (h : ValueKinds ks) (hs : ItemsKinds js) :
      ItemsKinds (ks ++ .comma :: js)
inductive MembersKinds : List TokenKind → Prop where
  | one {ks : List TokenKind} (h : ValueKinds ks) : MembersKinds (.string :: .colon :: ks)
  | cons {ks js : List TokenKind} (h : ValueKinds ks) (hs : MembersKinds js) :
      MembersKinds (.string :: .colon :: (ks ++ .comma :: js))
end

def Sentence (ks : List TokenKind) : Prop := ∃ js, ValueKinds js ∧ ks = js ++ [.endOfInput]

def Viable (ks : List TokenKind) : Prop := ∃ more, Sentence (ks ++ more)

theorem itemsKinds_symbols {v : Value} {vs : List Value} (hv : ValueKinds (v.symbols.map Symbol.kind))
    (hvs : ∀ u ∈ vs, ValueKinds (u.symbols.map Symbol.kind)) :
    ∃ ks, (v.symbols ++ Value.moreItems vs).map Symbol.kind = ks ++ [.closeBracket] ∧
      ItemsKinds ks := by
  induction vs generalizing v with
  | nil => exact ⟨_, by rw [Value.moreItems, List.map_append]; rfl, .one hv⟩
  | cons u us ih =>
    obtain ⟨ks, hks, hi⟩ := ih (hvs u List.mem_cons_self)
      (fun t ht => hvs t (List.mem_cons_of_mem u ht))
    refine ⟨_, ?_, .cons hv hi⟩
    rw [List.append_assoc, List.cons_append, ← hks]
    simp [Value.moreItems, Symbol.kind]

theorem membersKinds_symbols {m : String × Value} {ms : List (String × Value)}
    (hm : ValueKinds (m.2.symbols.map Symbol.kind))
    (hms : ∀ n ∈ ms, ValueKinds (n.2.symbols.map Symbol.kind)) :
    ∃ ks, (Value.memberSymbols m ++ Value.moreMembers ms).map Symbol.kind = ks ++ [.closeBrace] ∧
      MembersKinds ks := by
  induction ms generalizing m with
  | nil => exact ⟨_, by rw [Value.moreMembers, List.map_append]; rfl, .one hm⟩
  | cons n ns ih =>
    obtain ⟨ks, hks, hi⟩ := ih (hms n List.mem_cons_self)
      (fun t ht => hms t (List.mem_cons_of_mem n ht))
    refine ⟨_, ?_, .cons hm hi⟩
    rw [List.cons_append, List.cons_append, List.append_assoc, List.cons_append, ← hks]
    simp [Value.moreMembers, Value.memberSymbols, Symbol.kind]

theorem valueKinds_symbols (v : Value) : ValueKinds (v.symbols.map Symbol.kind) := by
  induction v using Value.induction with
  | null => exact .nullWord
  | boolean b =>
    cases b
    · exact .falseWord
    · exact .trueWord
  | number => exact .number
  | string => exact .string
  | array vs ih =>
    cases vs with
    | nil => exact .emptyArray
    | cons v vs =>
      obtain ⟨ks, hks, hi⟩ := itemsKinds_symbols (ih v List.mem_cons_self)
        (fun u hu => ih u (List.mem_cons_of_mem v hu))
      rw [Value.symbols, List.map_cons, hks]
      exact .array hi
  | object ms ih =>
    cases ms with
    | nil => exact .emptyObject
    | cons m ms =>
      obtain ⟨ks, hks, hi⟩ := membersKinds_symbols (ih m List.mem_cons_self)
        (fun u hu => ih u (List.mem_cons_of_mem m hu))
      rw [show (Value.object (m :: ms)).symbols =
        .openBrace :: (Value.memberSymbols m ++ Value.moreMembers ms) from rfl, List.map_cons, hks]
      exact .object hi

mutual
theorem ValueKinds.exists_symbols :
    ∀ {ks}, ValueKinds ks → ∃ v : Value, v.symbols.map Symbol.kind = ks
  | _, .string => ⟨.string "", rfl⟩
  | _, .number => ⟨.number (.ofInt 0), rfl⟩
  | _, .trueWord => ⟨.boolean true, rfl⟩
  | _, .falseWord => ⟨.boolean false, rfl⟩
  | _, .nullWord => ⟨.null, rfl⟩
  | _, .emptyArray => ⟨.array [], rfl⟩
  | _, .array h => by
    obtain ⟨v, vs, hks⟩ := h.exists_symbols
    exact ⟨.array (v :: vs), by rw [← hks]; rfl⟩
  | _, .emptyObject => ⟨.object [], rfl⟩
  | _, .object h => by
    obtain ⟨m, ms, hks⟩ := h.exists_symbols
    exact ⟨.object (m :: ms), by rw [← hks]; rfl⟩
theorem ItemsKinds.exists_symbols : ∀ {ks}, ItemsKinds ks → ∃ (v : Value) (vs : List Value),
    (v.symbols ++ Value.moreItems vs).map Symbol.kind = ks ++ [.closeBracket]
  | _, .one h => by
    obtain ⟨v, rfl⟩ := h.exists_symbols
    exact ⟨v, [], by rw [Value.moreItems, List.map_append]; rfl⟩
  | _, .cons h hs => by
    obtain ⟨v, rfl⟩ := h.exists_symbols
    obtain ⟨u, us, hks⟩ := hs.exists_symbols
    refine ⟨v, u :: us, ?_⟩
    rw [List.append_assoc, List.cons_append, ← hks]
    simp [Value.moreItems, Symbol.kind]
theorem MembersKinds.exists_symbols : ∀ {ks}, MembersKinds ks →
    ∃ (m : String × Value) (ms : List (String × Value)),
      (Value.memberSymbols m ++ Value.moreMembers ms).map Symbol.kind = ks ++ [.closeBrace]
  | _, .one h => by
    obtain ⟨v, rfl⟩ := h.exists_symbols
    exact ⟨("", v), [], by rw [Value.moreMembers, List.map_append]; rfl⟩
  | _, .cons h hs => by
    obtain ⟨v, rfl⟩ := h.exists_symbols
    obtain ⟨n, ns, hks⟩ := hs.exists_symbols
    refine ⟨("", v), n :: ns, ?_⟩
    rw [List.cons_append, List.cons_append, List.append_assoc, List.cons_append, ← hks]
    simp [Value.moreMembers, Value.memberSymbols, Symbol.kind]
end

theorem sentence_iff {ks : List TokenKind} :
    Sentence ks ↔ ∃ v : Value, ks = v.symbols.map Symbol.kind ++ [.endOfInput] := by
  constructor
  · rintro ⟨js, hjs, rfl⟩
    obtain ⟨v, rfl⟩ := hjs.exists_symbols
    exact ⟨v, rfl⟩
  · rintro ⟨v, rfl⟩
    exact ⟨_, valueKinds_symbols v, rfl⟩

end ExactJson.Grammar
