import ExactJson.Proofs.Document.Grammar
import ExactJson.Proofs.Token.Reads

/-! The tokens of a text of the grammar are the symbols of its tree, and bytes with these tokens are
such a text. -/
namespace ExactJson.Grammar
open TokenStream (Reads ofRest)

variable {policy : FractionPolicy} {bs mid rest w x : Bytes} {as cs : List Symbol} {a : Symbol}
variable {v : Value} {vs : List Value} {ms : List (String × Value)}

def Yields (policy : FractionPolicy) (bs : Bytes) (as : List Symbol) (rest : Bytes) : Prop :=
  ∀ data p, ∃ ts q, Reads (ofRest data p bs) ts (ofRest data q rest) ∧
    ts.map (Token.symbol? policy) = as.map some

theorem Yields.append (h : Yields policy bs as mid) (hs : Yields policy mid cs rest) :
    Yields policy bs (as ++ cs) rest := by
  intro data p
  obtain ⟨ts, q, ht, has⟩ := h data p
  obtain ⟨us, r, hu, hcs⟩ := hs data q
  exact ⟨ts ++ us, r, ht.append hu, by rw [List.map_append, List.map_append, has, hcs]⟩

theorem ends_of_symbol? {t : Token} (ha : t.symbol? policy = some a) (hv : a.value? = none)
    (rest : Bytes) : Ends t.content rest := by
  obtain ⟨c, lexeme, span⟩ := t
  cases c with
  | string | number | boolean | null =>
    cases ha
    cases hv
  | endOfInput => cases ha
  | openBrace | closeBrace | openBracket | closeBracket | colon | comma => trivial

/-- The symbols that are values must not run into what stands behind them. -/
theorem SymbolText.yields (h : SymbolText policy a x) (hw : Blanks w)
    (he : a.value? = none ∨ Delimited rest) : Yields policy (w ++ x ++ rest) [a] rest := by
  intro data p
  obtain ⟨t, ha, ht, hc⟩ := h.exists_stands hw p
  have hend : Ends t.content rest := he.elim (ends_of_symbol? ha · rest) (Ends.of_delimited hc)
  exact ⟨[t], _, .cons (TokenStream.read_of_stands ht hend) (.nil _), by simp [ha]⟩

theorem Yields.nil (policy : FractionPolicy) (rest : Bytes) : Yields policy rest [] rest :=
  fun _ p => ⟨[], p, .nil _, rfl⟩

theorem Yields.mark {b : UInt8} (hs : Yields policy bs as rest) (h : SymbolText policy a [b])
    (ha : a.value? = none) (hw : Blanks w) : Yields policy (w ++ b :: bs) (a :: as) rest := by
  have hb := (h.yields hw (.inl ha)).append hs
  rwa [List.append_assoc, List.singleton_append] at hb

theorem Blanks.nil : Blanks [] := fun _ hb => nomatch hb

theorem ValueText.ne_nil (h : ValueText policy x v) : x ≠ [] := by
  have of_tokenText {c : TokenContent} (hx : TokenText c x) (hc : c ≠ .endOfInput) : x ≠ [] :=
    List.length_pos_iff.mp (TokenStream.length_pos_of_tokenText hx hc)
  cases h with
  | null | trueWord | falseWord => decide
  | number h => exact of_tokenText (.number h) (by simp)
  | string h => exact of_tokenText (.string h) (by simp)
  | emptyArray | array | emptyObject | object => exact List.cons_ne_nil _ _

mutual
theorem ValueText.yields : ∀ {x v}, ValueText policy x v → ∀ {w rest : Bytes}, Blanks w →
    Delimited rest → Yields policy (w ++ x ++ rest) v.symbols rest
  | _, _, .null, _, _, hw, hd => SymbolText.null.yields hw (.inr hd)
  | _, _, .trueWord, _, _, hw, hd => SymbolText.trueWord.yields hw (.inr hd)
  | _, _, .falseWord, _, _, hw, hd => SymbolText.falseWord.yields hw (.inr hd)
  | _, _, .number h, _, _, hw, hd => (SymbolText.number h).yields hw (.inr hd)
  | _, _, .string h, _, _, hw, hd => (SymbolText.string h).yields hw (.inr hd)
  | _, _, .emptyArray hw', w, rest, hw, _ => by
    have hclose := (Yields.nil policy rest).mark .closeBracket rfl hw'
    simpa [Value.symbols] using hclose.mark .openBracket rfl hw
  | _, _, .emptyObject hw', w, rest, hw, _ => by
    have hclose := (Yields.nil policy rest).mark .closeBrace rfl hw'
    simpa [Value.symbols] using hclose.mark .openBrace rfl hw
  | _, _, .array h, w, rest, hw, _ => by
    obtain ⟨v, us, rfl, hitems⟩ := h.yields rest
    simpa [Value.symbols] using hitems.mark .openBracket rfl hw
  | _, _, .object h, w, rest, hw, _ => by
    obtain ⟨m, us, rfl, hmembers⟩ := h.yields rest
    simpa [Value.symbols, Value.memberSymbols] using hmembers.mark .openBrace rfl hw
theorem ItemText.yields : ∀ {x v}, ItemText policy x v → ∀ {rest : Bytes}, Delimited rest →
    ∃ w, Blanks w ∧ Yields policy (x ++ rest) v.symbols (w ++ rest)
  | _, _, .mk hw h hw', rest, hd => by
    refine ⟨_, hw', ?_⟩
    rw [List.append_assoc]
    exact h.yields hw (.blanks hw' hd)
theorem ItemsText.yields : ∀ {x vs}, ItemsText policy x vs → ∀ rest : Bytes, ∃ v us,
    vs = v :: us ∧
      Yields policy (x ++ Ascii.closeBracket :: rest) (v.symbols ++ Value.moreItems us) rest
  | _, _, .one h, rest => by
    obtain ⟨w, hw, hv⟩ := h.yields (.cons Ascii.closeBracket (by decide) rest)
    exact ⟨_, [], rfl, hv.append ((Yields.nil policy rest).mark .closeBracket rfl hw)⟩
  | _, _, .cons (y := y) h hs, rest => by
    obtain ⟨w, hw, hv⟩ := h.yields
      (.cons Ascii.comma (by decide) (y ++ Ascii.closeBracket :: rest))
    obtain ⟨u, us, rfl, hitems⟩ := hs.yields rest
    refine ⟨_, _, rfl, ?_⟩
    rw [List.append_assoc]
    exact hv.append (hitems.mark .comma rfl hw)
theorem MemberText.yields : ∀ {x m}, MemberText policy x m → ∀ {rest : Bytes}, Delimited rest →
    ∃ w, Blanks w ∧ Yields policy (x ++ rest) (Value.memberSymbols m) (w ++ rest)
  | _, _, .mk hw hn hw' h, rest, hd => by
    obtain ⟨w, hb, hv⟩ := h.yields hd
    have hname := ((SymbolText.string hn).yields hw
      (.inr (.blanks hw' (.cons Ascii.colon (by decide) _)))).append (hv.mark .colon rfl hw')
    refine ⟨w, hb, ?_⟩
    simpa [Value.memberSymbols] using hname
theorem MembersText.yields : ∀ {x ms}, MembersText policy x ms → ∀ rest : Bytes, ∃ m us,
    ms = m :: us ∧ Yields policy (x ++ Ascii.closeBrace :: rest)
      (Value.memberSymbols m ++ Value.moreMembers us) rest
  | _, _, .one h, rest => by
    obtain ⟨w, hw, hm⟩ := h.yields (.cons Ascii.closeBrace (by decide) rest)
    exact ⟨_, [], rfl, hm.append ((Yields.nil policy rest).mark .closeBrace rfl hw)⟩
  | _, _, .cons (y := y) h hs, rest => by
    obtain ⟨w, hw, hm⟩ := h.yields
      (.cons Ascii.comma (by decide) (y ++ Ascii.closeBrace :: rest))
    obtain ⟨u, us, rfl, hmembers⟩ := hs.yields rest
    refine ⟨_, _, rfl, ?_⟩
    rw [List.append_assoc]
    exact hm.append (hmembers.mark .comma rfl hw)
end

/-- The bytes begin with texts of the symbols, with blanks before each, and the rest is left. -/
inductive Scans (policy : FractionPolicy) : Bytes → List Symbol → Bytes → Prop where
  | nil (bs : Bytes) : Scans policy bs [] bs
  | cons {w x bs rest : Bytes} {a : Symbol} {as : List Symbol} (hw : Blanks w)
      (hx : SymbolText policy a x) (hs : Scans policy bs as rest) :
      Scans policy (w ++ x ++ bs) (a :: as) rest

theorem scans_of_reads {data : Bytes} {p q : Position} {ts : List Token}
    (h : Reads (ofRest data p bs) ts (ofRest data q rest))
    (ha : ts.map (Token.symbol? policy) = as.map some) : Scans policy bs as rest := by
  induction ts generalizing p bs as with
  | nil =>
    obtain rfl := List.map_eq_nil_iff.mp ha.symm
    cases h
    exact .nil _
  | cons t ts ih =>
    cases as with
    | nil => cases ha
    | cons a as =>
      obtain ⟨hhead, htail⟩ := List.cons.inj ha
      cases h with
      | cons h hs =>
        obtain ⟨w, x, mid, rfl, ht, rfl, -⟩ := TokenStream.stands_of_read h
        exact .cons ht.blanks (symbolText_of_stands ht hhead) (ih hs htail)

def Derives (policy : FractionPolicy) (v : Value) : Prop := ∀ bs rest as,
  Scans policy bs (v.symbols ++ as) rest → ∃ w x mid, bs = w ++ x ++ mid ∧ Blanks w ∧
    ValueText policy x v ∧ Scans policy mid as rest

theorem itemsText_of_scans (hv : Derives policy v) (hvs : ∀ u ∈ vs, Derives policy u)
    (h : Scans policy bs (v.symbols ++ (Value.moreItems vs ++ as)) rest) :
    ∃ x mid, bs = x ++ Ascii.closeBracket :: mid ∧ ItemsText policy x (v :: vs) ∧
      Scans policy mid as rest := by
  induction vs generalizing v bs with
  | nil =>
    obtain ⟨w, x, mid, rfl, hw, hx, hs⟩ := hv _ _ _ h
    cases hs with
    | @cons w' y mid _ _ _ hw' hy hs =>
      cases hy
      refine ⟨w ++ x ++ w', mid, ?_, .one (.mk hw hx hw'), hs⟩
      simp
  | cons u us ih =>
    obtain ⟨w, x, mid, rfl, hw, hx, hs⟩ := hv _ _ _ h
    cases hs with
    | @cons w' y mid _ _ _ hw' hy hs =>
      cases hy
      rw [List.append_eq, List.append_assoc] at hs
      obtain ⟨z, left, rfl, hz, hs⟩ := ih (hvs u List.mem_cons_self)
        (fun t ht => hvs t (List.mem_cons_of_mem u ht)) hs
      refine ⟨w ++ x ++ w' ++ Ascii.comma :: z, left, ?_, .cons (.mk hw hx hw') hz, hs⟩
      simp

theorem memberText_of_scans {m : String × Value} (hm : Derives policy m.2)
    (h : Scans policy bs (Value.memberSymbols m ++ as) rest) :
    ∃ x mid, bs = x ++ mid ∧ (∀ w', Blanks w' → MemberText policy (x ++ w') m) ∧
      Scans policy mid as rest := by
  cases h with
  | @cons w n _ _ _ _ hw hn h =>
    cases h with
    | @cons w' c _ _ _ _ hw' hc h =>
      obtain ⟨k, v⟩ := m
      obtain ⟨w₁, x, mid, rfl, hw₁, hx, hs⟩ := hm _ _ _ h
      cases hn with
      | string hn =>
        cases hc
        refine ⟨w ++ n ++ w' ++ Ascii.colon :: (w₁ ++ x), mid, by simp, fun w₂ hw₂ => ?_, hs⟩
        have hmember := MemberText.mk hw hn hw' (.mk hw₁ hx hw₂)
        simpa using hmember

theorem membersText_of_scans {m : String × Value} (hm : Derives policy m.2)
    (hms : ∀ n ∈ ms, Derives policy n.2)
    (h : Scans policy bs (Value.memberSymbols m ++ (Value.moreMembers ms ++ as)) rest) :
    ∃ x mid, bs = x ++ Ascii.closeBrace :: mid ∧ MembersText policy x (m :: ms) ∧
      Scans policy mid as rest := by
  induction ms generalizing m bs with
  | nil =>
    obtain ⟨x, mid, rfl, hx, hs⟩ := memberText_of_scans hm h
    cases hs with
    | @cons w y mid _ _ _ hw hy hs =>
      cases hy
      exact ⟨x ++ w, mid, by simp, .one (hx w hw), hs⟩
  | cons n ns ih =>
    obtain ⟨x, mid, rfl, hx, hs⟩ := memberText_of_scans hm h
    cases hs with
    | @cons w y mid _ _ _ hw hy hs =>
      cases hy
      have hn : Scans policy mid (Value.memberSymbols n ++ (Value.moreMembers ns ++ as)) rest := by
        simpa [Value.memberSymbols] using hs
      obtain ⟨z, left, rfl, hz, hs⟩ := ih (hms n List.mem_cons_self)
        (fun t ht => hms t (List.mem_cons_of_mem n ht)) hn
      exact ⟨x ++ w ++ Ascii.comma :: z, left, by simp, .cons (hx w hw) hz, hs⟩

theorem Scans.head (h : Scans policy bs (a :: as) rest) : ∃ w x mid, bs = w ++ x ++ mid ∧
    Blanks w ∧ SymbolText policy a x ∧ Scans policy mid as rest := by
  cases h with
  | cons hw hx hs => exact ⟨_, _, _, rfl, hw, hx, hs⟩

theorem derives (policy : FractionPolicy) (v : Value) : Derives policy v := by
  induction v using Value.induction with
  | null =>
    intro bs rest as h
    obtain ⟨w, x, mid, rfl, hw, hx, hs⟩ := h.head
    cases hx
    exact ⟨w, _, mid, rfl, hw, .null, hs⟩
  | boolean b =>
    intro bs rest as h
    obtain ⟨w, x, mid, rfl, hw, hx, hs⟩ := h.head
    cases hx with
    | trueWord => exact ⟨w, _, mid, rfl, hw, .trueWord, hs⟩
    | falseWord => exact ⟨w, _, mid, rfl, hw, .falseWord, hs⟩
  | number n =>
    intro bs rest as h
    obtain ⟨w, x, mid, rfl, hw, hx, hs⟩ := h.head
    cases hx with
    | number hx => exact ⟨w, x, mid, rfl, hw, .number hx, hs⟩
  | string s =>
    intro bs rest as h
    obtain ⟨w, x, mid, rfl, hw, hx, hs⟩ := h.head
    cases hx with
    | string hx => exact ⟨w, x, mid, rfl, hw, .string hx, hs⟩
  | array vs ih =>
    intro bs rest as h
    cases vs with
    | nil =>
      obtain ⟨w, x, mid, rfl, hw, hx, hs⟩ := h.head
      obtain ⟨w', y, mid, rfl, hw', hy, hrest⟩ := hs.head
      cases hx
      cases hy
      exact ⟨w, _, mid, by simp, hw, .emptyArray hw', hrest⟩
    | cons v vs =>
      rw [Value.symbols, List.cons_append, List.append_assoc] at h
      obtain ⟨w, x, mid, rfl, hw, hx, hs⟩ := h.head
      cases hx
      obtain ⟨y, mid, rfl, hy, hs⟩ := itemsText_of_scans (ih v List.mem_cons_self)
        (fun u hu => ih u (List.mem_cons_of_mem v hu)) hs
      exact ⟨w, _, mid, by simp, hw, .array hy, hs⟩
  | object ms ih =>
    intro bs rest as h
    cases ms with
    | nil =>
      obtain ⟨w, x, mid, rfl, hw, hx, hs⟩ := h.head
      obtain ⟨w', y, mid, rfl, hw', hy, hrest⟩ := hs.head
      cases hx
      cases hy
      exact ⟨w, _, mid, by simp, hw, .emptyObject hw', hrest⟩
    | cons m ms =>
      obtain ⟨w, x, mid, rfl, hw, hx, hs⟩ := h.head
      cases hx
      have hm : Scans policy mid (Value.memberSymbols m ++ (Value.moreMembers ms ++ as)) rest := by
        simpa [Value.memberSymbols] using hs
      obtain ⟨y, mid, rfl, hy, hs⟩ := membersText_of_scans (ih m List.mem_cons_self)
        (fun u hu => ih u (List.mem_cons_of_mem m hu)) hm
      exact ⟨w, _, mid, by simp, hw, .object hy, hs⟩

end ExactJson.Grammar
