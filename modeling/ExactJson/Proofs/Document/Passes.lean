import ExactJson.Proofs.Document.Outline
import ExactJson.Proofs.Document.Trace

/-! The reader as two loops of stages, with the tokens behind which it asks for more. One loop goes from
value to value, the other hands a finished value to the containers around it. All stages go along the
machine of the grammar. -/
namespace ExactJson

theorem Token.content_of_kind {t : Token} (c : TokenContent) (h : t.kind = c.kind)
    (hs : c.kind ≠ .string) (hn : c.kind ≠ .number) : t.content = c := by
  obtain ⟨d, lexeme, span⟩ := t
  cases c with
  | string | number => contradiction
  | boolean b =>
    cases d with
    | boolean b' => cases b <;> cases b' <;> first | rfl | cases h
    | _ => cases b <;> cases h
  | _ =>
    cases d with
    | boolean b' => cases b' <;> cases h
    | _ => first | rfl | cases h

namespace DocumentState
variable {options : ReadOptions} {s : DocumentState} {stack : List Frame} {token : Token}

theorem move_openBrace (hb : Begins s stack) (hc : token.content = .openBrace) :
    s.move options token = enter options stack token (.firstName stack) := by
  cases hb <;> simp only [move, beginValue, hc]

theorem move_openBracket (hb : Begins s stack) (hc : token.content = .openBracket) :
    s.move options token = enter options stack token (.firstItem stack) := by
  cases hb <;> simp only [move, beginValue, hc]

theorem move_closeBrace (hc : token.content = .closeBrace) :
    (firstName stack).move options token = .take (complete (.object []) stack) := by
  simp only [move, hc]

theorem beginValue_of_not_value {expected : KindSet}
    (h : ¬KindSet.value.contains token.kind = true) :
    beginValue options expected stack token = .refuse (.unexpected token expected) := by
  obtain ⟨c, lexeme, span⟩ := token
  cases c with
  | boolean b =>
    cases b <;> simp [KindSet.value, Token.kind, TokenContent.kind] at h
  | openBrace | openBracket | string | number | null =>
    simp [KindSet.value, Token.kind, TokenContent.kind] at h
  | closeBrace | closeBracket | colon | comma | endOfInput => rfl

/-- A state behind a value in a container: a comma leads on, and a mark closes the container. -/
structure Closes (options : ReadOptions) (s : DocumentState) (mark : TokenContent)
    (more closed : DocumentState) : Prop where
  comma (token : Token) : token.content = .comma → s.move options token = .take more
  close (token : Token) : token.content = mark → s.move options token = .take closed
  other (token : Token) : token.content ≠ .comma → token.content ≠ mark →
    s.move options token = .refuse (.unexpected token (.ofList [.comma, mark.kind]))

theorem closes_itemEnd (items : List Value) (stack : List Frame) :
    Closes options (.itemEnd items stack) .closeBracket (.value (.array items :: stack))
      (complete (.array items.reverse) stack) where
  comma token hc := by simp only [move, hc]
  close token hc := by simp only [move, hc]
  other token hcomma hmark := by
    obtain ⟨c, lexeme, span⟩ := token
    cases c with
    | comma | closeBracket => contradiction
    | _ => rfl

theorem closes_memberEnd (members : Object) (stack : List Frame) :
    Closes options (.memberEnd members stack) .closeBrace (.name members stack)
      (complete (.object members) stack) where
  comma token hc := by simp only [move, hc]
  close token hc := by simp only [move, hc]
  other token hcomma hmark := by
    obtain ⟨c, lexeme, span⟩ := token
    cases c with
    | comma | closeBrace => contradiction
    | _ => rfl

end DocumentState

/-- A stage of the work of a reader: what comes of it, the reader behind it, and the tokens that were in
front of the reader when it asked for the next ones. -/
structure Stage (σ α : Type) where
  outcome : Except ReadError α
  reader : DocumentReader σ
  asked : List Token

namespace Stage
variable {σ α β : Type}

def done (a : α) (r : DocumentReader σ) : Stage σ α := ⟨.ok a, r, []⟩

def fail (e : ReadError) (r : DocumentReader σ) : Stage σ α := ⟨.error e, r, []⟩

def andThen (p : Stage σ α) (f : α → DocumentReader σ → Stage σ β) : Stage σ β :=
  match p.outcome with
  | .error e => ⟨.error e, p.reader, p.asked⟩
  | .ok a => { f a p.reader with asked := p.asked ++ (f a p.reader).asked }

/-- A token is taken at least, unless there is an error. Loops are not passed again behind an error, so
that this is the last pass then. -/
def Takes (p : Stage σ α) : Prop := ∀ a, p.outcome = .ok a → p.asked ≠ []

theorem takes_fail (e : ReadError) (r : DocumentReader σ) : (fail e r : Stage σ α).Takes := by
  rintro a ⟨⟩

theorem Takes.andThen {p : Stage σ α} (h : p.Takes) (f : α → DocumentReader σ → Stage σ β) :
    (p.andThen f).Takes := by
  obtain ⟨outcome, r, asked⟩ := p
  cases outcome with
  | error e => rintro b ⟨⟩
  | ok a => exact fun _ _ hnil => h a rfl (List.append_eq_nil_iff.mp hnil).1

theorem takes_andThen (p : Stage σ α) {f : α → DocumentReader σ → Stage σ β}
    (h : ∀ a r, (f a r).Takes) : (p.andThen f).Takes := by
  obtain ⟨outcome, r, asked⟩ := p
  cases outcome with
  | error e => rintro b ⟨⟩
  | ok a => exact fun b hb hnil => h a r b hb (List.append_eq_nil_iff.mp hnil).2

end Stage

inductive Loop where
  | value (stack : List Frame)
  | close (v : Value) (stack : List Frame)

def Loop.stack : Loop → List Frame
  | value stack => stack
  | close _ stack => stack

/-- The state of the machine where the loops stand in front of a token. A value is the first item of an
array in front of a token that begins one. -/
def Loop.At : Loop → Token → DocumentState → Prop
  | value stack, token, s => s = .value stack ∨
    s.Begins stack ∧ KindSet.value.contains token.kind = true
  | close v stack, _, s => s = .complete v stack

theorem Loop.At.begins {stack : List Frame} {token : Token} {s : DocumentState}
    (h : (Loop.value stack).At token s) : s.Begins stack := by
  obtain rfl | ⟨hb, -⟩ := h
  · exact .value stack
  · exact hb

namespace DocumentReader
variable {σ α : Type}

def unexpected (expected : KindSet) (r : DocumentReader σ) : Stage σ α :=
  .fail (.unexpected r.current expected) r

def enter (depth : Nat) (r : DocumentReader σ) : Stage σ Unit :=
  if r.options.maxDepth < depth then
    .fail (.tooDeep r.options.maxDepth r.current.span.start) r
  else .done () r

variable [Source σ]

def advance (r : DocumentReader σ) : Stage σ Token :=
  match r.tokens.read with
  | (.error e, tokens) => ⟨.error e, { r with tokens }, [r.current]⟩
  | (.ok token, tokens) => ⟨.ok r.current, { r with tokens, current := token }, [r.current]⟩

def expect (k : TokenKind) (r : DocumentReader σ) : Stage σ Token :=
  if r.current.kind = k then r.advance else r.unexpected (.ofList [k])

def memberName (expected : KindSet) (r : DocumentReader σ) : Stage σ String :=
  match r.current.content with
  | .string name =>
    r.advance.andThen fun _ r => (r.expect .colon).andThen fun _ => .done name
  | _ => r.unexpected expected

def openObject (stack : List Frame) (r : DocumentReader σ) : Stage σ Loop :=
  (r.enter (stack.length + 1)).andThen fun _ r => (r.expect .openBrace).andThen fun _ r =>
    if r.current.kind = .closeBrace then
      r.advance.andThen fun _ => .done (.close (.object []) stack)
    else
      (r.memberName (.ofList [.string, .closeBrace])).andThen fun name =>
        .done (.value (.member [] name :: stack))

def openArray (stack : List Frame) (r : DocumentReader σ) : Stage σ Loop :=
  (r.enter (stack.length + 1)).andThen fun _ r => (r.expect .openBracket).andThen fun _ r =>
    if r.current.kind = .closeBracket then
      r.advance.andThen fun _ => .done (.close (.array []) stack)
    else if KindSet.value.contains r.current.kind then .done (.value (.array [] :: stack)) r
    else r.unexpected (KindSet.value.insert .closeBracket)

def scalar (r : DocumentReader σ) : Stage σ Value :=
  match r.current.content with
  | .null => r.advance.andThen fun _ => .done .null
  | .boolean b => r.advance.andThen fun _ => .done (.boolean b)
  | .string text => r.advance.andThen fun _ => .done (.string text)
  | .number form =>
    let n := Number.ofLiteral r.options.fractions form r.current.lexeme
    r.advance.andThen fun _ => .done (.number n)
  | _ => r.unexpected .value

def continues (closing : TokenKind) (r : DocumentReader σ) : Stage σ Bool :=
  if r.current.kind = .comma then r.advance.andThen fun _ => .done true
  else if r.current.kind = closing then r.advance.andThen fun _ => .done false
  else r.unexpected (.ofList [.comma, closing])

/-- One pass of the loop, or none where the value is that of the document. -/
def pass? (r : DocumentReader σ) : Loop → Option (Stage σ Loop)
  | .value stack => some <| match r.current.kind with
    | .openBrace => r.openObject stack
    | .openBracket => r.openArray stack
    | _ => r.scalar.andThen fun v => .done (.close v stack)
  | .close _ [] => none
  | .close v (.array items :: stack) => some <|
    (r.continues .closeBracket).andThen fun more =>
      if more then .done (.value (.array (v :: items) :: stack))
      else .done (.close (.array (v :: items).reverse) stack)
  | .close v (.member members name :: stack) => some <|
    (r.continues .closeBrace).andThen fun more r =>
      let members := members.insert name v
      if more then
        (r.memberName (.ofList [.string])).andThen fun name =>
          .done (.value (.member members name :: stack))
      else .done (.close (.object members) stack) r

section Along
open DocumentState
variable {options : ReadOptions} {s s' : DocumentState} {t u : TokenStream σ} {r : DocumentReader σ}
variable {β : Type} {mid : α → Token → DocumentState → Prop} {next : β → Token → DocumentState → Prop}
variable {stack : List Frame} {members : Object}

structure Fronts (options : ReadOptions) (t : TokenStream σ) (r : DocumentReader σ) : Prop where
  read : t.read = (.ok r.current, r.tokens)
  options : r.options = options

/-- A stage takes tokens as the machine does, and ends in a state that fits its outcome, or stops where
the machine stops. -/
inductive Along (options : ReadOptions) (s : DocumentState) (t : TokenStream σ)
    (next : β → Token → DocumentState → Prop) : Stage σ β → Prop where
  | done {b : β} {r : DocumentReader σ} {asked : List Token} {s' : DocumentState}
    {u : TokenStream σ} (hf : Follows options s t asked s' u) (hr : Fronts options u r)
    (hn : next b r.current s') : Along options s t next ⟨.ok b, r, asked⟩
  | fail {e : ReadError} {r : DocumentReader σ} {asked : List Token} {s' : DocumentState}
    {u : TokenStream σ} (hf : Follows options s t asked s' u)
    (hs : Stops options s' u (.error e)) : Along options s t next ⟨.error e, r, asked⟩

theorem Along.andThen {p : Stage σ α} {f : α → DocumentReader σ → Stage σ β}
    (h : Along options s t mid p) (hf : ∀ {a r s' u}, Fronts options u r → mid a r.current s' →
      Along options s' u next (f a r)) : Along options s t next (p.andThen f) := by
  cases h with
  | fail hp hs => exact .fail hp hs
  | @done a r asked s' u hp hr hn =>
    have hrest := hf hr hn
    simp only [Stage.andThen]
    generalize f a r = q at hrest ⊢
    cases hrest with
    | done hq hr hn => exact .done (hp.append hq) hr hn
    | fail hq hs => exact .fail (hp.append hq) hs

theorem Fronts.done (hr : Fronts options t r) {b : β} (hn : next b r.current s) :
    Along options s t next (.done b r) := .done (.nil s t) hr hn

theorem Fronts.fail (hr : Fronts options t r) {e : ReadError}
    (hm : s.move options r.current = .refuse e) : Along options s t next (.fail e r) :=
  .fail (.nil s t) (.refused hr.read hm)

theorem Fronts.advance (hr : Fronts options t r) (hm : s.move options r.current = .take s') :
    Along options s t (fun _ _ x => x = s') r.advance := by
  rw [DocumentReader.advance]
  split
  · rename_i hread
    exact .fail (.cons hr.read hm (.nil s' r.tokens)) (.unread hread)
  · rename_i hread
    exact .done (.cons hr.read hm (.nil s' r.tokens)) ⟨hread, hr.options⟩ rfl

theorem Fronts.expect_colon (hr : Fronts options t r) (name : String) :
    Along options (.colon members name stack) t
      (fun _ _ x => x = .value (.member members name :: stack)) (r.expect .colon) := by
  obtain ⟨tokens, ⟨c, lexeme, span⟩, o⟩ := r
  cases c with
  | colon => exact hr.advance rfl
  | boolean b => cases b <;> exact hr.fail rfl
  | _ => exact hr.fail rfl

inductive Names (members : Object) (stack : List Frame) (token : Token) : DocumentState → Prop where
  | first (hm : members = []) (hc : token.content ≠ .closeBrace) :
    Names members stack token (.firstName stack)
  | more : Names members stack token (.name members stack)

theorem Fronts.memberName (hr : Fronts options t r) (hs : Names members stack r.current s) :
    Along options s t (fun name _ x => x = .value (.member members name :: stack))
      (r.memberName s.expected) := by
  obtain ⟨tokens, ⟨c, lexeme, span⟩, o⟩ := r
  cases c with
  | string name =>
    have hm : s.move options ⟨.string name, lexeme, span⟩ = .take (.colon members name stack) := by
      cases hs with
      | first hm => rw [hm]; rfl
      | more => rfl
    simp only [DocumentReader.memberName]
    refine (hr.advance hm).andThen fun hr h => ?_
    subst h
    exact (hr.expect_colon name).andThen fun hr h => hr.done h
  | closeBrace =>
    cases hs with
    | first _ hc => exact absurd rfl hc
    | more => exact hr.fail rfl
  | _ =>
    cases hs <;> exact hr.fail rfl

theorem Fronts.expect (hr : Fronts options t r) {k : TokenKind} (hk : r.current.kind = k)
    (hm : s.move options r.current = .take s') :
    Along options s t (fun _ _ x => x = s') (r.expect k) := by
  rw [DocumentReader.expect, if_pos hk]
  exact hr.advance hm

/-- The limit is looked at before the bracket or brace is taken. -/
theorem Fronts.enter (hr : Fronts options t r)
    (hm : s.move options r.current = DocumentState.enter options stack r.current s') :
    Along options s t (fun _ token x => token = r.current ∧ x = s ∧ s.move options token = .take s')
      (r.enter (stack.length + 1)) := by
  obtain ⟨hread, rfl⟩ := hr
  rw [DocumentReader.enter]
  rw [DocumentState.enter] at hm
  split
  · rename_i hd
    rw [if_pos hd] at hm
    exact Fronts.fail ⟨hread, rfl⟩ hm
  · rename_i hd
    rw [if_neg hd] at hm
    exact Fronts.done ⟨hread, rfl⟩ ⟨rfl, rfl, hm⟩

theorem Fronts.openObject (hr : Fronts options t r) (hb : Begins s stack)
    (hk : r.current.kind = .openBrace) : Along options s t Loop.At (r.openObject stack) := by
  have hc := Token.content_of_kind .openBrace hk nofun nofun
  refine (hr.enter (move_openBrace hb hc)).andThen fun hr₁ h₁ => ?_
  obtain ⟨htoken, rfl, hm⟩ := h₁
  refine (hr₁.expect (htoken ▸ hk) hm).andThen fun hr₂ h₂ => ?_
  subst h₂
  split
  · rename_i hclose
    have hc := Token.content_of_kind .closeBrace hclose nofun nofun
    exact (hr₂.advance (move_closeBrace hc)).andThen fun hr₃ h₃ => hr₃.done h₃
  · rename_i hclose
    have hnames : Names [] stack _ (.firstName stack) :=
      .first rfl fun hc => hclose (congrArg TokenContent.kind hc)
    exact (hr₂.memberName hnames).andThen fun hr₃ h₃ => hr₃.done (.inl h₃)

theorem Fronts.openArray (hr : Fronts options t r) (hb : Begins s stack)
    (hk : r.current.kind = .openBracket) : Along options s t Loop.At (r.openArray stack) := by
  have hc := Token.content_of_kind .openBracket hk nofun nofun
  refine (hr.enter (move_openBracket hb hc)).andThen fun hr₁ h₁ => ?_
  obtain ⟨htoken, rfl, hm⟩ := h₁
  refine (hr₁.expect (htoken ▸ hk) hm).andThen fun hr₂ h₂ => ?_
  subst h₂
  split
  · rename_i hclose
    have hc := Token.content_of_kind .closeBracket hclose nofun nofun
    exact (hr₂.advance (move_closeBracket hc)).andThen fun hr₃ h₃ => hr₃.done h₃
  · rename_i r₂ _ _ hclose
    split
    · rename_i hvalue
      -- No token is taken between the bracket and the first item.
      exact hr₂.done (.inr ⟨.firstItem stack, hvalue⟩)
    · rename_i hvalue
      refine hr₂.fail ?_
      rw [move_firstItem fun hc => hclose (congrArg TokenContent.kind hc)]
      exact beginValue_of_not_value hvalue

theorem Fronts.scalar (hr : Fronts options t r) (hs : Loop.At (.value stack) r.current s)
    (hbrace : r.current.kind ≠ .openBrace) (hbracket : r.current.kind ≠ .openBracket) :
    Along options s t (fun v _ x => x = complete v stack) r.scalar := by
  have hb := hs.begins
  obtain ⟨tokens, ⟨c, lexeme, span⟩, o⟩ := r
  cases c with
  | openBrace => exact absurd rfl hbrace
  | openBracket => exact absurd rfl hbracket
  | null | boolean | string =>
    simp only [DocumentReader.scalar]
    refine (hr.advance ?_).andThen fun hr' h' => hr'.done h'
    cases hb <;> rfl
  | number form =>
    obtain rfl := hr.options
    simp only [DocumentReader.scalar]
    refine (hr.advance ?_).andThen fun hr' h' => hr'.done h'
    cases hb <;> rfl
  | closeBrace | closeBracket | colon | comma | endOfInput =>
    obtain rfl | ⟨-, hvalue⟩ := hs
    · exact hr.fail rfl
    · simp [KindSet.value, Token.kind, TokenContent.kind] at hvalue

theorem Fronts.continues (hr : Fronts options t r) {mark : TokenContent} {more closed : DocumentState}
    (hs : Closes options s mark more closed) (hstring : mark.kind ≠ .string)
    (hnumber : mark.kind ≠ .number) :
    Along options s t (fun b _ x => x = if b then more else closed) (r.continues mark.kind) := by
  rw [DocumentReader.continues]
  split
  · rename_i hk
    have hc := Token.content_of_kind .comma hk nofun nofun
    exact (hr.advance (hs.comma _ hc)).andThen fun hr' h' => hr'.done h'
  · rename_i hcomma
    split
    · rename_i hk
      have hc := Token.content_of_kind mark hk hstring hnumber
      exact (hr.advance (hs.close _ hc)).andThen fun hr' h' => hr'.done h'
    · rename_i hmark
      exact hr.fail (hs.other _ (fun hc => hcomma (congrArg TokenContent.kind hc))
        fun hc => hmark (congrArg TokenContent.kind hc))

theorem Fronts.pass (hr : Fronts options t r) {l : Loop} (hl : l.At r.current s)
    {p : Stage σ Loop} (hp : r.pass? l = some p) : Along options s t Loop.At p := by
  match l with
  | .value stack =>
    cases hp
    split
    · rename_i hk
      exact hr.openObject hl.begins hk
    · rename_i hk
      exact hr.openArray hl.begins hk
    · rename_i hbrace hbracket
      exact (hr.scalar hl hbrace hbracket).andThen fun hr' h' => hr'.done h'
  | .close v [] => cases hp
  | .close v (.array items :: stack) =>
    cases hp
    cases hl
    have hmark := hr.continues (closes_itemEnd (v :: items) stack) nofun nofun
    refine hmark.andThen fun {more} _ _ _ hr' h' => ?_
    cases more with
    | true => exact hr'.done (.inl h')
    | false => exact hr'.done h'
  | .close v (.member members k :: stack) =>
    cases hp
    cases hl
    have hmark := hr.continues (closes_memberEnd (members.insert k v) stack) nofun nofun
    refine hmark.andThen fun {more} _ _ _ hr' h' => ?_
    cases more with
    | true =>
      cases h'
      exact (hr'.memberName .more).andThen fun hr'' h'' => hr''.done (.inl h'')
    | false => exact hr'.done h'

end Along

section Takes
open Stage
variable {r : DocumentReader σ}

theorem takes_advance (r : DocumentReader σ) : r.advance.Takes := by
  rw [advance]
  split <;> exact fun _ _ => List.cons_ne_nil _ _

theorem takes_expect (k : TokenKind) (r : DocumentReader σ) : (r.expect k).Takes := by
  rw [expect]
  split
  · exact takes_advance r
  · exact takes_fail _ r

theorem takes_scalar (r : DocumentReader σ) : r.scalar.Takes := by
  rw [scalar]
  split
  · exact (takes_advance r).andThen _
  · exact (takes_advance r).andThen _
  · exact (takes_advance r).andThen _
  · exact (takes_advance r).andThen _
  · exact takes_fail _ r

theorem takes_continues (closing : TokenKind) (r : DocumentReader σ) :
    (r.continues closing).Takes := by
  rw [continues]
  split
  · exact (takes_advance r).andThen _
  · split
    · exact (takes_advance r).andThen _
    · exact takes_fail _ r

theorem takes_pass {l : Loop} {p : Stage σ Loop} (h : r.pass? l = some p) : p.Takes := by
  match l with
  | .value stack =>
    cases h
    split
    · exact takes_andThen _ fun _ r => (takes_expect .openBrace r).andThen _
    · exact takes_andThen _ fun _ r => (takes_expect .openBracket r).andThen _
    · exact (takes_scalar r).andThen _
  | .close v [] => cases h
  | .close v (.array items :: stack) | .close v (.member members name :: stack) =>
    cases h
    exact (takes_continues _ r).andThen _

end Takes

end DocumentReader
end ExactJson
