import ExactJson.Proofs.Document.Related
import ExactJson.Proofs.Layout.RoundTrip

/-! The policy for fractions decides what the numbers at the leaves become, and nothing else: under two
policies the reader takes the same tokens, and fails at the same one. -/
namespace ExactJson
open Value (mapNumbers mapItems mapMembers)

/-- Numbers that only a policy tells apart: of one text, and the same if they are integers. -/
structure Number.Twin (n m : Number) : Prop where
  text : m.text = n.text
  isInteger : m.isInteger = n.isInteger
  eq : n.isInteger = true → m = n

theorem Number.twin_reread (n : Number) (policy : FractionPolicy) : n.Twin (n.reread policy) where
  text := text_reread policy n
  isInteger := by
    rw [reread]
    split
    · rfl
    · rename_i hn
      rw [isInteger_ofFractionLiteral, Bool.eq_false_iff.mpr hn]
  eq hn := reread_of_isInteger hn policy

namespace Value

mutual
/-- Trees of one shape with the same names in the same order, and with the same leaves but for the
numbers, which are only related. -/
def SameTree (R : Number → Number → Prop) : Value → Value → Prop
  | null, null => True
  | boolean a, boolean b => a = b
  | number n, number m => R n m
  | string s, string t => s = t
  | array vs, array ws => SameItems R vs ws
  | object ms, object ns => SameMembers R ms ns
  | _, _ => False
def SameItems (R : Number → Number → Prop) : List Value → List Value → Prop
  | [], [] => True
  | v :: vs, w :: ws => SameTree R v w ∧ SameItems R vs ws
  | _, _ => False
def SameMembers (R : Number → Number → Prop) :
    List (String × Value) → List (String × Value) → Prop
  | [], [] => True
  | (k, v) :: ms, (j, w) :: ns => k = j ∧ SameTree R v w ∧ SameMembers R ms ns
  | _, _ => False
end

theorem sameTree_mapNumbers {R : Number → Number → Prop} {f : Number → Number}
    (h : ∀ n, R n (f n)) (v : Value) : SameTree R v (v.mapNumbers f) := by
  induction v using Value.induction with
  | null => trivial
  | boolean | string => rfl
  | number n => exact h n
  | array vs ih =>
    rw [mapNumbers_array]
    change SameItems R vs (vs.map (mapNumbers f))
    induction vs with
    | nil => trivial
    | cons v vs hrest =>
      exact ⟨ih v List.mem_cons_self, hrest fun w hw => ih w (List.mem_cons_of_mem v hw)⟩
  | object ms ih =>
    rw [mapNumbers_object]
    change SameMembers R ms (ms.map fun m => (m.1, m.2.mapNumbers f))
    induction ms with
    | nil => trivial
    | cons m ms hrest =>
      exact ⟨rfl, ih m List.mem_cons_self, hrest fun w hw => ih w (List.mem_cons_of_mem m hw)⟩

end Value

def Frame.mapNumbers (f : Number → Number) : Frame → Frame
  | array items => array (mapItems f items)
  | member members name => member (mapMembers f members) name

namespace DocumentState

def mapNumbers (f : Number → Number) : DocumentState → DocumentState
  | value stack => value (stack.map (Frame.mapNumbers f))
  | firstItem stack => firstItem (stack.map (Frame.mapNumbers f))
  | itemEnd items stack => itemEnd (mapItems f items) (stack.map (Frame.mapNumbers f))
  | firstName stack => firstName (stack.map (Frame.mapNumbers f))
  | name members stack => name (mapMembers f members) (stack.map (Frame.mapNumbers f))
  | colon members key stack => colon (mapMembers f members) key (stack.map (Frame.mapNumbers f))
  | memberEnd members stack => memberEnd (mapMembers f members) (stack.map (Frame.mapNumbers f))
  | documentEnd v => documentEnd (v.mapNumbers f)

def Move.mapNumbers (f : Number → Number) : Move → Move
  | take next => take (next.mapNumbers f)
  | accept v => accept (v.mapNumbers f)
  | refuse e => refuse e

variable {limit : Nat} {policy policy' : FractionPolicy} {stack : List Frame} {t : Token}

@[simp] theorem complete_mapNumbers (f : Number → Number) (v : Value) (stack : List Frame) :
    (complete v stack).mapNumbers f =
      complete (v.mapNumbers f) (stack.map (Frame.mapNumbers f)) := by
  cases stack with
  | nil => rfl
  | cons frame stack =>
    cases frame with
    | array items => rfl
    | member members key => exact congrArg (memberEnd · _) (Value.mapMembers_insert f members key v)

theorem enter_mapNumbers (f : Number → Number) (next : DocumentState) :
    (enter ⟨limit, policy⟩ stack t next).mapNumbers f =
      enter ⟨limit, policy'⟩ (stack.map (Frame.mapNumbers f)) t (next.mapNumbers f) := by
  simp only [enter, List.length_map]
  split <;> rfl

theorem beginValue_reread (expected : KindSet) :
    (beginValue ⟨limit, policy⟩ expected stack t).mapNumbers (Number.reread policy') =
      beginValue ⟨limit, policy'⟩ expected (stack.map (Frame.mapNumbers (Number.reread policy')))
        t := by
  obtain ⟨content, lexeme, span⟩ := t
  cases content with
  | openBrace | openBracket => exact enter_mapNumbers _ _
  | number form =>
    have hn := Number.reread_ofLiteral policy policy' form lexeme
    simp only [beginValue, Move.mapNumbers, complete_mapNumbers, Value.mapNumbers, hn]
  | string | boolean | null => exact congrArg Move.take (complete_mapNumbers _ _ _)
  | closeBrace | closeBracket | colon | comma | endOfInput => rfl

theorem move_reread (s : DocumentState) (t : Token) :
    (s.move ⟨limit, policy⟩ t).mapNumbers (Number.reread policy') =
      (s.mapNumbers (Number.reread policy')).move ⟨limit, policy'⟩ t := by
  cases s with
  | value stack => exact beginValue_reread _
  | firstItem stack =>
    by_cases hc : t.content = .closeBracket
    · rw [mapNumbers, move_closeBracket hc, move_closeBracket hc]
      exact congrArg Move.take (complete_mapNumbers _ _ _)
    · rw [mapNumbers, move_firstItem hc, move_firstItem hc]
      exact beginValue_reread _
  | itemEnd items stack =>
    obtain ⟨content, lexeme, span⟩ := t
    cases content with
    | closeBracket =>
      have h := complete_mapNumbers (Number.reread policy') (.array items.reverse) stack
      rw [Value.mapNumbers_array, List.map_reverse, ← Value.mapItems_eq_map] at h
      exact congrArg Move.take h
    | _ => rfl
  | firstName stack | memberEnd members stack =>
    obtain ⟨content, lexeme, span⟩ := t
    cases content with
    | closeBrace => exact congrArg Move.take (complete_mapNumbers _ _ _)
    | _ => rfl
  | name | colon | documentEnd =>
    obtain ⟨content, lexeme, span⟩ := t
    cases content <;> rfl

end DocumentState

namespace DocumentReader
variable {σ : Type} [Source σ]

def under (policy : FractionPolicy) (r : DocumentReader σ) : DocumentReader σ :=
  { r with options := { r.options with fractions := policy } }

/-- Under another policy the reader answers with the numbers read again, and stops at the same place. -/
theorem goOn_reread (policy : FractionPolicy) (s : DocumentState) (r : DocumentReader σ) :
    (r.under policy).goOn (s.mapNumbers (Number.reread policy)) =
      ((r.goOn s).1.map (Value.reread policy), (r.goOn s).2.under policy) := by
  have hmove (s : DocumentState) (r : DocumentReader σ) :
      (s.mapNumbers (Number.reread policy)).move (r.under policy).options (r.under policy).current =
        (s.move r.options r.current).mapNumbers (Number.reread policy) :=
    (DocumentState.move_reread s r.current).symm
  fun_induction goOn s r with
  | case1 s r e hm | case2 s r v hm =>
    rw [goOn_eq, hmove, hm]
    rfl
  | case3 s r next hm e tokens hread =>
    rw [goOn_eq, hmove, hm]
    simp only [DocumentState.Move.mapNumbers, under, hread]
    rfl
  | case4 s r next hm token tokens hread ih =>
    rw [goOn_eq, hmove, hm]
    simp only [DocumentState.Move.mapNumbers, under, hread]
    exact ih

end DocumentReader

theorem readSource_reread {σ : Type} [Source σ] (source : σ) (limit : Nat)
    (policy policy' : FractionPolicy) :
    readSource source ⟨limit, policy'⟩ =
      (readSource source ⟨limit, policy⟩).map (Value.reread policy') := by
  simp only [readSource, DocumentReader.ofSource_eq]
  cases (TokenStream.ofSource source).read.1 with
  | error e => rfl
  | ok token =>
    exact congrArg Prod.fst (DocumentReader.goOn_reread policy' (.value [])
      ⟨(TokenStream.ofSource source).read.2, token, ⟨limit, policy⟩⟩)

/-- Whatever a document comes from and however deep it may be, both policies report the same error,
or give trees that differ in nothing but the representation of fractions and are written alike. -/
theorem readSource_policies {σ : Type} [Source σ] (source : σ) (limit : Nat) :
    (∃ e, readSource source ⟨limit, .exact⟩ = .error e ∧
      readSource source ⟨limit, .float⟩ = .error e) ∨
    ∃ v w, readSource source ⟨limit, .exact⟩ = .ok v ∧ readSource source ⟨limit, .float⟩ = .ok w ∧
      v.SameTree Number.Twin w ∧ ∀ l, w.render l = v.render l := by
  rw [readSource_reread source limit .exact .float]
  cases readSource source ⟨limit, .exact⟩ with
  | error e => exact .inl ⟨e, rfl, rfl⟩
  | ok v =>
    refine .inr ⟨v, v.reread .float, rfl, rfl, ?_, v.render_reread .float⟩
    exact Value.sameTree_mapNumbers (fun n => n.twin_reread .float) v

end ExactJson
