import ExactJson.Proofs.Document.Values

/-! The values that a program can come by. Reading, putting together, editing and taking apart keep the
names of an object different and its numbers ones that can be made. -/
namespace ExactJson

def Frame.value : Frame → Value
  | array items => .array items
  | member members _ => .object members

namespace DocumentState
variable {limit : Nat} {s s' : DocumentState} {stack : List Frame} {a : Symbol} {v : Value}
variable {options : ReadOptions} {t : Token}

def values : DocumentState → List Value
  | value stack | firstItem stack | firstName stack => stack.map Frame.value
  | itemEnd items stack => .array items :: stack.map Frame.value
  | name members stack | colon members _ stack | memberEnd members stack =>
    .object members :: stack.map Frame.value
  | documentEnd v => [v]

def Built (s : DocumentState) : Prop := ∀ v ∈ s.values, v.Built

theorem built_complete (hv : v.Built) (hs : ∀ w ∈ stack.map Frame.value, w.Built) :
    (complete v stack).Built := by
  cases stack with
  | nil => exact List.forall_mem_singleton.mpr hv
  | cons frame stack =>
    obtain ⟨hframe, hstack⟩ := List.forall_mem_cons.mp hs
    cases frame with
    | array items =>
      have hitems := Value.built_array.mp hframe
      exact List.forall_mem_cons.mpr
        ⟨Value.built_array.mpr (List.forall_mem_cons.mpr ⟨hv, hitems⟩), hstack⟩
    | member members key =>
      exact List.forall_mem_cons.mpr ⟨Value.Built.insert hframe key hv, hstack⟩

theorem Begins.built (hb : Begins s stack) (hs : s.Built) : ∀ v ∈ stack.map Frame.value, v.Built := by
  cases hb with
  | value => exact hs
  | firstItem =>
    have hempty : (Value.array []).Built := Value.built_array.mpr (List.forall_mem_nil _)
    exact List.forall_mem_cons.mpr ⟨hempty, hs⟩

theorem built_of_value? (ha : a.value? = some v) (hn : ∀ n, a = .number n → n.Built) : v.Built := by
  cases a with
  | number n =>
    cases ha
    exact ⟨trivial, List.forall_mem_singleton.mpr (hn n rfl)⟩
  | string | boolean | null =>
    cases ha
    exact ⟨trivial, List.forall_mem_nil _⟩
  | openBrace | closeBrace | openBracket | closeBracket | colon | comma => cases ha

theorem Takes.built (h : Takes limit s a s') (hn : ∀ n, a = .number n → n.Built) (hs : s.Built) :
    s'.Built := by
  have hobject : (Value.object []).Built :=
    Value.built_object.mpr ⟨List.nodup_nil, List.forall_mem_nil _⟩
  cases h with
  | scalar hb ha => exact built_complete (built_of_value? ha hn) (hb.built hs)
  | openBrace hb | openBracket hb => exact hb.built hs
  | emptyArray stack => exact built_complete (Value.built_array.mpr (List.forall_mem_nil _)) hs
  | emptyObject stack => exact built_complete hobject hs
  | closeArray items stack =>
    obtain ⟨hitems, hstack⟩ := List.forall_mem_cons.mp hs
    refine built_complete (Value.built_array.mpr fun v hv => ?_) hstack
    exact Value.built_array.mp hitems v (List.mem_reverse.mp hv)
  | closeObject members stack =>
    obtain ⟨hmembers, hstack⟩ := List.forall_mem_cons.mp hs
    exact built_complete hmembers hstack
  | firstName => exact List.forall_mem_cons.mpr ⟨hobject, hs⟩
  | itemComma | name | colon | memberComma => exact hs

theorem built_of_move (ht : Grammar.TokenText t.content (Text.utf8 t.lexeme))
    (hm : s.move options t = .take s') (hs : s.Built) : s'.Built := by
  obtain ⟨a, ha, htakes⟩ := takes_of_move hm
  refine htakes.built (fun n hn => ?_) hs
  subst hn
  obtain ⟨content, lexeme, span⟩ := t
  cases content with
  | number form =>
    cases ha
    exact .literal options.fractions (NumberForm.ofText?_eq_some_iff.mpr ht.numberText)
  | _ => cases ha

end DocumentState

namespace DocumentReader
variable {σ : Type} [Source σ] {r : DocumentReader σ} {v : Value}

theorem built_goOn (s : DocumentState) (r : DocumentReader σ) (hr : r.Spelled) (hs : s.Built)
    (hv : (r.goOn s).1 = .ok v) : v.Built := by
  fun_induction goOn s r with
  | case1 s r e hm => cases hv
  | case2 s r w hm =>
    cases hv
    obtain ⟨rfl, -⟩ := DocumentState.accept_of_move hm
    exact hs _ List.mem_cons_self
  | case3 s r next hm e tokens hread => cases hv
  | case4 s r next hm token tokens hread ih =>
    exact ih (TokenStream.tokenText_of_read hread) (DocumentState.built_of_move hr hm hs) hv

theorem built_readings (hr : r.Spelled) {k : Nat} (hv : .ok v ∈ r.readings k) : v.Built := by
  induction k generalizing r with
  | zero => cases hv
  | succ k ih =>
    obtain hv | hv := List.mem_cons.mp hv
    · exact built_goOn (.value []) r hr (List.forall_mem_nil _) hv.symm
    · exact ih (ofText_goOn (.value []) r hr (List.forall_mem_nil _)).1 hv

end DocumentReader

theorem Number.Obtained.built {n : Number} (h : n.Obtained) : n.Built := by
  cases h with
  | int64 x => exact built_int64 x
  | ofInt z => exact .ofInt z
  | ofBinary64 h => exact .ofBinary64 h
  | integer h => exact .integer h
  | decimal h => exact .decimal h
  | read hr hv hn =>
    have hspelled := DocumentReader.spelled_ofSource hr
    exact (DocumentReader.built_readings hspelled hv).numbers _ hn

namespace Value

/-- The values that a program can come by: those that it puts together and edits, those that it reads,
from whatever source and however often it uses the reader, and those inside them. -/
inductive Obtained : Value → Prop where
  | null : Obtained null
  | boolean (b : Bool) : Obtained (boolean b)
  | string (s : String) : Obtained (string s)
  | number {n : Number} (h : n.Obtained) : Obtained (number n)
  | array {vs : List Value} (h : ∀ v ∈ vs, Obtained v) : Obtained (array vs)
  | object : Obtained (object [])
  | insert {ms : Object} {v : Value} (h : Obtained (object ms)) (k : String) (hv : Obtained v) :
      Obtained (object (ms.insert k v))
  | erase {ms : Object} (h : Obtained (object ms)) (k : String) : Obtained (object (ms.erase k))
  | item {vs : List Value} {v : Value} (h : Obtained (array vs)) (hv : v ∈ vs) : Obtained v
  | member {ms : Object} {m : String × Value} (h : Obtained (object ms)) (hm : m ∈ ms) :
      Obtained m.2
  | read {σ : Type} [Source σ] {source : σ} {options : ReadOptions} {r : DocumentReader σ} {k : Nat}
      {v : Value} (hr : DocumentReader.ofSource source options = .ok r)
      (hv : .ok v ∈ r.readings k) : Obtained v

theorem Obtained.built {v : Value} (h : v.Obtained) : v.Built := by
  induction h with
  | null | boolean | string => exact ⟨trivial, List.forall_mem_nil _⟩
  | number h => exact ⟨trivial, List.forall_mem_singleton.mpr h.built⟩
  | array h ih => exact built_array.mpr ih
  | object => exact built_object.mpr ⟨List.nodup_nil, List.forall_mem_nil _⟩
  | insert h k hv ih ihv => exact ih.insert k ihv
  | erase h k ih => exact ih.erase k
  | item h hv ih => exact built_array.mp ih _ hv
  | member h hm ih => exact (built_object.mp ih).2 _ hm
  | read hr hv => exact DocumentReader.built_readings (DocumentReader.spelled_ofSource hr) hv

end Value
end ExactJson
