import ExactJson.Proofs.Document.Depth
import ExactJson.Proofs.Document.Passes
import ExactJson.Proofs.Document.Reading
import ExactJson.Proofs.Document.Related

/-! How much work a document is. Each pass of the loops takes tokens, and each token bytes, so that the
loops end; what has been taken bounds the tokens that are asked for and the open containers. -/
namespace ExactJson
open Grammar TokenStream DocumentReader

theorem Loop.At.containers_eq {l : Loop} {token : Token} {s : DocumentState} (h : l.At token s) :
    s.containers = l.stack.length := by
  cases l with
  | value stack => exact h.begins.containers_eq
  | close v stack =>
    cases h
    exact DocumentState.containers_complete v stack

namespace DocumentReader
variable {σ : Type} [Source σ] {options : ReadOptions} {s s' : DocumentState} {t u : TokenStream σ}
variable {r r' : DocumentReader σ} {l : Loop} {ts : List Token} {outcome : Except ReadError Value}

/-- The passes of the loops from where they stand, each with its place, up to the value or the first
error. -/
inductive Passes : DocumentReader σ → Loop → List (Loop × Stage σ Loop) → Except ReadError Value →
    DocumentReader σ → Prop where
  | left (r : DocumentReader σ) (v : Value) : Passes r (.close v []) [] (.ok v) r
  | broken {r r' : DocumentReader σ} {l : Loop} {e : ReadError} {asked : List Token}
    (h : r.pass? l = some ⟨.error e, r', asked⟩) :
    Passes r l [(l, ⟨.error e, r', asked⟩)] (.error e) r'
  | again {r r' r'' : DocumentReader σ} {l l' : Loop} {asked : List Token}
    {passes : List (Loop × Stage σ Loop)} {outcome : Except ReadError Value}
    (h : r.pass? l = some ⟨.ok l', r', asked⟩) (hp : Passes r' l' passes outcome r'') :
    Passes r l ((l, ⟨.ok l', r', asked⟩) :: passes) outcome r''

variable {passes : List (Loop × Stage σ Loop)}

def asked (passes : List (Loop × Stage σ Loop)) : List Token := passes.flatMap fun p => p.2.asked

def finish (r : DocumentReader σ) : Except ReadError Value → Except ReadError Value
  | .error e => .error e
  | .ok v =>
    if r.current.kind = .endOfInput then .ok v
    else .error (.unexpected r.current (.ofList [.endOfInput]))

def ReadsIn (r : DocumentReader σ) (passes : List (Loop × Stage σ Loop))
    (answer : Except ReadError Value) : Prop :=
  ∃ outcome r', Passes r (.value []) passes outcome r' ∧ answer = r'.finish outcome

theorem Passes.along (h : Passes r l passes outcome r') (hr : Fronts options t r)
    (hl : l.At r.current s) : Along options s t (fun v _ x => x = .documentEnd v)
      ⟨outcome, r', asked passes⟩ := by
  induction h generalizing s t with
  | left r v => exact .done (.nil s t) hr hl
  | broken h =>
    cases hr.pass hl h with
    | fail hf hs =>
      rw [asked, List.flatMap_singleton]
      exact .fail hf hs
  | again h _ ih =>
    cases hr.pass hl h with
    | done hf hr hl =>
      rw [asked, List.flatMap_cons]
      cases ih hr hl with
      | done hf' hr' hn => exact .done (hf.append hf') hr' hn
      | fail hf' hs => exact .fail (hf.append hf') hs

theorem Passes.at (h : Passes r l passes outcome r') (hr : Fronts options t r)
    (hl : l.At r.current s) : ∀ p ∈ passes, ∃ ts s' u token,
      Follows options s t ts s' u ∧ p.1.At token s' := by
  induction h generalizing s t with
  | left => exact List.forall_mem_nil _
  | broken => exact List.forall_mem_singleton.mpr ⟨[], s, t, _, .nil s t, hl⟩
  | again h _ ih =>
    refine List.forall_mem_cons.mpr ⟨⟨[], s, t, _, .nil s t, hl⟩, fun p hp => ?_⟩
    cases hr.pass hl h with
    | done hf hr hl =>
      obtain ⟨ts, s', u, token, hf', hat⟩ := ih hr hl p hp
      exact ⟨_, s', u, token, hf.append hf', hat⟩

theorem Passes.takes (h : Passes r l passes outcome r') : ∀ p ∈ passes, p.2.Takes := by
  induction h with
  | left => exact List.forall_mem_nil _
  | broken h => exact List.forall_mem_singleton.mpr (takes_pass h)
  | again h _ ih => exact List.forall_mem_cons.mpr ⟨takes_pass h, ih⟩

theorem Passes.length_le (h : Passes r l passes outcome r') :
    passes.length ≤ (asked passes).length + 1 := by
  induction h with
  | left => exact Nat.zero_le _
  | broken => exact Nat.succ_le_succ (Nat.zero_le _)
  | again h _ ih =>
    have hpos := List.length_pos_iff.mpr (takes_pass h _ rfl)
    simp only [asked, List.flatMap_cons, List.length_cons, List.length_append] at ih hpos ⊢
    omega

theorem pass?_eq_none (h : r.pass? l = none) : ∃ v, l = .close v [] := by
  match l with
  | .close v [] => exact ⟨v, rfl⟩
  | .value _ | .close _ (.array _ :: _) | .close _ (.member _ _ :: _) => cases h

theorem Follows.bound_le (h : Follows options s t ts s' u) :
    ts.length + Source.bound u.source ≤ Source.bound t.source := by
  induction h with
  | nil => exact Nat.le_of_eq (Nat.zero_add _)
  | cons hread hm _ ih =>
    have hless := TokenStream.bound_read hread (DocumentState.kind_of_move_eq_take hm)
    rw [List.length_cons]
    omega

theorem exists_passes (hr : Fronts options t r) (hl : l.At r.current s) :
    ∃ passes outcome r', Passes r l passes outcome r' := by
  -- On the bytes that are still to come: a pass that leads to another takes some.
  induction hn : Source.bound t.source using Nat.strongRecOn generalizing t s r l with
  | ind n ih =>
    cases hp : r.pass? l with
    | none =>
      obtain ⟨v, rfl⟩ := pass?_eq_none hp
      exact ⟨[], .ok v, r, .left r v⟩
    | some p =>
      have htakes := takes_pass hp
      cases hr.pass hl hp with
      | fail => exact ⟨_, _, _, .broken hp⟩
      | @done l' r' asked s' u hf hr hl =>
        have hpos : 0 < asked.length := List.length_pos_iff.mpr (htakes l' rfl)
        have hbound := hf.bound_le
        obtain ⟨passes, outcome, r', hpasses⟩ := ih _ (by omega) hr hl rfl
        exact ⟨_, outcome, r', .again hp hpasses⟩

theorem Fronts.stops (hr : Fronts options t r) (v : Value) :
    Stops options (.documentEnd v) t (r.finish (.ok v)) := by
  rw [finish]
  split
  · rename_i hk
    have hc := TokenContent.kind_eq_endOfInput.mp hk
    exact .accepted hr.read (by simp only [DocumentState.move, hc])
  · rename_i hk
    refine .refused hr.read ?_
    obtain ⟨tokens, ⟨c, lexeme, span⟩, o⟩ := r
    cases c with
    | endOfInput => exact absurd rfl hk
    | _ => rfl

/-- The tokens behind which the passes ask are those that the machine takes until it stops. -/
theorem ReadsIn.follows {answer : Except ReadError Value} (h : ReadsIn r passes answer)
    (hr : Fronts options t r) : ∃ s u, Follows options (.value []) t (asked passes) s u ∧
      Stops options s u answer := by
  obtain ⟨outcome, r', hp, rfl⟩ := h
  cases hp.along hr (.inl rfl) with
  | done hf hr' hn =>
    cases hn
    exact ⟨_, _, hf, hr'.stops _⟩
  | fail hf hs => exact ⟨_, _, hf, hs⟩

theorem Fronts.answer_eq (hr : Fronts options t r) (s : DocumentState) :
    answer options s t = (r.goOn s).1 := by
  obtain ⟨hread, rfl⟩ := hr
  simp only [answer, hread]

theorem Follows.length_le {breaks : IoError → Prop} {R : σ → Slice → Prop}
    (hR : Source.Simulation breaks R) {source : σ} {bs : Bytes} (h : R source (Slice.ofBytes bs))
    (hf : Follows options s (TokenStream.ofSource source) ts s' u) : ts.length ≤ bs.length := by
  obtain ⟨v, hfv, -⟩ := hf.related hR (related_ofSource h)
  obtain ⟨as, has, -⟩ := hfv.run
  obtain ⟨q, rest, -, -, hlen⟩ := Reads.ofRest (p := .start) hfv.reads
  exact Nat.le_of_add_right_le (hlen (content_ne_of_symbols has))

theorem Follows.accepted {us rest : List Token} {token : Token}
    (h : Follows options (.value []) t (us ++ token :: rest) s' u) :
    token.content ≠ .endOfInput ∧ Viable (us.map Token.kind ++ [token.kind]) := by
  rw [List.append_cons] at h
  obtain ⟨s₁, t₁, hus, -⟩ := h.split
  obtain ⟨as, has, hrun⟩ := hus.run
  have hkinds : (us ++ [token]).map Token.kind = as.map Symbol.kind :=
    map_of_symbols has fun _ _ _ ha => (Token.kind_of_symbol? ha).symm
  refine ⟨content_ne_of_symbols has token (List.mem_append_right us List.mem_cons_self), ?_⟩
  rw [List.map_append] at hkinds
  exact hkinds ▸ DocumentState.viable_of_run hrun

/-- A new reader asks for the first token, and goes on to ask for one behind each that it takes. -/
def requests (passes : List (Loop × Stage σ Loop)) : Nat := 1 + (asked passes).length

/-- What reading a document of `n` bytes costs. -/
structure Bounded (maxDepth n : Nat) (passes : List (Loop × Stage σ Loop)) : Prop where
  requests : requests passes ≤ n + 1
  accepted (us : List Token) (token : Token) (rest : List Token) :
    asked passes = us ++ token :: rest →
      token.content ≠ .endOfInput ∧ Viable (us.map Token.kind ++ [token.kind])
  takes : ∀ p ∈ passes, p.2.Takes
  length : passes.length ≤ n + 1
  height : ∀ p ∈ passes, p.1.stack.length ≤ min maxDepth n

theorem Passes.bounded {breaks : IoError → Prop} {R : σ → Slice → Prop}
    (hR : Source.Simulation breaks R) {source : σ} {bs : Bytes} (h : R source (Slice.ofBytes bs))
    (hr : Fronts options (TokenStream.ofSource source) r)
    (hp : Passes r (.value []) passes outcome r')
    (hf : Follows options (.value []) (TokenStream.ofSource source) (asked passes) s u) :
    Bounded options.maxDepth bs.length passes where
  requests := by
    have hlen := hf.length_le hR h
    rw [DocumentReader.requests]
    omega
  accepted us token rest heq := Follows.accepted (heq ▸ hf)
  takes := hp.takes
  length := Nat.le_trans hp.length_le (Nat.succ_le_succ (hf.length_le hR h))
  height p hmem := by
    obtain ⟨ts, s₁, u₁, token, hts, hat⟩ := hp.at hr (.inl rfl) p hmem
    obtain ⟨as, has, hrun⟩ := hts.run
    have hlen : ts.length = as.length := by simpa using congrArg List.length has
    have hcontainers : s₁.containers ≤ 0 + as.length := hrun.containers_le
    have hbytes := hts.length_le hR h
    rw [← hat.containers_eq]
    exact Nat.le_min.mpr ⟨hts.containers_le, by omega⟩

/-- A document is read in finitely many passes of two loops. The passes come to what the reader
answers, and ask behind the tokens that it takes. No more tokens are asked for than there are bytes and
one, each of them behind a token that the grammar takes and that is not the end of the document. Each
pass takes one at least, unless it ends with the error that is answered; with the value of the document
the loops are left without another pass. No more containers are open than the limit allows, or than
there are bytes. -/
theorem read_in_passes {breaks : IoError → Prop} {R : σ → Slice → Prop}
    (hR : Source.Simulation breaks R) {source : σ} {bs : Bytes} (h : R source (Slice.ofBytes bs))
    (hr : ofSource source options = .ok r) :
    (∃ passes answer, ReadsIn r passes answer) ∧ ∀ passes answer, ReadsIn r passes answer →
      answer = r.read.1 ∧
      (∃ s u, Follows options (.value []) (TokenStream.ofSource source) (asked passes) s u ∧
        Stops options s u answer) ∧
      Bounded options.maxDepth bs.length passes := by
  have hfronts : Fronts options (TokenStream.ofSource source) r :=
    ⟨(read_of_ofSource hr).1, (read_of_ofSource hr).2⟩
  refine ⟨?_, fun passes answer hin => ?_⟩
  · obtain ⟨passes, outcome, r', hp⟩ := exists_passes (l := .value []) hfronts (.inl rfl)
    exact ⟨passes, _, outcome, r', hp, rfl⟩
  · obtain ⟨s, u, hf, hs⟩ := hin.follows hfronts
    obtain ⟨outcome, r', hp, -⟩ := hin
    refine ⟨?_, ⟨s, u, hf, hs⟩, hp.bounded hR h hfronts hf⟩
    rw [DocumentReader.read, ← hfronts.answer_eq, hf.answer, hs.answer_eq]

/-- An array in a member. -/
theorem read_in_passes_member :
    ∃ (r : DocumentReader Slice) (passes : List (Loop × Stage Slice Loop)),
      ofSource (Slice.ofBytes (Text.utf8 "\x7b\"a\":[1]\x7d")) {} = .ok r ∧
      ReadsIn r passes (.ok (.object [("a", .array [.ofInt 1])])) ∧ requests passes ≤ 10 ∧
      passes.length ≤ 10 ∧ ∀ p ∈ passes, p.1.stack.length ≤ 9 := by
  have hname : StringText (Text.utf8 "\"a\"") "a" := by
    refine ⟨String.utf8EncodeChar 'a' ++ [], ?_, rfl⟩
    exact .cons (.raw (by decide) (by decide) (by decide)) .nil
  have hone : NumberText .integer [0x31] :=
    .integer (s := []) (.inl rfl) (.digits rfl (by decide) (List.forall_mem_nil _))
  have hmember : MemberText .exact (Text.utf8 "\"a\":[1]")
      ("a", .array [.number (.ofLiteral .exact .integer (Text.ofAscii [0x31]))]) :=
    .mk .nil hname .nil (.mk .nil (.array (.one (.mk .nil (.number hone) .nil))) .nil)
  have htext : ItemText .exact (Text.utf8 "\x7b\"a\":[1]\x7d") (.object [("a",
      .array [.number (.ofLiteral .exact .integer (Text.ofAscii [0x31]))])]) :=
    .mk .nil (.object (.one hmember)) .nil
  have hread := @readBytes_of_itemText _ {} _ htext (by decide)
  rw [readBytes, readSource] at hread
  cases hr : ofSource (Slice.ofBytes (Text.utf8 "\x7b\"a\":[1]\x7d")) {} with
  | error e =>
    rw [hr] at hread
    cases hread
  | ok r =>
    rw [hr] at hread
    obtain ⟨⟨passes, answer, hin⟩, hall⟩ :=
      read_in_passes Source.simulation_alike (Source.Alike.refl _) hr
    obtain ⟨rfl, -, hb⟩ := hall passes answer hin
    exact ⟨r, passes, rfl, hread ▸ hin, hb.requests, hb.length,
      fun p hp => Nat.le_trans (hb.height p hp) (Nat.min_le_right _ _)⟩

end DocumentReader
end ExactJson
