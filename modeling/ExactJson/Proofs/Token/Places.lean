import ExactJson.Proofs.Text.Position
import ExactJson.Proofs.Token.Reads
import ExactJson.Proofs.Token.Related

/-! Where the tokens of a document stand in it, and how its list of tokens ends. A stream is always
behind the bytes that it has taken, also behind a fault. -/
namespace ExactJson
open Grammar Text

def stretch (data : Bytes) (p q : Position) : Bytes := (data.take q.offset).drop p.offset

structure Token.Located (t : Token) (data : Bytes) : Prop where
  ordered : t.span.start.offset ≤ t.span.finish.offset
  start : t.span.start = .behind (data.take t.span.start.offset)
  finish : t.span.finish = .behind (data.take t.span.finish.offset)
  lexeme : utf8 t.lexeme = stretch data t.span.start t.span.finish
  nonempty : t.content ≠ .endOfInput → t.span.start.offset < t.span.finish.offset
  last : t.content = .endOfInput → t.span.start.offset = data.length

def Token.Next (t : Token) (data : Bytes) (p : Position) : Prop :=
  p.offset ≤ t.span.start.offset ∧ Blanks (stretch data p t.span.start)

@[simp]
theorem take_behind (c x : Bytes) : (c ++ x).take (Position.behind c).offset = c := List.take_left

theorem stretch_behind (c x rest : Bytes) :
    stretch (c ++ x ++ rest) (.behind c) (.behind (c ++ x)) = x := by
  rw [stretch, take_behind]
  exact List.drop_left

theorem Token.Stands.located {t : Token} {c w x rest : Bytes} (h : t.Stands (.behind c) w x)
    (hend : t.content = .endOfInput → rest = []) : t.Located (c ++ w ++ x ++ rest) := by
  obtain ⟨content, lexeme, span⟩ := t
  obtain ⟨-, htext, hlexeme, rfl⟩ := h
  simp only [Position.after_behind, ← List.append_assoc]
  have hlen : (Position.behind (c ++ w ++ x)).offset =
    (Position.behind (c ++ w)).offset + x.length := List.length_append
  refine ⟨?_, ?_, ?_, ?_, fun hc => ?_, fun hc => ?_⟩
  · exact hlen ▸ Nat.le_add_right _ _
  · dsimp only
    rw [List.append_assoc (c ++ w), take_behind]
  · rw [take_behind]
  · rw [stretch_behind, hlexeme]
  · have hx := TokenStream.length_pos_of_tokenText htext hc
    dsimp only
    omega
  · subst hc
    cases htext
    rw [hend rfl, List.append_nil, List.append_nil]
    rfl

theorem Token.Stands.next {t : Token} {c w x rest : Bytes} (h : t.Stands (.behind c) w x) :
    t.Next (c ++ w ++ rest) (.behind c) := by
  have hstart : t.span.start = .behind (c ++ w) := by
    rw [h.span]
    exact Position.after_behind c w
  rw [Token.Next, hstart, stretch_behind]
  exact ⟨by simp [Position.behind], h.blanks⟩

theorem Lexer.State.run_eq (state : State) (p : Position) (bs : Bytes) :
    ∃ x, bs = x ++ (state.run p bs).2.2 ∧ (state.run p bs).2.1 = p.after x := by
  induction bs generalizing state p with
  | nil => exact ⟨[], rfl, rfl⟩
  | cons b bs ih =>
    rw [run]
    cases state.step p b with
    | take next =>
      obtain ⟨x, hx, hp⟩ := ih next (p.next b)
      exact ⟨b :: x, congrArg (b :: ·) hx, hp⟩
    | takeLast outcome => exact ⟨[b], rfl, rfl⟩
    | leave outcome => exact ⟨[], rfl, rfl⟩

namespace TokenStream

def behind (data c rest : Bytes) (finished : Bool) : TokenStream Slice :=
  ⟨⟨data, rest⟩, .behind c, finished⟩

def Takes (c x rest : Bytes) (outcome : Except ReadError Token) : Prop :=
  ∀ token, outcome = .ok token → ∃ w y, x = w ++ y ∧ token.Stands (.behind c) w y ∧
    (token.content = .endOfInput → rest = [])

theorem read_behind (data c rest : Bytes) (finished : Bool) :
    ∃ outcome x left, rest = x ++ left ∧
      (behind data c rest finished).read = (outcome, behind data (c ++ x) left finished) ∧
      Takes c x left outcome := by
  obtain ⟨x, hx, hp⟩ := Lexer.State.run_eq .between (.behind c) rest
  refine ⟨(Lexer.State.between.run (.behind c) rest).1.mapError .lexical, x, _, hx, ?_, ?_⟩
  · rw [read, behind, feed_slice, hp, Position.after_behind]
    rfl
  · intro token ht
    cases hr : Lexer.State.between.run (.behind c) rest with
    | mk outcome left =>
      obtain ⟨q, left⟩ := left
      rw [hr] at ht hx
      cases outcome with
      | error e => cases ht
      | ok t =>
        cases ht
        obtain ⟨w, y, hwy, hs, -, hend⟩ := Lexer.stands_of_run hr
        exact ⟨w, y, List.append_cancel_right (hx.symm.trans hwy), hs, hend⟩

theorem read_alike {σ : Type} [Source σ] {t : TokenStream σ} {data bs : Bytes}
    (h : Source.Alike t.source (Slice.mk data bs)) :
    t.read.1 = (Lexer.State.between.run t.position bs).1.mapError .lexical ∧
      Related Source.Alike t.read.2 (.mk (Slice.mk data (Lexer.State.between.run t.position bs).2.2)
        (Lexer.State.between.run t.position bs).2.1 t.finished) := by
  have hsame : Related Source.Alike t ⟨Slice.mk data bs, t.position, t.finished⟩ := ⟨h, rfl, rfl⟩
  obtain ⟨_, ⟨⟩, -⟩ | hread := hsame.read Source.simulation_alike
  rw [read, read, feed_slice] at hread
  exact hread

theorem request_behind (data c rest : Bytes) (finished : Bool) (r : Request) :
    (finished = true ∧ (behind data c rest finished).request r =
        (none, behind data c rest finished)) ∨
      ∃ outcome x left finished', rest = x ++ left ∧ Takes c x left outcome ∧
        (behind data c rest finished).request r =
          (some outcome, behind data (c ++ x) left finished') := by
  obtain ⟨outcome, x, left, hx, hread, htakes⟩ := read_behind data c rest finished
  cases r with
  | read => exact .inr ⟨outcome, x, left, finished, hx, htakes, by rw [request, hread]⟩
  | next =>
    cases finished with
    | true => exact .inl ⟨rfl, request_next_of_finished rfl⟩
    | false =>
      refine .inr ⟨outcome, x, left, isLast outcome, hx, htakes, ?_⟩
      rw [request_next rfl, hread]
      rfl

variable {data c rest : Bytes} {finished : Bool} {token a b : Token}
variable {before more : List (Except ReadError Token)}

theorem after_behind (data c rest : Bytes) (finished : Bool) (rs : List Request) :
    ∃ x left finished', rest = x ++ left ∧
      (behind data c rest finished).after rs = behind data (c ++ x) left finished' := by
  induction rs generalizing c rest finished with
  | nil => exact ⟨[], rest, finished, rfl, by rw [List.append_nil]; rfl⟩
  | cons r rs ih =>
    rw [after]
    obtain ⟨-, hr⟩ | ⟨outcome, x, left, finished', rfl, -, hr⟩ :=
      request_behind data c rest finished r
    · rw [hr]
      exact ih c rest finished
    · obtain ⟨y, left, finished', rfl, hafter⟩ := ih (c ++ x) left finished'
      refine ⟨x ++ y, left, finished', (List.append_assoc x y left).symm, ?_⟩
      rw [hr, hafter, List.append_assoc]

theorem Takes.located {x : Bytes} (h : Takes c x rest (.ok token)) :
    token.Located (c ++ (x ++ rest)) := by
  obtain ⟨w, y, rfl, hs, hend⟩ := h token rfl
  have hl := hs.located hend
  simpa only [List.append_assoc] using hl

theorem Takes.next {x : Bytes} (h : Takes c x rest (.ok token)) :
    token.Next (c ++ (x ++ rest)) (.behind c) := by
  obtain ⟨w, y, rfl, hs, -⟩ := h token rfl
  have hn := @Token.Stands.next token c w y (y ++ rest) hs
  simpa only [List.append_assoc] using hn

theorem Takes.finish {x : Bytes} (h : Takes c x rest (.ok token)) :
    token.span.finish = .behind (c ++ x) := by
  obtain ⟨w, y, rfl, hs, -⟩ := h token rfl
  rw [hs.span]
  exact Position.after_behind c _

theorem located_of_answers (rs : List Request)
    (h : some (.ok token) ∈ (behind (c ++ rest) c rest finished).answers rs) :
    token.Located (c ++ rest) := by
  induction rs generalizing c rest finished with
  | nil => cases h
  | cons r rs ih =>
    rw [answers] at h
    obtain ⟨-, hr⟩ | ⟨outcome, x, left, finished', rfl, htakes, hr⟩ :=
      request_behind (c ++ rest) c rest finished r
    · rw [hr] at h
      exact ih ((List.mem_cons.mp h).resolve_left (Option.some_ne_none _))
    · rw [hr] at h
      obtain heq | hmem := List.mem_cons.mp h
      · cases heq
        exact htakes.located
      · rw [← List.append_assoc] at hmem ⊢
        exact ih hmem

theorem next_of_answers (rs : List Request)
    (h : ((behind (c ++ rest) c rest finished).answers rs).filterMap id = .ok token :: more) :
    token.Next (c ++ rest) (.behind c) := by
  induction rs generalizing finished with
  | nil => cases h
  | cons r rs ih =>
    rw [answers] at h
    obtain ⟨-, hr⟩ | ⟨outcome, x, left, finished', rfl, htakes, hr⟩ :=
      request_behind (c ++ rest) c rest finished r
    · rw [hr] at h
      exact ih h
    · rw [hr] at h
      cases (List.cons.inj h).1
      exact htakes.next

theorem next_of_answers_append (rs : List Request)
    (h : ((behind (c ++ rest) c rest finished).answers rs).filterMap id =
      before ++ .ok a :: .ok b :: more) : b.Next (c ++ rest) a.span.finish := by
  induction rs generalizing c rest finished before with
  | nil => cases before <;> cases h
  | cons r rs ih =>
    rw [answers] at h
    obtain ⟨-, hr⟩ | ⟨outcome, x, left, finished', rfl, htakes, hr⟩ :=
      request_behind (c ++ rest) c rest finished r
    · rw [hr] at h
      exact ih h
    · rw [hr, ← List.append_assoc] at h
      rw [← List.append_assoc]
      cases before with
      | nil =>
        obtain ⟨heq, hmore⟩ := List.cons.inj h
        cases heq
        rw [htakes.finish]
        exact next_of_answers rs hmore
      | cons o before => exact ih (List.cons.inj h).2

section Listing
variable {σ τ : Type} [Source σ] [Source τ] {t u : TokenStream σ} {v : TokenStream τ}
variable {items : List (Except ReadError Token)} {outcome : Except ReadError Token}

/-- The list of the tokens of a stream: its last item is the only one that ends it, and whatever is
asked for behind that, there is no next one. -/
structure Lists (t : TokenStream σ) (items : List (Except ReadError Token)) : Prop where
  answers (k : Nat) : t.answers (List.replicate k .next) = (List.range k).map fun i => items[i]?
  ends : t.finished = false → ∃ init last, items = init ++ [last] ∧ isLast last = true ∧
    ∀ x ∈ init, isLast x = false
  closed (rs : List Request) :
    (((t.after (List.replicate items.length .next)).after rs).request .next).1 = none

@[simp] theorem finished_feed (state : Lexer.State) (t : TokenStream σ) :
    (t.feed state).2.finished = t.finished := by
  fun_induction feed state t with
  | case3 state t b s h next hs ih => exact ih
  | case1 | case2 | case4 | case5 => rfl

theorem finished_after (h : t.finished = true) (rs : List Request) :
    (t.after rs).finished = true := by
  induction rs generalizing t with
  | nil => exact h
  | cons r rs ih =>
    cases r with
    | read => exact ih ((finished_feed .between t).trans h)
    | next =>
      rw [after, request_next_of_finished h]
      exact ih h

theorem Lists.of_finished (h : t.finished = true) : Lists t [] where
  answers k := by
    induction k with
    | zero => rfl
    | succ k ih =>
      rw [List.replicate_succ, TokenStream.answers, request_next_of_finished h, ih,
        List.range_succ_eq_map, List.map_cons, List.map_map]
      rfl
  ends hf := by
    rw [h] at hf
    cases hf
  closed rs := congrArg Prod.fst (request_next_of_finished (finished_after h rs))

theorem Lists.cons (hr : t.request .next = (some outcome, u)) (hu : u.finished = isLast outcome)
    (h : Lists u items) (hnil : isLast outcome = true → items = []) :
    Lists t (outcome :: items) where
  answers k := by
    cases k with
    | zero => rfl
    | succ k =>
      rw [List.replicate_succ, TokenStream.answers, hr, h.answers, List.range_succ_eq_map,
        List.map_cons, List.map_map]
      rfl
  ends _ := by
    cases hl : isLast outcome with
    | true => exact ⟨[], outcome, by rw [hnil hl]; rfl, hl, List.forall_mem_nil _⟩
    | false =>
      obtain ⟨init, last, rfl, hlast, hinit⟩ := h.ends (hu.trans hl)
      exact ⟨outcome :: init, last, rfl, hlast, List.forall_mem_cons.mpr ⟨hl, hinit⟩⟩
  closed rs := by
    rw [List.length_cons, List.replicate_succ, after, hr]
    exact h.closed rs

theorem Related.lists (h : Related Source.Alike t v) (hl : Lists v items) : Lists t items where
  answers k := by
    rw [(h.requests Source.simulation_alike (fun _ => id) _).1, hl.answers]
  ends hf := hl.ends (h.finished ▸ hf)
  closed rs := by
    have hafter := (h.requests Source.simulation_alike (fun _ => id)
      (List.replicate items.length .next)).2
    have hrs := (hafter.requests Source.simulation_alike (fun _ => id) rs).2
    obtain ⟨e, ⟨⟩, -⟩ | ⟨hnext, -⟩ := hrs.request Source.simulation_alike .next
    rw [hnext]
    exact hl.closed rs

end Listing

theorem length_pos_of_takes {x : Bytes} {outcome : Except ReadError Token}
    (h : Takes c x rest outcome) (hl : isLast outcome = false) : 0 < x.length := by
  cases outcome with
  | error e => cases hl
  | ok token =>
    obtain ⟨w, y, rfl, hs, -⟩ := h token rfl
    have hc : token.content ≠ .endOfInput := fun hc => by
      simp [isLast, Token.kind, hc, TokenContent.kind] at hl
    have hy := length_pos_of_tokenText hs.text hc
    rw [List.length_append]
    omega

theorem exists_lists (data c rest : Bytes) (finished : Bool) :
    ∃ items, Lists (behind data c rest finished) items ∧ items.length ≤ rest.length + 1 := by
  induction hn : rest.length using Nat.strongRecOn generalizing c rest finished with
  | ind n ih =>
    cases finished with
    | true => exact ⟨[], .of_finished rfl, Nat.zero_le _⟩
    | false =>
      obtain ⟨outcome, x, left, rfl, hread, htakes⟩ := read_behind data c rest false
      have hr : (behind data c (x ++ left) false).request .next =
          (some outcome, behind data (c ++ x) left (isLast outcome)) := by
        rw [request_next rfl, hread]
        rfl
      cases hl : isLast outcome with
      | true =>
        refine ⟨[outcome], .cons hr rfl (.of_finished hl) fun _ => rfl, ?_⟩
        simp
      | false =>
        have hx := length_pos_of_takes htakes hl
        rw [List.length_append] at hn
        obtain ⟨items, hitems, hlen⟩ := ih left.length (by omega) (c ++ x) left (isLast outcome) rfl
        refine ⟨outcome :: items, .cons hr rfl hitems fun h => ?_, ?_⟩
        · rw [hl] at h
          cases h
        · rw [List.length_cons]
          omega

end TokenStream

theorem Slice.drain_eq (data rest : Bytes) :
    Source.drain (Slice.mk data rest) = (rest, none, ⟨data, []⟩) := by
  induction rest with
  | nil =>
    rw [Source.drain_eq]
    rfl
  | cons b rest ih =>
    rw [Source.drain_eq]
    simp only [Source.peek, Source.skip, List.head?_cons, List.tail_cons, ih]

open TokenStream

/-- The tokens of a document are exactly where they say, from any source that answers as its bytes in
memory do, and a stream is always at the place behind what it has taken. -/
theorem tokens_located {σ : Type} [Source σ] {source : σ} {data : Bytes}
    (h : Source.Alike source (Slice.ofBytes data)) (rs : List Request) :
    (∃ c rest, data = c ++ rest ∧
      ((ofSource source).after rs).position = .behind c ∧
      (Source.drain ((ofSource source).after rs).source).1 = rest ∧
      (Source.drain ((ofSource source).after rs).source).2.1 = none ∧
      ∃ items, Lists ((ofSource source).after rs) items ∧ items.length ≤ rest.length + 1) ∧
    (∀ token, some (.ok token) ∈ (ofSource source).answers rs → token.Located data) ∧
    (∀ token more, ((ofSource source).answers rs).filterMap id = .ok token :: more →
      token.Next data .start) ∧
    ∀ before a b more, ((ofSource source).answers rs).filterMap id = before ++ .ok a :: .ok b :: more →
      b.Next data a.span.finish := by
  obtain ⟨hanswers, hafter⟩ :=
    (related_ofSource h).requests Source.simulation_alike (fun _ => id) rs
  rw [hanswers]
  refine ⟨?_, fun token ht => ?_, fun token more ht => ?_, fun before a b more ht => ?_⟩
  · obtain ⟨x, left, finished, hdata, hx⟩ := TokenStream.after_behind data [] data false rs
    have hrel : Related Source.Alike ((ofSource source).after rs) (behind data x left finished) :=
      hx ▸ hafter
    obtain ⟨items, hitems, hlen⟩ := exists_lists data x left finished
    have hdrain := hrel.source.drain
    rw [show (behind data x left finished).source = .mk data left from rfl, Slice.drain_eq] at hdrain
    exact ⟨x, left, hdata, hrel.position, hdrain.1, hdrain.2, items, hrel.lists hitems, hlen⟩
  · exact @located_of_answers [] data false token rs ht
  · exact @next_of_answers [] data false token more rs ht
  · exact @next_of_answers_append [] data false a b before more rs ht

/-- A comma in the second line, behind a character of two bytes, which takes one column. -/
theorem tokens_located_comma :
    ∃ (data : Bytes) (comma : Token), data = utf8 "\n\"é\"," ∧
      comma = ⟨.comma, ",", ⟨⟨2, 4, 5⟩, ⟨2, 5, 6⟩⟩⟩ ∧
      Source.Alike (Slice.ofBytes data) (Slice.ofBytes data) ∧
      some (.ok comma) ∈ (ofSource (Slice.ofBytes data)).answers [.next, .next] ∧
      comma.Located data := by
  let data := utf8 "\n\"é\","
  let string : Token := ⟨.string "é", "\"é\"", ⟨⟨2, 1, 1⟩, ⟨2, 4, 5⟩⟩⟩
  let comma : Token := ⟨.comma, ",", ⟨⟨2, 4, 5⟩, ⟨2, 5, 6⟩⟩⟩
  have hstring : (ofSource (Slice.ofBytes data)).read =
      (.ok string, behind data (utf8 "\n\"é\"") (utf8 ",") false) := by
    rw [TokenStream.read, ofSource, Slice.ofBytes, feed_slice]
    rfl
  have hcomma : (behind data (utf8 "\n\"é\"") (utf8 ",") false).read =
      (.ok comma, behind data data [] false) := by
    rw [TokenStream.read, behind, feed_slice]
    rfl
  have hmem : some (.ok comma) ∈ (ofSource (Slice.ofBytes data)).answers [.next, .next] := by
    have hrest : ((ofSource (Slice.ofBytes data)).request .next).2 =
        behind data (utf8 "\n\"é\"") (utf8 ",") false := by
      rw [request_next rfl, hstring]
      rfl
    have hsecond : ((behind data (utf8 "\n\"é\"") (utf8 ",") false).request .next).1 =
        some (.ok comma) := by
      rw [request_next rfl, hcomma]
    rw [answers, answers, hrest, hsecond]
    exact List.mem_cons_of_mem _ List.mem_cons_self
  have halike := Source.Alike.refl (Slice.ofBytes data)
  exact ⟨data, comma, rfl, rfl, halike, hmem, (tokens_located halike [.next, .next]).2.1 _ hmem⟩

end ExactJson
