import ExactJson.Proofs.Source.Watched
import ExactJson.Proofs.Token.Related
import ExactJson.Proofs.Token.Respaced

/-! Tokens and faults depend on the bytes that have been looked at, and on nothing behind them. -/
namespace ExactJson
open Grammar

namespace TokenStream

section Streams
variable {σ τ : Type} [Source σ] [Source τ] {R : σ → τ → Prop} {t t' : TokenStream σ}
variable {u u' : TokenStream τ} {ts : List Token}

theorem Related.read_eq (hR : Source.Simulation (fun _ => False) R) (h : Related R t u) :
    t.read.1 = u.read.1 ∧ Related R t.read.2 u.read.2 := by
  obtain ⟨e, he, -⟩ | h := h.read hR
  · exact he.elim
  · exact h

theorem Related.reads (hR : Source.Simulation (fun _ => False) R) (h : Related R t u)
    (hs : Reads t ts t') : ∃ u', Reads u ts u' ∧ Related R t' u' := by
  induction hs generalizing u with
  | nil t => exact ⟨u, .nil u, h⟩
  | cons hread _ ih =>
    obtain ⟨hout, hnext⟩ := h.read_eq hR
    rw [hread] at hout hnext
    obtain ⟨u', hs, hr⟩ := ih hnext
    exact ⟨u', .cons (Prod.ext hout.symm rfl) hs, hr⟩

end Streams

def watching (c rest : Bytes) (front : Option (Option UInt8)) (p : Position) :
    TokenStream Watched := ⟨⟨c, rest, front⟩, p, false⟩

variable {data c rest : Bytes} {front : Option (Option UInt8)} {p : Position} {ts : List Token}

theorem feed_watching_nil (state : Lexer.State) (c : Bytes) (front : Option (Option UInt8))
    (p : Position) : feed state (watching c [] front p) =
      ((state.finish p).mapError .lexical, watching c [] (some none) p) := by
  rw [feed_eq]
  rfl

theorem feed_watching_cons (state : Lexer.State) (c : Bytes) (b : UInt8) (rest : Bytes)
    (front : Option (Option UInt8)) (p : Position) :
    feed state (watching c (b :: rest) front p) = match state.step p b with
      | .take next => feed next (watching (c ++ [b]) rest none (p.next b))
      | .takeLast outcome =>
        (outcome.mapError .lexical, watching (c ++ [b]) rest none (p.next b))
      | .leave outcome =>
        (outcome.mapError .lexical, watching c (b :: rest) (some (some b)) p) := by
  rw [feed_eq]
  rfl

/-- The lexer takes some bytes and sees perhaps one more. Whatever stands behind these, it makes the
same of them. -/
theorem feed_watching (state : Lexer.State) (c rest : Bytes) (front : Option (Option UInt8))
    (p : Position) (hf : Shows front rest) : ∃ outcome x left front', rest = x ++ left ∧
      Shows front' left ∧ ∀ more, Shows front' more → Shows front (x ++ more) ∧
        feed state (watching c (x ++ more) front p) =
          (outcome, watching (c ++ x) more front' (p.after x)) := by
  induction rest generalizing state c front p with
  | nil =>
    refine ⟨(state.finish p).mapError .lexical, [], [], some none, rfl, shows_head [], ?_⟩
    intro more hm
    obtain rfl := hm.eq_nil
    refine ⟨hf, ?_⟩
    rw [List.append_nil, List.append_nil, feed_watching_nil]
    rfl
  | cons b rest ih =>
    cases hstep : state.step p b with
    | take next =>
      obtain ⟨outcome, x, left, front', rfl, hshow, hall⟩ :=
        ih next (c ++ [b]) none (p.next b) (shows_none _)
      refine ⟨outcome, b :: x, left, front', rfl, hshow, fun more hm => ⟨hf.of_head rfl, ?_⟩⟩
      rw [List.cons_append, feed_watching_cons, hstep]
      have hnext := (hall more hm).2
      rwa [List.append_assoc, List.singleton_append] at hnext
    | takeLast outcome =>
      refine ⟨outcome.mapError .lexical, [b], rest, none, rfl, shows_none _,
        fun more _ => ⟨hf.of_head rfl, ?_⟩⟩
      rw [List.singleton_append, feed_watching_cons, hstep]
      rfl
    | leave outcome =>
      refine ⟨outcome.mapError .lexical, [], b :: rest, some (some b), rfl,
        shows_head (b :: rest), fun more hm => ?_⟩
      obtain ⟨bs, rfl⟩ := hm.eq_cons
      refine ⟨hf.of_head rfl, ?_⟩
      rw [List.nil_append, feed_watching_cons, hstep, List.append_nil]
      rfl

theorem Reads.of_watching {u : TokenStream Watched} (h : Reads (watching c rest front p) ts u)
    (hf : Shows front rest) : ∃ x left front' q, rest = x ++ left ∧
      u = watching (c ++ x) left front' q ∧ Shows front' left ∧
        ∀ more, Shows front' more → Shows front (x ++ more) ∧
          Reads (watching c (x ++ more) front p) ts (watching (c ++ x) more front' q) := by
  induction ts generalizing c rest front p with
  | nil =>
    cases h
    refine ⟨[], rest, front, p, rfl, by rw [List.append_nil], hf, fun more hm => ⟨hm, ?_⟩⟩
    rw [List.append_nil]
    exact .nil _
  | cons t ts ih =>
    cases h with
    | cons hread hs =>
      obtain ⟨outcome, x, left, front₁, rfl, hshow, hfirst⟩ :=
        feed_watching .between c rest front p hf
      have hread' := (hfirst left hshow).2
      rw [← read, hread] at hread'
      cases hread'
      obtain ⟨y, left, front', q, rfl, rfl, hshow, hrest⟩ := ih hs hshow
      refine ⟨x ++ y, left, front', q, (List.append_assoc x y left).symm,
        by rw [List.append_assoc], hshow, fun more hm => ?_⟩
      obtain ⟨hmiddle, hreads⟩ := hrest more hm
      obtain ⟨hstart, hread'⟩ := hfirst (y ++ more) hmiddle
      rw [List.append_assoc]
      refine ⟨hstart, .cons hread' ?_⟩
      rw [← List.append_assoc]
      exact hreads

theorem reads_again {more : Bytes}
    (h : Reads (behind (c ++ rest) [] (c ++ rest) false) ts (behind (c ++ rest) c rest false))
    (hmore : more.head? = rest.head?) :
    Reads (behind (c ++ more) [] (c ++ more) false) ts (behind (c ++ more) c more false) := by
  have hstart (data : Bytes) : Related (fun (s : Watched) (t : Slice) => s.rest = t.rest)
      (watching [] data none .start) (behind data [] data false) := ⟨rfl, rfl, rfl⟩
  have hflip (data : Bytes) : Related (fun (t : Slice) (s : Watched) => s.rest = t.rest)
      (behind data [] data false) (watching [] data none .start) := ⟨rfl, rfl, rfl⟩
  obtain ⟨u, hu, hrest⟩ := (hflip (c ++ rest)).reads Watched.simulation_slice.flip h
  obtain ⟨x, left, front, q, hdata, rfl, hshow, hall⟩ := hu.of_watching (shows_none _)
  obtain rfl : left = rest := hrest.source
  obtain rfl := List.append_cancel_right hdata
  have hwatch := (hall more (hshow.of_head hmore)).2
  obtain ⟨v, hv, hrest⟩ := (hstart (c ++ more)).reads Watched.simulation_slice hwatch
  obtain ⟨x, left, hdata, rfl⟩ := hv.exists_behind
  obtain rfl : more = left := hrest.source
  obtain rfl := List.append_cancel_right hdata
  exact hv

end TokenStream

open TokenStream

section Faults
variable {σ τ : Type} [Source σ] [Source τ] {R : σ → τ → Prop} {source : σ} {other : τ}
variable {ts : List Token} {e : LexicalError}

def Faults (source : σ) (ts : List Token) (e : LexicalError) : Prop :=
  (∀ t ∈ ts, t.content ≠ .endOfInput) ∧ ∃ u v,
    Reads (TokenStream.ofSource source) ts u ∧ u.read = (.error (.lexical e), v)

theorem Faults.simulated (hR : Source.Simulation (fun _ => False) R) (hs : R source other)
    (h : Faults source ts e) : Faults other ts e := by
  obtain ⟨hts, u, v, hr, hread⟩ := h
  obtain ⟨t, ht, hrel⟩ := (related_ofSource hs).reads hR hr
  obtain ⟨hout, -⟩ := hrel.read_eq hR
  rw [hread] at hout
  exact ⟨hts, t, t.read.2, ht, Prod.ext hout.symm rfl⟩

end Faults

def Watches (data : Bytes) (ts : List Token) (e : LexicalError) (s : Watched) : Prop := ∃ u v,
  Reads (TokenStream.ofSource (Watched.ofBytes data)) ts u ∧ u.read = (.error (.lexical e), v) ∧
    v.source = s

variable {data : Bytes} {ts : List Token} {e : LexicalError} {s : Watched}

theorem Faults.exists_watches (h : Faults (Slice.ofBytes data) ts e) :
    ∃ s, Watches data ts e s := by
  obtain ⟨-, u, v, hr, hread⟩ :=
    h.simulated Source.simulation_alike (Watched.alike_slice data).symm
  exact ⟨_, u, v, hr, hread, rfl⟩

theorem Watches.faults (h : Watches data ts e s) (hts : ∀ t ∈ ts, t.content ≠ .endOfInput) :
    Faults (Slice.ofBytes data) ts e := by
  obtain ⟨u, v, hr, hread, -⟩ := h
  have hw : Faults (Watched.ofBytes data) ts e := ⟨hts, u, v, hr, hread⟩
  exact hw.simulated Source.simulation_alike (Watched.alike_slice data)

/-- The fault is found again wherever the bytes that have been looked at stand at the beginning. -/
theorem Watches.again (h : Watches data ts e s) : (∃ rest, data = s.examined ++ rest) ∧
    (¬ s.SeenEnd → ∀ more, ∃ s', Watches (s.examined ++ more) ts e s') := by
  obtain ⟨u, v, hr, hread, rfl⟩ := h
  obtain ⟨x, left, front, q, rfl, rfl, hshow, htokens⟩ := Reads.of_watching hr (shows_none data)
  obtain ⟨outcome, y, left, front', rfl, hshow', hfault⟩ :=
    feed_watching .between ([] ++ x) left front q hshow
  have hread' := (hfault left hshow').2
  rw [← TokenStream.read, hread] at hread'
  cases hread'
  obtain ⟨bs, hbs⟩ := hshow'.exists_append
  refine ⟨⟨bs, ?_⟩, fun hend more => ?_⟩
  · rw [hbs]
    simp [watching, Watched.examined]
  · obtain ⟨hmiddle, hread⟩ := hfault _ (shows_append hend more)
    obtain ⟨-, hreads⟩ := htokens _ hmiddle
    have hbytes : x ++ (y ++ (front'.join.toList ++ more)) =
        (watching ([] ++ x ++ y) left front' (q.after y)).source.examined ++ more := by
      simp [watching, Watched.examined]
    exact ⟨_, _, _, hbytes ▸ hreads, hread, rfl⟩

end ExactJson
