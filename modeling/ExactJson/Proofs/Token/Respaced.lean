import ExactJson.Proofs.Document.Numbers
import ExactJson.Proofs.Document.Reading
import ExactJson.Proofs.Token.Places

/-! Tokens do not depend on what stands around them. The text of a token is read as that token wherever
it stands, as long as blanks keep it from the next one. -/
namespace ExactJson
open Grammar Text TokenStream

namespace Token

def body (t : Token) : TokenContent × String := (t.content, t.lexeme)

def atEnd (data : Bytes) : Token := ⟨.endOfInput, "", ⟨.behind data, .behind data⟩⟩

end Token

def joined (w : Bytes) (ps : List (String × Bytes)) : Bytes :=
  w ++ ps.flatMap fun p => utf8 p.1 ++ p.2

/-- The bytes before, between and behind texts are blanks, and no two texts touch. -/
structure Spaced (w : Bytes) (ps : List (String × Bytes)) : Prop where
  before : Blanks w
  behind : ∀ p ∈ ps, Blanks p.2
  apart : ∀ p ∈ ps.dropLast, p.2 ≠ []

variable {data w g rest : Bytes} {s : String} {ps : List (String × Bytes)} {ts : List Token}
variable {t : Token}

theorem joined_cons (w : Bytes) (s : String) (g : Bytes) (ps : List (String × Bytes)) :
    joined w ((s, g) :: ps) = w ++ utf8 s ++ joined g ps := by
  simp [joined]

theorem Spaced.tail (h : Spaced w ((s, g) :: ps)) : Spaced g ps where
  before := h.behind (s, g) List.mem_cons_self
  behind p hp := h.behind p (List.mem_cons_of_mem _ hp)
  apart p hp := by
    cases ps with
    | nil => cases hp
    | cons q ps => exact h.apart p (List.mem_cons_of_mem _ hp)

theorem Spaced.delimited (h : Spaced w ((s, g) :: ps)) : Delimited (joined g ps) := by
  have hg : Blanks g := h.behind (s, g) List.mem_cons_self
  cases ps with
  | nil => exact .blanks hg .nil
  | cons p ps =>
    have hne : g ≠ [] := h.apart (s, g) List.mem_cons_self
    obtain ⟨b, g, rfl⟩ := List.exists_cons_of_ne_nil hne
    exact .cons b (mem_delimiters_of_isBlank (hg b List.mem_cons_self)) _

namespace TokenStream

theorem Reads.exists_behind {c : Bytes} {u : TokenStream Slice}
    (h : Reads (behind data c rest false) ts u) :
    ∃ x left, rest = x ++ left ∧ u = behind data (c ++ x) left false := by
  induction ts generalizing c rest with
  | nil =>
    cases h
    exact ⟨[], rest, rfl, by rw [List.append_nil]⟩
  | cons t ts ih =>
    cases h with
    | cons h hs =>
      obtain ⟨outcome, x, left, rfl, hread, -⟩ := read_behind data c rest false
      rw [hread] at h
      cases h
      obtain ⟨y, left, rfl, rfl⟩ := ih hs
      exact ⟨x ++ y, left, (List.append_assoc x y left).symm, by rw [List.append_assoc]⟩

theorem Reads.tokenText {σ : Type} [Source σ] {t u : TokenStream σ} (h : Reads t ts u) :
    ∀ t ∈ ts, TokenText t.content (utf8 t.lexeme) := by
  induction h with
  | nil => exact List.forall_mem_nil _
  | cons h _ ih => exact List.forall_mem_cons.mpr ⟨tokenText_of_read h, ih⟩

/-- Texts of tokens are read as these tokens, whatever blanks stand around them. -/
theorem exists_reads_joined (hts : ∀ t ∈ ts, TokenText t.content (utf8 t.lexeme))
    (hne : ∀ t ∈ ts, t.content ≠ .endOfInput) (hs : Spaced w ps)
    (hps : ps.map Prod.fst = ts.map Token.lexeme) (data : Bytes) (p : Position) :
    ∃ us q v, Reads (ofRest data p (joined w ps)) us (ofRest data q v) ∧ Blanks v ∧
      us.map Token.body = ts.map Token.body := by
  induction ts generalizing w ps p with
  | nil =>
    obtain rfl := List.map_eq_nil_iff.mp hps
    exact ⟨[], p, joined w [], .nil _, by simpa [joined] using hs.before, rfl⟩
  | cons t ts ih =>
    obtain ⟨⟨s, g⟩, ps, rfl, rfl, htail⟩ := List.map_eq_cons_iff.mp hps
    obtain ⟨htext, hts⟩ := List.forall_mem_cons.mp hts
    obtain ⟨hend, hne⟩ := List.forall_mem_cons.mp hne
    obtain ⟨u, hc, hu⟩ := Token.exists_stands htext hs.before p
    have hread : (ofRest data p (w ++ utf8 t.lexeme ++ joined g ps)).read = _ :=
      read_of_stands hu (Ends.of_delimited (hc ▸ hend) hs.delimited)
    obtain ⟨us, q, v, hus, hv, hbody⟩ := ih hts hne hs.tail htail (p.after (w ++ utf8 t.lexeme))
    have hsame : u.body = t.body := Prod.ext hc (utf8_injective hu.lexeme)
    rw [joined_cons]
    exact ⟨u :: us, q, v, .cons hread hus, hv, by rw [List.map_cons, List.map_cons, hsame, hbody]⟩

end TokenStream

theorem content_eq_of_body {u : Token} (h : u.body = t.body) : u.content = t.content :=
  congrArg Prod.fst h

theorem tokens_of_reads {q : Position}
    (h : Reads (ofRest data .start data) ts (ofRest data q rest))
    (hts : ∀ t ∈ ts, t.content ≠ .endOfInput) (hrest : Blanks rest) : Tokens data ts := by
  obtain ⟨t, hc, ht⟩ := Token.exists_stands .endOfInput hrest q
  have hread : (ofRest data q (rest ++ [] ++ [])).read = _ := read_of_stands ht (hc ▸ rfl)
  rw [List.append_nil, List.append_nil] at hread
  exact ⟨hts, _, _, t, h, hread, hc⟩

theorem tokens_joined (hts : ∀ t ∈ ts, TokenText t.content (utf8 t.lexeme))
    (hne : ∀ t ∈ ts, t.content ≠ .endOfInput) (hs : Spaced w ps)
    (hps : ps.map Prod.fst = ts.map Token.lexeme) :
    ∃ us, Tokens (joined w ps) us ∧ us.map Token.body = ts.map Token.body := by
  obtain ⟨us, q, v, hus, hv, hbody⟩ := exists_reads_joined hts hne hs hps (joined w ps) .start
  refine ⟨us, tokens_of_reads hus (fun u hu hend => ?_) hv, hbody⟩
  have hmem : u.body ∈ ts.map Token.body := hbody ▸ List.mem_map_of_mem hu
  obtain ⟨t, ht, hsame⟩ := List.mem_map.mp hmem
  exact hne t ht ((content_eq_of_body hsame).trans hend)

theorem tokens_lexeme (ht : TokenText t.content (utf8 t.lexeme)) (hne : t.content ≠ .endOfInput) :
    ∃ u, Tokens (utf8 t.lexeme) [u] ∧ u.body = t.body := by
  have hs : Spaced [] [(t.lexeme, [])] := ⟨.nil, List.forall_mem_singleton.mpr .nil, nofun⟩
  obtain ⟨us, hus, hbody⟩ := tokens_joined (List.forall_mem_singleton.mpr ht)
    (List.forall_mem_singleton.mpr hne) hs rfl
  obtain ⟨u, rfl, hsame⟩ := List.map_eq_singleton_iff.mp hbody
  have hbytes : joined [] [(t.lexeme, [])] = utf8 t.lexeme := by simp [joined]
  exact ⟨u, hbytes ▸ hus, hsame⟩

theorem Tokens.tokenText (h : Tokens data ts) :
    ∀ t ∈ ts, TokenText t.content (utf8 t.lexeme) := by
  obtain ⟨-, u, v, e, hr, -⟩ := h
  exact hr.tokenText

theorem Tokens.exists_reads_atEnd (h : Tokens data ts) :
    ∃ u, Reads (ofRest data .start data) (ts ++ [Token.atEnd data]) u := by
  obtain ⟨-, u, v, e, hr, hread, hc⟩ := h
  obtain ⟨x, left, hdata, rfl⟩ := @Reads.exists_behind data data ts [] u hr
  obtain ⟨outcome, y, rest, rfl, hnext, htakes⟩ := read_behind data ([] ++ x) left false
  rw [hread] at hnext
  cases hnext
  obtain ⟨w, z, rfl, hs, hend⟩ := htakes e rfl
  obtain rfl := hend hc
  have hz := hs.text
  rw [hc] at hz
  cases hz
  have hspan := hs.span
  simp only [Position.after_behind, List.append_nil, List.nil_append] at hspan hdata
  rw [← hdata] at hspan
  have hlexeme : e.lexeme = "" := utf8_injective hs.lexeme
  have he : e = Token.atEnd data := by
    obtain ⟨content, lexeme, span⟩ := e
    cases hc
    cases hlexeme
    cases hspan
    rfl
  exact ⟨_, hr.append (.cons (he ▸ hread) (.nil _))⟩

end ExactJson
