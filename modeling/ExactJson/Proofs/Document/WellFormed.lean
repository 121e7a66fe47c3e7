import ExactJson.Proofs.Document.Machine
import ExactJson.Proofs.Document.Related
import ExactJson.Proofs.Token.Closing

/-! Documents that are well-formed UTF-8. They are never refused for their bytes, and other
documents only for the literal of a string. -/
namespace ExactJson
open Grammar Text TokenStream

section Literals
open Lexer
variable {c x rest : Bytes}

theorem isUtf8_literal (h : IsUtf8 (c ++ (literal x ++ rest))) : IsUtf8 (literal x) := by
  have hascii : Ascii.quote < 0x80 := by decide
  have hx : IsUtf8 (Ascii.quote :: x) := by
    refine @IsUtf8.between c _ (Ascii.quote :: rest) (by simpa [literal] using h) ?_ ?_
    all_goals
      rintro _ ⟨⟩
      exact isFirstByte_of_ascii hascii
  exact hx.append (isUtf8_of_ascii (List.forall_mem_singleton.mpr hascii))

end Literals

/-- The bytes that are left in the source stand at the end of well-formed ones. -/
def Source.WellFormed {σ : Type} [Source σ] (source : σ) : Prop :=
  ∃ c rest, IsUtf8 (c ++ rest) ∧ Source.Alike source (Slice.mk (c ++ rest) rest)

variable {σ : Type} [Source σ] {source : σ} {e : ReadError}

theorem Source.wellFormed_of_alike {data : Bytes} (h : Source.Alike source (Slice.ofBytes data))
    (hu : IsUtf8 data) : Source.WellFormed source := ⟨[], data, hu, h⟩

namespace TokenStream
variable {t : TokenStream σ}

theorem wellFormed_read (h : Source.WellFormed t.source) :
    Source.WellFormed t.read.2.source ∧ ∀ e, t.read.1 = .error e → ¬e.IsInvalidUtf8 := by
  obtain ⟨c, rest, hu, halike⟩ := h
  refine ⟨?_, fun e hread he => ?_⟩
  · obtain ⟨x, hx, -⟩ := Lexer.State.run_eq .between t.position rest
    have hleft := (read_alike halike).2.source
    generalize (Lexer.State.between.run t.position rest).2.2 = left at hx hleft
    subst hx
    rw [← List.append_assoc] at hu hleft
    exact ⟨c ++ x, left, hu, hleft⟩
  · obtain ⟨w, x, o, left, rfl, -, -, hn, -⟩ := (read_invalidUtf8_iff halike).mp ⟨hread, he⟩
    rw [← List.append_assoc] at hu
    exact hn (isUtf8_literal hu)

theorem wellFormed_request (h : Source.WellFormed t.source) (r : Request) :
    Source.WellFormed (t.request r).2.source ∧
      ∀ e, (t.request r).1 = some (.error e) → ¬e.IsInvalidUtf8 := by
  obtain ⟨hnext, herror⟩ := wellFormed_read h
  cases r with
  | read => exact ⟨hnext, fun e he => herror e (Option.some.inj he)⟩
  | next =>
    cases hf : t.finished with
    | false =>
      rw [request_next hf]
      exact ⟨hnext, fun e he => herror e (Option.some.inj he)⟩
    | true =>
      rw [request_next_of_finished hf]
      exact ⟨h, nofun⟩

theorem wellFormed_answers (h : Source.WellFormed t.source) (rs : List Request)
    (he : some (.error e) ∈ t.answers rs) : ¬e.IsInvalidUtf8 := by
  induction rs generalizing t with
  | nil => cases he
  | cons r rs ih =>
    obtain ⟨hnext, herror⟩ := wellFormed_request h r
    obtain heq | hmem := List.mem_cons.mp he
    · exact herror e heq.symm
    · exact ih hnext hmem

end TokenStream

namespace DocumentReader
variable {r : DocumentReader σ} {options : ReadOptions}

theorem wellFormed_ofSource (h : Source.WellFormed source)
    (hr : ofSource source options = .ok r) : Source.WellFormed r.tokens.source := by
  have hread := (wellFormed_read (t := TokenStream.ofSource source) h).1
  rwa [(read_of_ofSource hr).1] at hread

theorem read_of_ofSource_error (h : ofSource source options = .error e) :
    (TokenStream.ofSource source).read.1 = .error e := by
  rw [ofSource_eq] at h
  cases hread : (TokenStream.ofSource source).read.1 with
  | error e' =>
    rw [hread] at h
    cases h
    rfl
  | ok token =>
    rw [hread] at h
    cases h

theorem not_isInvalidUtf8_of_move {s : DocumentState} {token : Token}
    (h : s.move options token = .refuse e) : ¬e.IsInvalidUtf8 := by
  obtain ⟨expected, rfl⟩ | rfl := DocumentState.blames_of_move h <;> exact id

theorem wellFormed_goOn (s : DocumentState) (h : Source.WellFormed r.tokens.source) :
    Source.WellFormed (r.goOn s).2.tokens.source ∧
      ∀ e, (r.goOn s).1 = .error e → ¬e.IsInvalidUtf8 := by
  fun_induction goOn s r with
  | case1 s r e hm =>
    refine ⟨h, ?_⟩
    rintro _ ⟨⟩
    exact not_isInvalidUtf8_of_move hm
  | case2 s r v hm =>
    refine ⟨h, ?_⟩
    rintro _ ⟨⟩
  | case3 s r next hm e tokens hread =>
    obtain ⟨hnext, herror⟩ := wellFormed_read h
    rw [hread] at hnext herror
    refine ⟨hnext, ?_⟩
    rintro _ ⟨⟩
    exact herror e rfl
  | case4 s r next hm token tokens hread ih =>
    obtain ⟨hnext, -⟩ := wellFormed_read h
    rw [hread] at hnext
    exact ih hnext

theorem wellFormed_readings (h : Source.WellFormed r.tokens.source) (n : Nat)
    (he : .error e ∈ r.readings n) : ¬e.IsInvalidUtf8 := by
  induction n generalizing r with
  | zero => cases he
  | succ n ih =>
    obtain ⟨hnext, herror⟩ := wellFormed_goOn (.value []) h
    obtain heq | hmem := List.mem_cons.mp he
    · exact herror e heq.symm
    · exact ih hnext hmem

end DocumentReader

open DocumentReader

theorem wellFormed_readSource (h : Source.WellFormed source) (options : ReadOptions)
    (he : readSource source options = .error e) : ¬e.IsInvalidUtf8 := by
  rw [readSource] at he
  cases hr : DocumentReader.ofSource source options with
  | error e' =>
    rw [hr] at he
    cases he
    exact (wellFormed_read (t := .ofSource source) h).2 e (read_of_ofSource_error hr)
  | ok r =>
    rw [hr] at he
    exact (wellFormed_goOn (.value []) (wellFormed_ofSource h hr)).2 e he

open Lexer

/-- A string that could be closed holds the text of its parts, raw bytes and escapes, whatever these
make. Its text is well-formed just if its literal is, so that the check of the literal never fails
behind that of the text. It is read exactly if they are, and else refused at its first quote;
nothing else is refused so, and nothing in a well-formed document, however it is read. -/
theorem invalidUtf8_iff_literal :
    (∀ p x y, (∃ o, Closing p x o ∧ o.text.reverse = y) ↔
      ∃ ps : List Part, (∀ q ∈ ps, q.Legal) ∧ x = ps.flatMap Part.literal ∧
        y = ps.flatMap Part.text) ∧
    (∀ {p x o}, Closing p x o → (o.write Ascii.quote).literal.reverse = literal x ∧
      (IsUtf8 o.text.reverse ↔ IsUtf8 (literal x)) ∧
      ∀ text, text? o.text.reverse = some text →
        ∃ lexeme, text? (o.write Ascii.quote).literal.reverse = some lexeme) ∧
    (∀ {t : TokenStream σ} {w x o rest},
      Source.Alike t.source (Slice.ofBytes (w ++ (literal x ++ rest))) → Blanks w →
      Closing (t.position.after w) x o → ReadsClosed t w x o) ∧
    (∀ {t : TokenStream σ} {bs}, Source.Alike t.source (Slice.ofBytes bs) →
      ((∃ token s, t.read.1 = .ok token ∧ token.content = .string s) ↔
        ∃ w x o rest, bs = w ++ (literal x ++ rest) ∧ Blanks w ∧
          Closing (t.position.after w) x o ∧ IsUtf8 (literal x)) ∧
      ∀ e, t.read.1 = .error e ∧ e.IsInvalidUtf8 ↔
        ∃ w x o rest, bs = w ++ (literal x ++ rest) ∧ Blanks w ∧
          Closing (t.position.after w) x o ∧ ¬IsUtf8 (literal x) ∧
          e = .lexical ⟨.invalidUtf8, none, t.position.after w⟩) ∧
    (∀ {source : σ} {data}, Source.Alike source (Slice.ofBytes data) → IsUtf8 data →
      ∀ e, e.IsInvalidUtf8 →
        (∀ rs, some (.error e) ∉ (TokenStream.ofSource source).answers rs) ∧
        ∀ options, readSource source options ≠ .error e ∧
          ∀ r, DocumentReader.ofSource source options = .ok r → ∀ n, .error e ∉ r.readings n) ∧
    ∀ text options e, e.IsInvalidUtf8 → readText text options ≠ .error e := by
  refine ⟨fun p x y => closing_iff_parts, fun {p x o} h => ⟨h.literal_eq, h.isUtf8_iff, ?_⟩,
    readsClosed_of_closing, fun h => ⟨read_string_iff h, fun e => read_invalidUtf8_iff h⟩,
    fun {source data} h hu e he => ?_, fun text options e he hread => ?_⟩
  · intro text htext
    obtain ⟨lexeme, hlexeme⟩ := h.isUtf8_iff.mp ⟨text, text?_eq_some_iff.mp htext⟩
    exact ⟨lexeme, text?_eq_some_iff.mpr (hlexeme.trans h.literal_eq.symm)⟩
  · have hsource := Source.wellFormed_of_alike h hu
    refine ⟨fun rs hmem => wellFormed_answers hsource rs hmem he,
      fun options => ⟨fun hread => wellFormed_readSource hsource options hread he, ?_⟩⟩
    exact fun r hr n hmem => wellFormed_readings (wellFormed_ofSource hsource hr) n hmem he
  · have hsource := Source.wellFormed_of_alike (.refl (Slice.ofBytes (utf8 text))) ⟨text, rfl⟩
    exact wellFormed_readSource hsource options hread he

/-- A character of two bytes, and the same bytes with an escape between them, in strings behind a
blank. -/
theorem invalidUtf8_iff_literal_split :
    let whole : Bytes := [0xC3, 0xA9]
    let split : Bytes := 0xC3 :: (utf8 "\\u0041" ++ [0xA9])
    let stream (x : Bytes) :=
      TokenStream.ofSource (Slice.ofBytes ([Ascii.space] ++ (literal x ++ [])))
    IsUtf8 (literal whole) ∧ ¬IsUtf8 (literal split) ∧
      (∃ token s, (stream whole).read.1 = .ok token ∧ token.content = .string s) ∧
      (stream split).read.1 = .error (.lexical ⟨.invalidUtf8, none, ⟨1, 2, 1⟩⟩) ∧
      ∀ options, readBytes (literal whole) options ≠
        .error (.lexical ⟨.invalidUtf8, none, .start⟩) := by
  intro whole split stream
  have hblank : Blanks [Ascii.space] := List.forall_mem_singleton.mpr rfl
  have hwhole : IsUtf8 (literal whole) := ⟨"\"é\"", by decide⟩
  have hsplit : ¬IsUtf8 (literal split) := by
    rintro ⟨s, hs⟩
    have hnone : text? (literal split) = none := by decide
    cases hnone.symm.trans (text?_eq_some_iff.mpr hs)
  have hclosing : Closing ⟨1, 2, 1⟩ split _ := ⟨rfl, rfl⟩
  obtain ⟨-, -, hclosed, hread, hnever, -⟩ := @invalidUtf8_iff_literal Slice _
  have hrefused : ReadsClosed (stream split) [Ascii.space] split _ :=
    hclosed (.refl _) hblank hclosing
  refine ⟨hwhole, hsplit, ?_, hrefused.fault.mpr hsplit, fun options => ?_⟩
  · exact (hread (.refl _)).1.mpr ⟨[Ascii.space], whole, _, [], rfl, hblank, ⟨rfl, rfl⟩, hwhole⟩
  · exact ((hnever (.refl _) hwhole (.lexical ⟨.invalidUtf8, none, .start⟩) rfl).2 options).1

end ExactJson
