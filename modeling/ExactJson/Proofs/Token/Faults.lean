import ExactJson.Proofs.Token.Begun
import ExactJson.Proofs.Token.Examined

/-! Faults are where the bytes stop being the beginning of a document. Those before the place of a fault
can go on with a right token, and nothing behind the bytes that have been looked at makes up for it. -/
namespace ExactJson
open Grammar Text TokenStream

variable {data c rest more : Bytes} {ts : List Token} {p q : Position} {e : LexicalError}

namespace TokenStream

theorem Reads.isUtf8_rest {u : TokenStream Slice} (h : Reads (TokenStream.ofRest data p rest) ts u)
    (hu : IsUtf8 rest) : IsUtf8 u.source.rest := by
  induction ts generalizing p rest with
  | nil =>
    cases h
    exact hu
  | cons t ts ih =>
    cases h with
    | cons h hs =>
      obtain ⟨w, x, left, rfl, ht, rfl, -⟩ := stands_of_read h
      exact ih hs ((ht.blanks.isUtf8.append ht.text.exists_utf8).of_append hu)

theorem begunAt_of_read {u : TokenStream Slice}
    (h : (ofRest data p rest).read = (.error (.lexical e), u)) (hu : IsUtf8 rest)
    (he : e.fault ≠ .unterminatedString) : Lexer.BegunAt p rest e.position := by
  rw [read, feed_ofRest] at h
  obtain ⟨fault, hrun, heq⟩ := mapError_eq_error.mp (congrArg Prod.fst h)
  cases heq
  have hstart : Lexer.Reached p .between [] := .between (List.forall_mem_nil _)
  exact hstart.fault_run trivial hu (Prod.ext hrun rfl) he

/-- Tokens are read again before a mark, blanks or the end, whatever stood there. -/
theorem reads_before
    (h : Reads (behind (c ++ rest) [] (c ++ rest) false) ts (behind (c ++ rest) c rest false))
    (hts : ∀ t ∈ ts, t.content ≠ .endOfInput) (hmore : Delimited more) :
    Reads (behind (c ++ more) [] (c ++ more) false) ts (behind (c ++ more) c more false) := by
  obtain rfl | ⟨us, t, rfl⟩ := ts.eq_nil_or_concat'
  · have hrest : c ++ rest = rest := congrArg (fun u => u.source.rest) h.eq_of_nil
    obtain rfl : c = [] := List.self_eq_append_left.mp hrest.symm
    exact .nil _
  · -- The last token is not empty, so those before it stand before the same byte as they did.
    obtain ⟨u, hus, hlast⟩ := h.of_append
    obtain ⟨x, left, hx, rfl⟩ := hus.exists_behind
    rw [List.nil_append] at hus hlast
    cases hlast with
    | cons hread hnil =>
      obtain ⟨w, z, left, rfl, ht, rfl, -⟩ := stands_of_read hread
      obtain rfl : left = rest := congrArg (fun u => u.source.rest) hnil.eq_of_nil
      have hc : c = x ++ (w ++ z) := by
        rw [← List.append_assoc] at hx
        exact List.append_cancel_right hx
      subst hc
      have hend : t.content ≠ .endOfInput := hts t (by simp)
      have hz : z ≠ [] := List.length_pos_iff.mp (length_pos_of_tokenText ht.text hend)
      have hne : w ++ z ≠ [] := List.append_ne_nil_of_right_ne_nil w hz
      have hhead : (w ++ z ++ more).head? = (w ++ z ++ left).head? := by
        rw [List.head?_append_of_ne_nil _ hne, List.head?_append_of_ne_nil _ hne]
      rw [List.append_assoc] at hus
      have hr := reads_again hus hhead
      have hlast : (ofRest (x ++ (w ++ z ++ more)) (.behind x) (w ++ z ++ more)).read = _ :=
        read_of_stands ht (.of_delimited hend hmore)
      rw [Position.after_behind] at hlast
      rw [List.append_assoc]
      exact hr.append (.cons hlast (.nil _))

end TokenStream

theorem Grammar.Begun.exists_tokens {x y : Bytes} (hx : Begun x)
    (h : Reads (behind (c ++ (x ++ y)) [] (c ++ (x ++ y)) false) ts
      (behind (c ++ (x ++ y)) c (x ++ y) false))
    (hts : ∀ t ∈ ts, t.content ≠ .endOfInput) :
    ∃ s more, Tokens (c ++ x ++ s) (ts ++ more) := by
  cases hx with
  | blanks hw =>
    refine ⟨[], [], ?_⟩
    have hr := reads_before h hts (.blanks hw .nil)
    rw [List.append_nil] at hr ⊢
    rw [List.append_nil]
    exact tokens_of_reads hr hts hw
  | @token w x z b k hw hk htext =>
    have hhead : (w ++ (b :: x ++ z)).head? = ((w ++ b :: x) ++ y).head? := by
      cases w <;> rfl
    have hr := reads_again h hhead
    obtain ⟨t, hc, ht⟩ := Token.exists_stands htext hw (.behind c)
    have hread : (ofRest (c ++ (w ++ (b :: x ++ z))) (.behind c) (w ++ (b :: x ++ z) ++ [])).read =
        _ := read_of_stands ht (Ends.of_delimited (hc ▸ hk) .nil)
    rw [List.append_nil] at hread
    have hend : ∀ t' ∈ ts ++ [t], t'.content ≠ .endOfInput :=
      List.forall_mem_append.mpr ⟨hts, List.forall_mem_singleton.mpr (hc ▸ hk)⟩
    have hall := tokens_of_reads (hr.append (.cons hread (.nil _))) hend (List.forall_mem_nil _)
    exact ⟨z, [t], by simpa using hall⟩

/-- A fault is behind bytes that can go on, with the tokens that have been read and perhaps others, and
is found in all documents that begin with the bytes that have been looked at. -/
theorem faults_located {σ : Type} [Source σ] {source : σ} {text : String}
    (hs : Source.Alike source (Slice.ofBytes (utf8 text))) (h : Faults source ts e)
    (he : e.fault ≠ .unterminatedString) :
    (∃ s more, Tokens ((utf8 text).take e.position.offset ++ s) (ts ++ more)) ∧
      ∃ w : Watched, Watches (utf8 text) ts e w ∧ (∃ rest, utf8 text = w.examined ++ rest) ∧
        (¬ w.SeenEnd → ∀ (more : Bytes) {τ : Type} [Source τ] (other : τ),
          Source.Alike other (Slice.ofBytes (w.examined ++ more)) → Faults other ts e) := by
  have hslice := h.simulated Source.simulation_alike hs
  obtain ⟨w, hw⟩ := hslice.exists_watches
  obtain ⟨hbegins, hagain⟩ := hw.again
  obtain ⟨hts, u, v, hr, hread⟩ := hslice
  refine ⟨?_, w, hw, hbegins, fun hend more τ _ other ho => ?_⟩
  · have hu : IsUtf8 u.source.rest := @Reads.isUtf8_rest _ _ _ .start u hr ⟨text, rfl⟩
    obtain ⟨c, rest, hdata, rfl⟩ := @Reads.exists_behind _ _ _ [] u hr
    rw [List.nil_append] at hr hread
    obtain ⟨x, y, rfl, hplace, hx⟩ := begunAt_of_read hread hu he
    have hcut : (utf8 text).take e.position.offset = c ++ x := by
      rw [hdata, hplace, Position.after_behind, ← List.append_assoc, take_behind]
    rw [hcut]
    rw [hdata] at hr
    exact hx.exists_tokens hr hts
  · obtain ⟨s, hs⟩ := hagain hend more
    exact (hs.faults hts).simulated Source.simulation_alike ho.symm

/-- Where an x stands behind half of a pair, the other half could. -/
theorem faults_located_half :
    Faults (Slice.ofBytes (utf8 "[\"\\ud800x")) [⟨.openBracket, "[", ⟨⟨1, 1, 0⟩, ⟨1, 2, 1⟩⟩⟩]
        ⟨.loneSurrogate, none, ⟨1, 9, 8⟩⟩ ∧
      Source.Alike (Slice.ofBytes (utf8 "[\"\\ud800x")) (Slice.ofBytes (utf8 "[\"\\ud800x")) ∧
      ∃ s more, Tokens (utf8 "[\"\\ud800" ++ s)
        ([⟨.openBracket, "[", ⟨⟨1, 1, 0⟩, ⟨1, 2, 1⟩⟩⟩] ++ more) := by
  have hstands : Token.Stands ⟨.openBracket, "[", ⟨⟨1, 1, 0⟩, ⟨1, 2, 1⟩⟩⟩ .start []
      [Ascii.openBracket] := ⟨List.forall_mem_nil _, .openBracket, rfl, rfl⟩
  have hbracket : (ofRest (utf8 "[\"\\ud800x") .start
      ([] ++ [Ascii.openBracket] ++ utf8 "\"\\ud800x")).read = _ := read_of_stands hstands trivial
  have hstring : (ofRest (utf8 "[\"\\ud800x") ⟨1, 2, 1⟩ (utf8 "\"\\ud800x")).read =
      (.error (.lexical ⟨.loneSurrogate, none, ⟨1, 9, 8⟩⟩),
        ofRest (utf8 "[\"\\ud800x") ⟨1, 10, 9⟩ []) := by
    rw [TokenStream.read, feed_ofRest]
    rfl
  have hfaults : Faults (Slice.ofBytes (utf8 "[\"\\ud800x")) _ _ :=
    ⟨List.forall_mem_singleton.mpr (fun h => by cases h), _, _, .cons hbracket (.nil _), hstring⟩
  have halike := Source.Alike.refl (Slice.ofBytes (utf8 "[\"\\ud800x"))
  exact ⟨hfaults, halike, (faults_located halike hfaults (by decide)).1⟩

end ExactJson
