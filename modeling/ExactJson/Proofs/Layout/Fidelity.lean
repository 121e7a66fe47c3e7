import ExactJson.Proofs.Document.Values
import ExactJson.Proofs.Layout.RoundTrip
import ExactJson.Proofs.Layout.Spread

/-! The compact text of a value that is read from a document is made of the texts of its tokens, and
is read as the same value again. -/
namespace ExactJson
open Grammar Text

def Token.written (t : Token) : String :=
  match t.content with
  | .string s => String.join (Escape.quoted s)
  | _ => t.lexeme

variable {policy : FractionPolicy} {data : Bytes} {options : ReadOptions} {v : Value}

theorem written_of_stands {t : Token} {p : Position} {w x : Bytes} {a : Symbol}
    (h : t.Stands p w x) (ha : t.symbol? policy = some a) : t.written = a.text := by
  obtain ⟨c, lexeme, span⟩ := t
  obtain ⟨-, ht, hl, -⟩ := h
  cases ht with
  | string =>
    cases ha
    rfl
  | number h =>
    cases ha
    exact (Number.text_ofLiteral (hl ▸ h) policy).symm
  | endOfInput => cases ha
  | trueWord | falseWord | nullWord | openBrace | closeBrace | openBracket | closeBracket | colon
  | comma =>
    cases ha
    exact utf8_injective hl

theorem Value.compact_eq_join (v : Value) :
    v.compact = String.join (v.symbols.map Symbol.text) := by
  apply utf8_injective
  rw [compact, Layout.utf8_render_eq_spread, Layout.spread_compact, utf8_join, List.flatMap_map,
    List.flatMap_map]
  rfl

theorem readText_of_readBytes (h : readBytes data options = .ok v) (l : Layout) :
    readText (v.render l) options = .ok v := by
  have hbuilt := built_of_readBytes h
  have hsame : v.reread options.fractions = v := by
    apply Value.mapNumbers_eq_self
    intro n hn
    obtain ⟨form, t, ht, rfl⟩ := ofText_of_readBytes h n hn
    exact Number.reread_ofLiteral options.fractions options.fractions form t
  have hread := Value.readText_of_rereads hbuilt.names (fun n hn => (hbuilt.numbers n hn).rereads)
    (depth_of_readBytes h) l
  rwa [hsame] at hread

/-- A document that is read has one tree. Where no name repeats in it, the compact text of the value
is that of the document's tokens, with the strings quoted again. In every layout the value is read
from its text as it is, so that its compact text is written again. -/
theorem render_of_readBytes (h : readBytes data options = .ok v) :
    ∃ tree ts, (∀ t, ItemText options.fractions data t ↔ t = tree) ∧ Tokens data ts ∧
      (tree.DistinctNames → v.compact = String.join (ts.map Token.written)) ∧
      (∀ l, readText (v.render l) options = .ok v) ∧
      (readText v.compact options).map Value.compact = .ok v.compact := by
  have hread := readText_of_readBytes h
  obtain ⟨tree, ts, hitem, rfl, hd, htokens, has⟩ := exists_of_readBytes h
  refine ⟨tree, ts, fun t => ⟨fun ht => itemText_unique ht hitem, fun ht => ht ▸ hitem⟩, htokens,
    fun hn => ?_, hread, ?_⟩
  · obtain ⟨-, u, v, token, hr, -⟩ := htokens
    obtain ⟨q, rest, -, hstands, -⟩ := hr.ofRest
    have hwritten : ts.map Token.written = tree.symbols.map Symbol.text := by
      apply map_of_symbols has
      intro t ht a ha
      obtain ⟨p, w, x, hs⟩ := hstands t ht
      exact written_of_stands hs ha
    rw [Value.settled_of_distinctNames hn, Value.compact_eq_join, hwritten]
  · rw [Value.compact, hread]
    rfl

theorem render_of_readBytes_fraction :
    readBytes (utf8 " [1.50\n]") {} = .ok (.array [.number (.bigDecimal "1.50")]) ∧
      readText ((Value.array [.number (.bigDecimal "1.50")]).render (.indented 4)) {} =
        .ok (.array [.number (.bigDecimal "1.50")]) := by
  have hnumber : NumberText .fraction (utf8 "1.50") :=
    LiteralState.numberText_iff.mpr ⟨.fraction, rfl, rfl⟩
  have hspace : Blanks [Ascii.space] := by simp [Blanks, Ascii.isBlank]
  have hline : Blanks [Ascii.lineFeed] := by simp [Blanks, Ascii.isBlank]
  have hitem : ItemText .exact (utf8 " [1.50\n]") (.array [.number (.bigDecimal "1.50")]) :=
    .mk hspace (.array (.one (.mk .nil (.number hnumber) hline))) .nil
  have hdepth : (Value.array [.number (.bigDecimal "1.50")]).depth ≤
      ({} : ReadOptions).maxDepth := by decide
  have hread : readBytes (utf8 " [1.50\n]") {} = .ok (.array [.number (.bigDecimal "1.50")]) :=
    readBytes_of_itemText hitem hdepth
  obtain ⟨tree, ts, -, -, -, hrender, -⟩ := render_of_readBytes hread
  exact ⟨hread, hrender (.indented 4)⟩

end ExactJson
