import ExactJson.Layout.Basic
import ExactJson.Proofs.Document.Tokens
import ExactJson.Proofs.Text.Quoted
import ExactJson.Proofs.Value.Numbers

/-! In every layout the text of a value is one of the grammar, and its tree is the value with the
numbers that are read from their own texts. -/
namespace ExactJson
open Grammar Text

variable {policy : FractionPolicy} {v : Value} {vs : List Value} {m : String × Value}
variable {ms : List (String × Value)}

namespace Piece

@[simp] theorem utf8_blanks (n : Nat) :
    utf8 (blanks n).toString = List.replicate n Ascii.space := by
  have hspace : String.utf8EncodeChar ' ' = [Ascii.space] := rfl
  rw [toString, utf8_ofList, List.flatMap_replicate, hspace, List.flatten_replicate_singleton]

def bytes (ps : List Piece) : Bytes := ps.flatMap fun p => utf8 p.toString

@[simp] theorem bytes_nil : bytes [] = [] :=
  rfl

@[simp] theorem bytes_cons (p : Piece) (ps : List Piece) :
    bytes (p :: ps) = utf8 p.toString ++ bytes ps :=
  List.flatMap_cons

@[simp] theorem bytes_append (ps qs : List Piece) : bytes (ps ++ qs) = bytes ps ++ bytes qs :=
  List.flatMap_append

theorem stringText_quoted (s : String) : StringText (bytes (quoted s)) s := by
  have h := Escape.stringText_quoted s
  rwa [bytes, quoted, List.flatMap_map]

end Piece

namespace Layout

@[simp] theorem bytes_lineBreak (width n : Nat) : Piece.bytes ((indented width).lineBreak n) =
    Ascii.lineFeed :: List.replicate (width * n) Ascii.space := by
  have hfeed : utf8 (Piece.text "\n").toString = [Ascii.lineFeed] := rfl
  simp [lineBreak, hfeed]

theorem blanks_spaces (n : Nat) : Blanks (List.replicate n Ascii.space) := by
  intro b hb
  rw [List.eq_of_mem_replicate hb]
  rfl

theorem blanks_lineBreak (l : Layout) (level : Nat) : Blanks (Piece.bytes (l.lineBreak level)) := by
  cases l with
  | compact => exact .nil
  | indented width =>
    rw [bytes_lineBreak]
    exact List.forall_mem_cons.mpr ⟨rfl, blanks_spaces _⟩

theorem bytes_colon (l : Layout) : ∃ w, Blanks w ∧ utf8 l.colon.toString = Ascii.colon :: w := by
  cases l with
  | compact => exact ⟨[], .nil, rfl⟩
  | indented width => exact ⟨_, blanks_spaces 1, rfl⟩

end Layout

namespace Value

theorem utf8_render (l : Layout) (v : Value) : utf8 (v.render l) = Piece.bytes (v.pieces l) := by
  rw [render, utf8_join, List.flatMap_map]
  rfl

def reread (policy : FractionPolicy) (v : Value) : Value := v.mapNumbers (Number.reread policy)

def Writes (policy : FractionPolicy) (v : Value) : Prop := ∀ l level k, ∃ x,
  ValueText policy x (v.reread policy) ∧ Piece.bytes (v.emit l level k) = x ++ Piece.bytes k

theorem valueText_number {n : Number} (h : n.Rereads) (policy : FractionPolicy) :
    ValueText policy (utf8 n.text) (.number (n.reread policy)) := by
  obtain ⟨form, ht, hr⟩ := h
  have hv := @ValueText.number policy form _ ht
  rwa [utf8_injective ht.utf8_ofAscii, hr policy] at hv

theorem itemsText_emit (hv : Writes policy v) (hvs : ∀ u ∈ vs, Writes policy u) (l : Layout)
    (level : Nat) (k : List Piece) : ∃ y,
      (∀ w, Blanks w → ItemsText policy (y ++ w) ((v :: vs).map (Value.reread policy))) ∧
      Piece.bytes (l.lineBreak level ++ v.emit l level (emitItems l level vs k)) =
        y ++ Piece.bytes k := by
  obtain ⟨b, hb, hbreak⟩ : ∃ b, Blanks b ∧ Piece.bytes (l.lineBreak level) = b :=
    ⟨_, l.blanks_lineBreak level, rfl⟩
  induction vs generalizing v with
  | nil =>
    obtain ⟨x, hx, hbytes⟩ := hv l level k
    refine ⟨b ++ x, fun w hw => .one (.mk hb hx hw), ?_⟩
    rw [emitItems, Piece.bytes_append, hbytes, hbreak, List.append_assoc]
  | cons u us ih =>
    obtain ⟨y, hy, hrest⟩ := ih (hvs u List.mem_cons_self)
      (fun t ht => hvs t (List.mem_cons_of_mem u ht))
    obtain ⟨x, hx, hbytes⟩ := hv l level (emitItems l level (u :: us) k)
    refine ⟨b ++ x ++ [] ++ Ascii.comma :: y, fun w hw => ?_, ?_⟩
    · rw [List.append_assoc, List.cons_append]
      exact .cons (.mk hb hx .nil) (hy w hw)
    · have hcomma : utf8 (Piece.text ",").toString = [Ascii.comma] := rfl
      rw [Piece.bytes_append, hbytes, emitItems]
      simp [hrest, hbreak, hcomma]

theorem memberText_emit (hm : Writes policy m.2) (l : Layout) (level : Nat) (k : List Piece) :
    ∃ y, (∀ w, Blanks w → MemberText policy (y ++ w) (m.1, m.2.reread policy)) ∧
      Piece.bytes (l.lineBreak level ++ (Piece.quoted m.1 ++ l.colon :: m.2.emit l level k)) =
        y ++ Piece.bytes k := by
  obtain ⟨x, hx, hbytes⟩ := hm l level k
  obtain ⟨c, hc, hcolon⟩ := l.bytes_colon
  refine ⟨Piece.bytes (l.lineBreak level) ++ Piece.bytes (Piece.quoted m.1) ++ [] ++
    Ascii.colon :: (c ++ x), fun w hw => ?_, ?_⟩
  · have hmember := MemberText.mk (l.blanks_lineBreak level) (Piece.stringText_quoted m.1) .nil
      (.mk hc hx hw)
    simpa using hmember
  · simp [hbytes, hcolon]

theorem membersText_emit (hm : Writes policy m.2) (hms : ∀ u ∈ ms, Writes policy u.2) (l : Layout)
    (level : Nat) (k : List Piece) : ∃ y,
      (∀ w, Blanks w →
        MembersText policy (y ++ w) ((m :: ms).map fun u => (u.1, u.2.reread policy))) ∧
      Piece.bytes (l.lineBreak level ++ (Piece.quoted m.1 ++ l.colon ::
        m.2.emit l level (emitMembers l level ms k))) = y ++ Piece.bytes k := by
  induction ms generalizing m with
  | nil =>
    obtain ⟨y, hy, hbytes⟩ := memberText_emit hm l level k
    exact ⟨y, fun w hw => .one (hy w hw), hbytes⟩
  | cons u us ih =>
    obtain ⟨z, hz, hrest⟩ := ih (hms u List.mem_cons_self)
      (fun t ht => hms t (List.mem_cons_of_mem u ht))
    obtain ⟨y, hy, hbytes⟩ := memberText_emit hm l level (emitMembers l level (u :: us) k)
    refine ⟨y ++ [] ++ Ascii.comma :: z, fun w hw => ?_, ?_⟩
    · rw [List.append_assoc, List.cons_append]
      exact .cons (hy [] .nil) (hz w hw)
    · have hcomma : utf8 (Piece.text ",").toString = [Ascii.comma] := rfl
      rw [hbytes, emitMembers]
      simp [hrest, hcomma]

theorem writes (h : ∀ n ∈ v.numbers, n.Rereads) : Writes policy v := by
  induction v using Value.induction with
  | null => exact fun l level k => ⟨_, .null, Piece.bytes_cons _ k⟩
  | boolean b =>
    cases b with
    | true => exact fun l level k => ⟨_, .trueWord, Piece.bytes_cons _ k⟩
    | false => exact fun l level k => ⟨_, .falseWord, Piece.bytes_cons _ k⟩
  | number n =>
    exact fun l level k => ⟨_, valueText_number (h n List.mem_cons_self) policy,
      Piece.bytes_cons _ k⟩
  | string s =>
    exact fun l level k => ⟨_, .string (Piece.stringText_quoted s), Piece.bytes_append _ k⟩
  | array vs ih =>
    have hvs : ∀ v ∈ vs, Writes policy v := fun v hv =>
      ih v hv fun n hn => h n (mem_numbers_array.mpr ⟨v, hv, hn⟩)
    intro l level k
    rw [reread, mapNumbers_array]
    cases vs with
    | nil => exact ⟨_, .emptyArray .nil, Piece.bytes_cons _ k⟩
    | cons v vs =>
      obtain ⟨y, hy, hbytes⟩ := itemsText_emit (hvs v List.mem_cons_self)
        (fun u hu => hvs u (List.mem_cons_of_mem v hu)) l (level + 1)
        (l.lineBreak level ++ .text "]" :: k)
      refine ⟨_, .array (hy _ (l.blanks_lineBreak level)), ?_⟩
      have hopen : utf8 (Piece.text "[").toString = [Ascii.openBracket] := rfl
      have hclose : utf8 (Piece.text "]").toString = [Ascii.closeBracket] := rfl
      simp [emit, hbytes, hopen, hclose]
  | object ms ih =>
    have hms : ∀ m ∈ ms, Writes policy m.2 := fun m hm =>
      ih m hm fun n hn => h n (mem_numbers_object.mpr ⟨m, hm, hn⟩)
    intro l level k
    rw [reread, mapNumbers_object]
    cases ms with
    | nil => exact ⟨_, .emptyObject .nil, Piece.bytes_cons _ k⟩
    | cons m ms =>
      obtain ⟨y, hy, hbytes⟩ := membersText_emit (hms m List.mem_cons_self)
        (fun u hu => hms u (List.mem_cons_of_mem m hu)) l (level + 1)
        (l.lineBreak level ++ .text "\x7d" :: k)
      refine ⟨_, .object (hy _ (l.blanks_lineBreak level)), ?_⟩
      have hopen : utf8 (Piece.text "\x7b").toString = [Ascii.openBrace] := rfl
      have hclose : utf8 (Piece.text "\x7d").toString = [Ascii.closeBrace] := rfl
      simp [emit, hbytes, hopen, hclose]

/-- The text of a value in any layout denotes the value, with its numbers read from their texts. -/
theorem itemText_render (h : ∀ n ∈ v.numbers, n.Rereads) (l : Layout) (policy : FractionPolicy) :
    ItemText policy (utf8 (v.render l)) (v.reread policy) := by
  obtain ⟨x, hx, hbytes⟩ := writes h l 0 []
  rw [utf8_render, pieces, hbytes]
  exact .mk .nil hx .nil

theorem utf8_render_ne_nil (hv : v.Built) (l : Layout) : utf8 (v.render l) ≠ [] := by
  obtain ⟨x, hx, hbytes⟩ := @writes .exact v (fun n hn => (hv.numbers n hn).rereads) l 0 []
  rw [utf8_render, pieces, hbytes]
  exact List.append_ne_nil_of_left_ne_nil hx.ne_nil _

end Value
end ExactJson
