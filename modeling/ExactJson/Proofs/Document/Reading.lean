import ExactJson.Proofs.Document.Reached
import ExactJson.Proofs.Document.Tokens
import ExactJson.Proofs.Document.Trace

/-! Reading accepts the documents of the grammar and no others, and gives their values. -/
namespace ExactJson
open Grammar TokenStream DocumentReader

def Tokens (data : Bytes) (ts : List Token) : Prop := (∀ t ∈ ts, t.content ≠ .endOfInput) ∧
  ∃ u v token, Reads (TokenStream.ofSource (Slice.ofBytes data)) ts u ∧ u.read = (.ok token, v) ∧
    token.content = .endOfInput

variable {data : Bytes} {options : ReadOptions} {tree v : Value}

theorem readBytes_eq_answer (data : Bytes) (options : ReadOptions) :
    readBytes data options = answer options (.value []) (ofRest data .start data) :=
  readSource_eq_answer (Slice.ofBytes data) options

theorem tokens_of_itemText {policy : FractionPolicy} (h : ItemText policy data tree) :
    ∃ ts, Tokens data ts ∧ ts.map (Token.symbol? policy) = tree.symbols.map some := by
  obtain ⟨w, hw, hy⟩ := h.yields .nil
  obtain ⟨ts, q, hts, has⟩ := hy data .start
  rw [List.append_nil, List.append_nil] at hts
  obtain ⟨t, hc, ht⟩ := Token.exists_stands .endOfInput hw q
  have hend : Ends t.content [] := by
    rw [hc]
    rfl
  have hread : (ofRest data q (w ++ [] ++ [])).read = _ := read_of_stands ht hend
  rw [List.append_nil, List.append_nil] at hread
  exact ⟨ts, ⟨content_ne_of_symbols has, _, _, t, hts, hread, hc⟩, has⟩

theorem readBytes_of_itemText (h : ItemText options.fractions data tree)
    (hd : tree.depth ≤ options.maxDepth) : readBytes data options = .ok tree.settled := by
  obtain ⟨ts, ⟨-, u, v, t, hts, hread, hc⟩, has⟩ := tokens_of_itemText h
  have hrun := DocumentState.run_symbols tree (.value []) (show tree.depth + 0 ≤ _ from hd)
  have hf := Follows.of_run hts has hrun
  rw [readBytes_eq_answer]
  refine hf.answer.trans (answer_of_accept hread ?_)
  obtain ⟨c, lexeme, span⟩ := t
  cases hc
  rfl

theorem exists_of_readBytes (h : readBytes data options = .ok v) :
    ∃ tree ts, ItemText options.fractions data tree ∧ v = tree.settled ∧
      tree.depth ≤ options.maxDepth ∧ Tokens data ts ∧
      ts.map (Token.symbol? options.fractions) = tree.symbols.map some := by
  obtain ⟨ts, s, u, hf, hend⟩ := exists_follows options (.value []) (ofRest data .start data)
  rw [readBytes_eq_answer, hf.answer] at h
  obtain ⟨e, u', hread⟩ | ⟨t, u', hread, hnot⟩ := hend
  · rw [answer_of_error hread] at h
    cases h
  · cases hm : s.move options t with
    | take n => exact absurd hm (hnot n)
    | refuse e =>
      rw [answer_of_refuse hread hm] at h
      cases h
    | accept w =>
      rw [answer_of_accept hread hm] at h
      cases h
      obtain ⟨rfl, hc⟩ := DocumentState.accept_of_move hm
      obtain ⟨as, has, hr⟩ := hf.run
      obtain ⟨tree, rfl, hv, hd⟩ := DocumentState.exists_tree hr
      obtain ⟨q, rest, rfl, -, -⟩ := hf.reads.ofRest
      have hs := scans_of_reads hf.reads has
      obtain ⟨w, x, mid, hdata, hw, hx, hnil⟩ := derives _ tree data rest [] (by simpa using hs)
      cases hnil
      obtain ⟨w', y, left, hrest, ht, -, hleft⟩ := stands_of_read hread
      have hy := ht.text
      rw [hc] at hy
      cases hy
      rw [hleft hc, List.append_nil, List.append_nil] at hrest
      subst hrest
      exact ⟨tree, ts, hdata ▸ .mk hw hx ht.blanks, hv, hd,
        ⟨content_ne_of_symbols has, _, _, t, hf.reads, hread, hc⟩, has⟩

theorem Tokens.unique {ts us : List Token} (h : Tokens data ts) (hu : Tokens data us) : ts = us := by
  obtain ⟨hts, u, v, t, hr, hread, ht⟩ := h
  obtain ⟨hus, u', v', t', hr', hread', ht'⟩ := hu
  exact hr.unique hr' hts hus hread hread' ht ht'

theorem itemText_unique {policy : FractionPolicy} {other : Value} (h : ItemText policy data tree)
    (ho : ItemText policy data other) : tree = other := by
  obtain ⟨ts, hts, has⟩ := tokens_of_itemText h
  obtain ⟨us, hus, hcs⟩ := tokens_of_itemText ho
  obtain rfl := hts.unique hus
  rw [has] at hcs
  exact Value.symbols_injective (List.map_injective_iff.mpr (fun _ _ => Option.some.inj) hcs)

/-- Where the limit on nesting cannot be met, a document is read exactly if the grammar derives it,
and the value is that of the tree of the derivation. -/
theorem readBytes_eq_ok_iff (h : data.length ≤ options.maxDepth) :
    readBytes data options = .ok v ↔
      ∃ tree, ItemText options.fractions data tree ∧ v = tree.settled := by
  constructor
  · intro hv
    obtain ⟨tree, -, ht, hs, -⟩ := exists_of_readBytes hv
    exact ⟨tree, ht, hs⟩
  · rintro ⟨tree, ht, rfl⟩
    exact readBytes_of_itemText ht (Nat.le_trans ht.depth_le h)

/-- The second value of a name is kept, in the place of the first, also where an escape spells the
name. -/
theorem readBytes_repeated_name :
    ∃ data, data = Text.utf8
        "\x7b\"a\":1,\t\"\\u0062\" : [\"\\uD83d\\uDe00\",-10.5E+23]\r\n,\"\\u0061\":[ ]\x7d" ∧
      data.length ≤ ({} : ReadOptions).maxDepth ∧
      readBytes data {} = .ok (.object [("a", .array []),
        ("b", .array [.string "😀", .number (.bigDecimal "-10.5E+23")])]) := by
  have hd (n : Nat) (hn : n < 10) : HexDigit (UInt8.ofNat (0x30 + n)) n := by
    refine .decimal ?_ hn
    rw [UInt8.toNat_ofNat_of_lt' (show _ < 256 by omega)]
  have hname (c : Char) {x : Bytes} (h : Spelling x c) :
      StringText (Ascii.quote :: (x ++ [] ++ [Ascii.quote])) (String.ofList [c]) := by
    refine ⟨x ++ [], ?_, rfl⟩
    rw [String.toList_ofList]
    exact .cons h .nil
  have ha := hname 'a' (.raw (by decide) (by decide) (by decide))
  have hescaped := hname 'a' (.escape (.unit (.mk (hd 0 (by decide)) (hd 0 (by decide))
    (hd 6 (by decide)) (hd 1 (by decide)))))
  have hb := hname 'b' (.escape (.unit (.mk (hd 0 (by decide)) (hd 0 (by decide))
    (hd 6 (by decide)) (hd 2 (by decide)))))
  have hlead : Hex4 [0x44, 0x38, 0x33, 0x64] 0xD83D :=
    .mk (.upper (n := 3) rfl (by decide)) (hd 8 (by decide)) (hd 3 (by decide))
      (.lower (n := 3) rfl (by decide))
  have htrail : Hex4 [0x44, 0x65, 0x30, 0x30] 0xDE00 :=
    .mk (.upper (n := 3) rfl (by decide)) (.lower (n := 4) rfl (by decide)) (hd 0 (by decide))
      (hd 0 (by decide))
  have hface := hname '😀' (.escape (.pair hlead htrail (by decide) (by decide) (by decide)))
  have hone : NumberText .integer [0x31] :=
    .integer (s := []) (.inl rfl) (.digits rfl (by decide) (List.forall_mem_nil _))
  have hten : NumberText .integer [Ascii.minus, 0x31, 0x30] :=
    .integer (s := [Ascii.minus]) (.inr rfl) (.digits rfl (by decide) (List.forall_mem_singleton.mpr rfl))
  have hnumber : NumberText .exponent
      [Ascii.minus, 0x31, 0x30, Ascii.dot, 0x35, Ascii.upperE, Ascii.plus, 0x32, 0x33] :=
    .exponent (s := [Ascii.plus]) (.fraction hten (.singleton rfl)) (by decide) (.inr rfl)
      (.inr (.inl rfl)) ((DigitText.singleton rfl).append (List.forall_mem_singleton.mpr rfl))
  have hspace : Blanks [Ascii.space] := by simp [Blanks, Ascii.isBlank]
  have htab : Blanks [0x09] := by simp [Blanks, Ascii.isBlank]
  have hline : Blanks [0x0D, 0x0A] := by simp [Blanks, Ascii.isBlank]
  have hitems := @ItemsText.cons .exact _ _ _ _ (.mk .nil (.string hface) .nil)
    (.one (.mk .nil (.number hnumber) .nil))
  have hmembers := MembersText.cons (.mk .nil ha .nil (.mk .nil (.number hone) .nil))
    (.cons (.mk htab hb hspace (.mk hspace (.array hitems) hline))
      (.one (.mk .nil hescaped .nil (.mk .nil (.emptyArray hspace) .nil))))
  have hlen : (Text.utf8
      "\x7b\"a\":1,\t\"\\u0062\" : [\"\\uD83d\\uDe00\",-10.5E+23]\r\n,\"\\u0061\":[ ]\x7d").length ≤
        ({} : ReadOptions).maxDepth := by decide
  exact ⟨_, rfl, hlen, (readBytes_eq_ok_iff hlen).mpr
    ⟨_, .mk .nil (.object hmembers) .nil, rfl⟩⟩

end ExactJson
