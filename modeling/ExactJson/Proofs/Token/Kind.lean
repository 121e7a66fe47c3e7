import ExactJson.Token.Kind

/-! Sets of token kinds have the members that are put into them. -/
namespace ExactJson

namespace TokenKind
variable {j k : TokenKind}

theorem all_index (k : TokenKind) : all[k.index]? = some k := by
  cases k <;> rfl

theorem index_lt (k : TokenKind) : k.index < 12 := by
  cases k <;> decide

theorem index_inj (h : j.index = k.index) : j = k := by
  have hj := j.all_index
  rw [h, k.all_index] at hj
  exact (Option.some.inj hj).symm

end TokenKind

namespace KindSet
variable {j k : TokenKind} {ks : List TokenKind}

@[simp] theorem contains_empty (k : TokenKind) : empty.contains k = false := BitVec.getLsbD_zero

@[simp] theorem contains_insert (s : KindSet) (j k : TokenKind) :
    (s.insert j).contains k = true ↔ k = j ∨ s.contains k = true := by
  simp only [contains, insert, BitVec.getLsbD_or, BitVec.getLsbD_twoPow, Bool.or_eq_true,
    Bool.and_eq_true, decide_eq_true_eq]
  constructor
  · rintro (h | ⟨-, h⟩)
    · exact .inr h
    · exact .inl (TokenKind.index_inj h).symm
  · rintro (rfl | h)
    · exact .inr ⟨k.index_lt, rfl⟩
    · exact .inl h

theorem contains_foldl (s : KindSet) :
    (ks.foldl insert s).contains k = true ↔ k ∈ ks ∨ s.contains k = true := by
  induction ks generalizing s with
  | nil => simp
  | cons j ks ih => rw [List.foldl_cons, ih, contains_insert, List.mem_cons, or_left_comm, or_assoc]

@[simp] theorem contains_ofList : (ofList ks).contains k = true ↔ k ∈ ks := by
  rw [ofList, contains_foldl, contains_empty]
  simp

end KindSet
end ExactJson
