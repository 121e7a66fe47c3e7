import ExactJson.Proofs.Document.Reading
import ExactJson.Proofs.Value.Equality
import ExactJson.Proofs.Value.History
import Mathlib.Data.List.Forall2

/-! Objects as maps that remember what has been done to them. Wherever an object comes from, its
members are written one after another, and all that is seen of it later is told by this and by the
calls. -/
namespace ExactJson.Value
open Grammar OrderedMap
variable {data : Bytes} {options : ReadOptions} {ms ns : Object}

theorem exists_members_of_readBytes (h : readBytes data options = .ok (object ms)) :
    ∃ members, ItemText options.fractions data (object members) ∧
      ms = ofList (members.map settledMember) := by
  obtain ⟨tree, -, htext, hms, -⟩ := exists_of_readBytes h
  cases tree with
  | object members =>
    rw [settled_object] at hms
    cases hms
    exact ⟨members, htext, rfl⟩
  | null | boolean | number | string | array => cases hms

theorem Obtained.eq_ofList (h : (Value.object ms).Obtained) : ms = ofList ms :=
  (ofList_of_nodup (built_object.mp h.built).1).symm

theorem beqMembers_iff_forall₂ (ms ns : Object) :
    beqMembers ms ns = true ↔ List.Forall₂ (fun m n => m.1 = n.1 ∧ (m.2 == n.2) = true) ms ns := by
  induction ms generalizing ns with
  | nil =>
    cases ns with
    | nil => exact ⟨fun _ => .nil, fun _ => rfl⟩
    | cons => simp [beqMembers, List.forall₂_nil_left_iff]
  | cons m ms ih =>
    cases ns with
    | nil => simp [beqMembers, List.forall₂_nil_right_iff]
    | cons n ns =>
      rw [beqMembers, Bool.and_eq_true, Bool.and_eq_true, ih, beq_iff_eq, List.forall₂_cons]
      rfl

/-- An object that begins with some members, none or those of a document, and is then used shows at
any time the keys that came and are still there, in the order in which they came, each with what was
last written for it since. All views of it agree on this, and two objects are equal when their
members are, one by one. -/
theorem objects_by_history :
    (∀ (members : List (String × Value)) (calls : List (Call String Value)),
      Describes (history members calls) (calls.foldl Call.run (ofList members)) ∧
      Consistent (calls.foldl Call.run (ofList members))) ∧
    (∀ (events : List (Event String Value)) (k : String) (i i' : Nat),
      Came events k i → Came events k i' → i = i') ∧
    (∀ (data : Bytes) (options : ReadOptions) (ms : Object),
      readBytes data options = .ok (object ms) → ∃ members, ItemText options.fractions data (object members) ∧
        ms = ofList (members.map settledMember)) ∧
    (∀ ms : Object, (object ms).Obtained → ms = ofList ms) ∧
    ∀ ms ns : Object, (object ms == object ns) = true ↔
      List.Forall₂ (fun m n => m.1 = n.1 ∧ (m.2 == n.2) = true) ms ns := by
  refine ⟨fun members calls => ?_, fun events k i i' h h' => h.unique h',
    fun data options ms h => exists_members_of_readBytes h, fun ms h => h.eq_ofList,
    beqMembers_iff_forall₂⟩
  have hd := describes_calls members calls
  exact ⟨hd, hd.consistent⟩

/-- A key that is removed and written again is last, and one that is only written over stays. -/
theorem objects_by_history_reinserted :
    let events := history [("a", null), ("b", null)]
      [.remove "a", .insert "b" (boolean true), .insert "a" (string "")]
    (object [("a", null), ("b", null)]).Obtained ∧ Came events "b" 1 ∧
      Describes events [("b", boolean true), ("a", string "")] ∧
      (∀ i, Came events "b" i → i = 1) ∧
      [("a", null), ("b", null)] = ofList [("a", null), ("b", null)] := by
  intro events
  have hobtained : (object [("a", null), ("b", null)]).Obtained :=
    .insert (.insert .object "a" .null) "b" .null
  have hcame : Came events "b" 1 := by
    refine ⟨[] ++ [.write "a" null], ⟨null, _, rfl, by simp [Call.events, Event.removes]⟩, rfl, ?_⟩
    intro hb
    obtain ⟨_, hw⟩ | ⟨⟨_, hs⟩, -⟩ := present_snoc.mp hb
    · simp at hw
    · exact stays_nil hs
  have hdescribes := (objects_by_history.1 [("a", null), ("b", null)]
    [.remove "a", .insert "b" (boolean true), .insert "a" (string "")]).1
  exact ⟨hobtained, hcame, hdescribes, fun i h => objects_by_history.2.1 events "b" i 1 h hcame,
    objects_by_history.2.2.2.1 _ hobtained⟩

end ExactJson.Value
