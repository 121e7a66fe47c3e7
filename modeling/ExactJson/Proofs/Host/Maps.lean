import ExactJson.Host.Basic
import ExactJson.Proofs.Value.OrderedMap

/-! How maps list their entries. A map into which entries with different keys are written lists just
these, by the keys or as they came. -/
namespace ExactJson

namespace HostKey
variable {i j k : HostKey}

theorem before_irrefl (k : HostKey) : k.before k = false := by
  cases k with
  | text s => exact decide_eq_false (String.lt_irrefl s)
  | integer z => exact decide_eq_false (Int.lt_irrefl z)
  | boolean b => cases b <;> rfl
  | character c => exact decide_eq_false (Char.lt_irrefl c)

theorem before_trans (h : i.before j = true) (h' : j.before k = true) : i.before k = true := by
  cases i <;> cases j <;> cases k <;>
    simp only [before, decide_eq_true_eq, Bool.false_eq_true] at h h' ⊢
  case text.text.text => exact String.lt_trans h h'
  case integer.integer.integer => omega
  case boolean.boolean.boolean => simp_all
  case character.character.character => exact Char.lt_trans h h'

theorem before_of_ne (hne : j ≠ k) (h : k.before j = false) : j.before k = true := by
  cases j <;> cases k <;>
    simp only [before, decide_eq_true_eq, decide_eq_false_iff_not, Bool.true_eq_false] at h ⊢
  case text.text s t =>
    by_contra hn
    have hst : s = t := String.le_antisymm (String.not_lt.mp h) (String.not_lt.mp hn)
    exact hne (congrArg text hst)
  case integer.integer y z =>
    have hyz : y ≠ z := fun hyz => hne (congrArg integer hyz)
    omega
  case boolean.boolean a b => cases a <;> cases b <;> simp_all
  case character.character c d =>
    by_contra hn
    have hcd : c = d := Char.le_antisymm (Char.not_lt.mp h) (Char.not_lt.mp hn)
    exact hne (congrArg character hcd)

end HostKey

namespace MapOrder
variable {order : MapOrder} {entries listed : List (HostKey × Host)} {k : HostKey} {h : Host}

def Before (d e : HostKey × Host) : Prop := d.1.before e.1 = true

def Lists (order : MapOrder) (entries listed : List (HostKey × Host)) : Prop :=
  match order with
  | sorted => listed.Perm entries ∧ listed.Pairwise Before
  | insertion => listed = entries

theorem insertSorted_perm (hk : k ∉ entries.map Prod.fst) :
    (insertSorted k h entries).Perm ((k, h) :: entries) := by
  induction entries with
  | nil => exact .refl _
  | cons e entries ih =>
    obtain ⟨j, g⟩ := e
    rw [List.map_cons, List.mem_cons, not_or] at hk
    rw [insertSorted, if_neg (Ne.symm hk.1)]
    split
    · exact .refl _
    · exact ((ih hk.2).cons (j, g)).trans (.swap (k, h) (j, g) entries)

theorem insertSorted_sorted (hk : k ∉ entries.map Prod.fst) (hs : entries.Pairwise Before) :
    (insertSorted k h entries).Pairwise Before := by
  induction entries with
  | nil => exact List.pairwise_singleton _ _
  | cons e entries ih =>
    obtain ⟨j, g⟩ := e
    obtain ⟨hfirst, hrest⟩ := List.pairwise_cons.mp hs
    rw [List.map_cons, List.mem_cons, not_or] at hk
    rw [insertSorted, if_neg (Ne.symm hk.1)]
    split
    · rename_i hkj
      refine List.pairwise_cons.mpr ⟨fun d hd => ?_, hs⟩
      obtain rfl | hd := List.mem_cons.mp hd
      · exact hkj
      · exact HostKey.before_trans hkj (hfirst d hd)
    · rename_i hkj
      refine List.pairwise_cons.mpr ⟨fun d hd => ?_, ih hk.2 hrest⟩
      obtain rfl | hd := List.mem_cons.mp ((insertSorted_perm hk.2).mem_iff.mp hd)
      · exact HostKey.before_of_ne (Ne.symm hk.1) (Bool.eq_false_iff.mpr hkj)
      · exact hfirst d hd

theorem lists_arrange (order : MapOrder) (hd : (entries.map Prod.fst).Nodup) :
    order.Lists entries (order.arrange entries) := by
  cases order with
  | insertion => exact OrderedMap.ofList_of_nodup hd
  | sorted =>
    induction entries using List.reverseRecOn with
    | nil => exact ⟨.refl _, .nil⟩
    | append_singleton entries e ih =>
      rw [List.map_append, List.nodup_append] at hd
      obtain ⟨hperm, hsorted⟩ := ih hd.1
      have hnew : e.1 ∉ (arrange sorted entries).map Prod.fst := fun he =>
        hd.2.2 e.1 ((hperm.map Prod.fst).mem_iff.mp he) e.1 List.mem_cons_self rfl
      have hall := ((insertSorted_perm hnew).trans (hperm.cons e)).trans
        (List.perm_append_singleton e _).symm
      rw [arrange, List.foldl_append]
      exact ⟨hall, insertSorted_sorted hnew hsorted⟩

theorem Lists.unique {listed' : List (HostKey × Host)} (h : order.Lists entries listed)
    (h' : order.Lists entries listed') : listed = listed' := by
  cases order with
  | insertion => exact Eq.trans h h'.symm
  | sorted =>
    refine List.Perm.eq_of_pairwise (fun d e _ _ hde hed => ?_) h.2 h'.2 (h.1.trans h'.1.symm)
    have hloop := HostKey.before_trans hde hed
    rw [HostKey.before_irrefl] at hloop
    cases hloop

theorem arrange_eq_iff (hd : (entries.map Prod.fst).Nodup) :
    order.arrange entries = listed ↔ order.Lists entries listed := by
  have harrange := order.lists_arrange hd
  exact ⟨fun h => h ▸ harrange, harrange.unique⟩

end MapOrder
end ExactJson
