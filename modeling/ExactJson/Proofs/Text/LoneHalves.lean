import ExactJson.Proofs.Text.StringGrammar

/-! The bytes of a literal one element after another, whether or not the literal is that of a text.
If it is, each half of a pair stands beside its other half. -/
namespace ExactJson.Grammar
open Text

theorem Hex4.unique {ds : Bytes} {u v : Nat} (hu : Hex4 ds u) (hv : Hex4 ds v) : u = v := by
  cases hu with
  | mk ha hb hc hd =>
    have h := Escape.unit?_eq_some_iff.mpr (.mk ha hb hc hd)
    cases hv with
    | mk ha' hb' hc' hd' =>
      exact Option.some.inj (h.symm.trans (Escape.unit?_eq_some_iff.mpr (.mk ha' hb' hc' hd')))

theorem Hex4.length_eq {ds : Bytes} {u : Nat} (h : Hex4 ds u) : ds.length = 4 := by
  cases h
  rfl

/-- A byte as it is, a backslash with the byte behind it, or `\u` with the four bytes behind it. -/
inductive Element where
  | raw (b : UInt8)
  | short (b : UInt8)
  | unit (ds : Bytes)

namespace Element

def Legal : Element → Prop
  | raw b => b ≠ Ascii.quote ∧ b ≠ Ascii.backslash
  | short b => b ≠ Ascii.lowerU
  | unit ds => ds.length = 4

def bytes : Element → Bytes
  | raw b => [b]
  | short b => [Ascii.backslash, b]
  | unit ds => Ascii.backslash :: Ascii.lowerU :: ds

def IsLead : Element → Prop
  | unit ds => ∃ u, Hex4 ds u ∧ 0xD800 ≤ u ∧ u ≤ 0xDBFF
  | _ => False

def IsTrail : Element → Prop
  | unit ds => ∃ u, Hex4 ds u ∧ 0xDC00 ≤ u ∧ u ≤ 0xDFFF
  | _ => False

/-- A half with anything but its other half where that should be. -/
def Lone (before : List Element) (e : Element) (after : List Element) : Prop :=
  (e.IsLead ∧ ∀ f ∈ after.head?, ¬ f.IsTrail) ∨ (e.IsTrail ∧ ∀ f ∈ before.getLast?, ¬ f.IsLead)

/-- Elements in which each half stands beside its other half. -/
inductive Paired : List Element → Prop where
  | nil : Paired []
  | cons {e : Element} {es : List Element} (hl : ¬ e.IsLead) (ht : ¬ e.IsTrail) (h : Paired es) :
      Paired (e :: es)
  | pair {e f : Element} {es : List Element} (he : e.IsLead) (hf : f.IsTrail) (h : Paired es) :
      Paired (e :: f :: es)

variable {e f : Element} {es before after : List Element} {b : UInt8} {bs ds rest z : Bytes}

theorem IsLead.not_isTrail (h : e.IsLead) : ¬ e.IsTrail := by
  cases e with
  | raw | short => exact h.elim
  | unit ds =>
    obtain ⟨u, hu, -, hhigh⟩ := h
    rintro ⟨v, hv, hlow, -⟩
    obtain rfl := hu.unique hv
    omega

theorem Lone.tail (h : Lone (f :: before) e after) : Lone before e after := by
  refine h.imp_right fun ⟨he, hlast⟩ => ⟨he, fun g hg => hlast g ?_⟩
  cases before with
  | nil => cases hg
  | cons d before => rwa [List.getLast?_cons_cons]

theorem Paired.not_lone (h : Paired es) (hes : es = before ++ e :: after) :
    ¬ Lone before e after := by
  induction h generalizing before with
  | nil => simp at hes
  | cons hl ht _ ih =>
    cases before with
    | nil =>
      cases hes
      rintro (⟨he, -⟩ | ⟨he, -⟩)
      · exact hl he
      · exact ht he
    | cons d before =>
      cases hes
      exact fun h => ih rfl h.tail
  | pair hd hf _ ih =>
    cases before with
    | nil =>
      cases hes
      rintro (⟨-, hafter⟩ | ⟨he, -⟩)
      · exact hafter _ rfl hf
      · exact hd.not_isTrail he
    | cons d before =>
      cases before with
      | nil =>
        cases hes
        rintro (⟨he, -⟩ | ⟨-, hbefore⟩)
        · exact he.not_isTrail hf
        · exact hbefore _ rfl hd
      | cons d' before =>
        cases hes
        exact fun h => ih rfl h.tail.tail

structure Splits (es : List Element) (rest bs : Bytes) : Prop where
  legal : ∀ e ∈ es, e.Legal
  bytes : es.flatMap bytes ++ Ascii.quote :: rest = bs

theorem Splits.tail (h : Splits (e :: es) rest (e.bytes ++ bs)) : Splits es rest bs where
  legal f hf := h.legal f (List.mem_cons_of_mem e hf)
  bytes := by
    have hb := h.bytes
    rw [List.flatMap_cons, List.append_assoc] at hb
    exact List.append_cancel_left hb

theorem Splits.nil_of_quote (h : Splits es rest (Ascii.quote :: z)) : es = [] := by
  obtain ⟨hes, hb⟩ := h
  cases es with
  | nil => rfl
  | cons e es =>
    cases e with
    | raw b =>
      have hq : b = Ascii.quote := (List.cons.inj hb).1
      exact absurd hq (hes _ List.mem_cons_self).1
    | short b | unit ds => exact absurd (List.cons.inj hb).1 (by decide)

theorem Splits.raw_cons (h : Splits es rest (b :: bs)) (hb : (raw b).Legal) :
    ∃ fs, es = raw b :: fs ∧ Splits fs rest bs := by
  cases es with
  | nil => exact absurd (List.cons.inj h.bytes).1.symm hb.1
  | cons e es =>
    cases e with
    | raw a =>
      obtain rfl : a = b := (List.cons.inj h.bytes).1
      exact ⟨es, rfl, h.tail⟩
    | short a | unit ds => exact absurd (List.cons.inj h.bytes).1.symm hb.2

theorem Splits.short_cons (h : Splits es rest (Ascii.backslash :: b :: bs))
    (hb : b ≠ Ascii.lowerU) : ∃ fs, es = short b :: fs ∧ Splits fs rest bs := by
  cases es with
  | nil => exact absurd (List.cons.inj h.bytes).1 (by decide)
  | cons e es =>
    cases e with
    | raw a => exact absurd (List.cons.inj h.bytes).1 (h.legal _ List.mem_cons_self).2
    | short a =>
      obtain rfl : a = b := (List.cons.inj (List.cons.inj h.bytes).2).1
      exact ⟨es, rfl, h.tail⟩
    | unit ds => exact absurd (List.cons.inj (List.cons.inj h.bytes).2).1.symm hb

theorem Splits.unit_cons (h : Splits es rest (Ascii.backslash :: Ascii.lowerU :: ds ++ bs))
    (hd : ds.length = 4) : ∃ fs, es = unit ds :: fs ∧ Splits fs rest bs := by
  cases es with
  | nil => exact absurd (List.cons.inj h.bytes).1 (by decide)
  | cons e es =>
    have he := h.legal _ List.mem_cons_self
    cases e with
    | raw a => exact absurd (List.cons.inj h.bytes).1 he.2
    | short a => exact absurd (List.cons.inj (List.cons.inj h.bytes).2).1 he
    | unit ds' =>
      have hb := h.bytes
      rw [List.flatMap_cons, List.append_assoc] at hb
      obtain ⟨rfl, -⟩ := List.append_inj (List.cons.inj (List.cons.inj hb).2).2 (he.trans hd.symm)
      exact ⟨es, rfl, h.tail⟩

theorem Splits.raw_append (h : Splits es rest (bs ++ z)) (hbs : ∀ b ∈ bs, (raw b).Legal) :
    ∃ fs, es = bs.map raw ++ fs ∧ Splits fs rest z := by
  induction bs generalizing es with
  | nil => exact ⟨es, rfl, h⟩
  | cons b bs ih =>
    obtain ⟨hb, hbs⟩ := List.forall_mem_cons.mp hbs
    obtain ⟨fs, rfl, hfs⟩ := h.raw_cons hb
    obtain ⟨gs, rfl, hgs⟩ := ih hfs hbs
    exact ⟨gs, rfl, hgs⟩

theorem Paired.raw_append (bs : Bytes) (h : Paired es) : Paired (bs.map raw ++ es) := by
  induction bs with
  | nil => exact h
  | cons b bs ih => exact .cons id id ih

theorem paired_of_spellings {y : Bytes} {cs : List Char} (hy : Spellings y cs)
    (h : Splits es rest (y ++ Ascii.quote :: z)) : Paired es := by
  induction hy generalizing es with
  | nil =>
    obtain rfl := h.nil_of_quote
    exact .nil
  | @cons x y c cs hx hs ih =>
    rw [List.append_assoc] at h
    cases hx with
    | raw hc hq hb =>
      have hlegal : ∀ b ∈ String.utf8EncodeChar c, (raw b).Legal := by
        refine fun b hmem => ⟨?_, ?_⟩
        · rintro rfl
          exact hq (eq_ofUInt8_of_mem_encode (by decide) hmem)
        · rintro rfl
          exact hb (eq_ofUInt8_of_mem_encode (by decide) hmem)
      obtain ⟨fs, rfl, hfs⟩ := h.raw_append hlegal
      exact (ih hfs).raw_append _
    | escape hx =>
      cases hx with
      | @short b _ hb =>
        have hne : b ≠ Ascii.lowerU := by
          rintro rfl
          cases hb
        obtain ⟨fs, rfl, hfs⟩ := h.short_cons hne
        exact .cons id id (ih hfs)
      | unit hd =>
        obtain ⟨fs, rfl, hfs⟩ := h.unit_cons (hd.length_eq)
        have hc : c.toNat < 0xD800 ∨ 0xDFFF < c.toNat ∧ c.toNat < 0x110000 := c.valid
        refine .cons ?_ ?_ (ih hfs) <;> rintro ⟨u, hu, hlow, hhigh⟩ <;>
          obtain rfl := hd.unique hu <;> omega
      | pair hd he hu hv _ =>
        rw [List.append_assoc] at h
        obtain ⟨fs, rfl, hfs⟩ := h.unit_cons (hd.length_eq)
        obtain ⟨gs, rfl, hgs⟩ := hfs.unit_cons (he.length_eq)
        exact .pair ⟨_, hd, hu⟩ ⟨_, he, hv⟩ (ih hgs)

end Element

theorem Element.not_stringText {before after : List Element} {e : Element} {rest : Bytes}
    (hes : ∀ d ∈ before ++ e :: after, d.Legal) (hlone : Lone before e after) {x z : Bytes}
    {s : String} (hx : StringText x s)
    (h : Ascii.quote :: ((before ++ e :: after).flatMap bytes ++ Ascii.quote :: rest) = x ++ z) :
    False := by
  obtain ⟨y, hy, rfl⟩ := hx
  rw [List.cons_append, List.append_assoc] at h
  exact (paired_of_spellings hy ⟨hes, (List.cons.inj h).2⟩).not_lone rfl hlone

end ExactJson.Grammar
