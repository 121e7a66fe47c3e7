import ExactJson.Proofs.Document.Obtained
import ExactJson.Proofs.Host.Integers
import ExactJson.Proofs.Host.Maps
import Mathlib.Data.List.Forall2

/-! Reading JSON values as values of programs. A value is read when all its parts are what the type
asks for, and then nothing is lost; else the first part that is not is the error. -/
namespace ExactJson

/-- The type has the integer, and the number is that integer, or the negative zero where the type has
signs. -/
def IntType.Reads (type : IntType) (n : Number) (z : Int) : Prop :=
  (n = .ofInt z ∧ type.contains z = true) ∨ (n = .bigInteger "-0" ∧ z = 0 ∧ type.signed = true)

namespace Number
variable {n : Number} {type : IntType} {z : Int}

theorem ofInt_injective {y z : Int} (h : ofInt y = ofInt z) : y = z := by
  have htext : Integer.text y = Integer.text z := by simpa using congrArg text h
  rw [← Integer.denoted_text y, htext, Integer.denoted_text]

theorem ofInt_ne_minus_zero (z : Int) : ofInt z ≠ bigInteger "-0" := by
  intro h
  have htext := congrArg text h
  rw [text_ofInt] at htext
  exact Integer.text_ne_minus_zero z htext

/-- There are no integers but those that are made, and the negative zero. -/
theorem Built.eq_ofInt (h : n.Built) (hi : n.isInteger = true) :
    (∃ z, n = Number.ofInt z) ∨ n = bigInteger "-0" := by
  have ht := h.canonical.numberText hi
  have hn : ofIntegerLiteral n.text = n := by
    obtain ⟨form, hform, hread⟩ := h.rereads
    have hform : form = .integer :=
      Option.some.inj ((NumberForm.ofText?_eq_some_iff.mpr hform).symm.trans
        (NumberForm.ofText?_eq_some_iff.mpr ht))
    have hself := hread .exact
    rwa [reread_of_isInteger hi, hform] at hself
  by_cases h₀ : n.text = "-0"
  · rw [h₀] at hn
    exact .inr hn.symm
  · rw [← Integer.text_denoted ht h₀, ofIntegerLiteral_text] at hn
    exact .inl ⟨_, hn.symm⟩

theorem toInt?_eq_some_iff (h : n.Built) (hi : n.isInteger = true) :
    n.toInt? type = some z ↔ type.Reads n z := by
  obtain ⟨y, rfl⟩ | rfl := h.eq_ofInt hi
  · rw [toInt?, text_ofInt, type.read?_text, IntType.Reads]
    constructor
    · intro hz
      split at hz
      · rename_i hc
        cases hz
        exact .inl ⟨rfl, hc⟩
      · cases hz
    · rintro (⟨hyz, hc⟩ | ⟨hy, -⟩)
      · rw [ofInt_injective hyz, if_pos hc]
      · exact absurd hy (ofInt_ne_minus_zero y)
  · rw [toInt?, text, type.read?_minus_zero, IntType.Reads]
    constructor
    · intro hz
      split at hz
      · rename_i hs
        cases hz
        exact .inr ⟨rfl, rfl, hs⟩
      · cases hz
    · rintro (⟨hz, -⟩ | ⟨-, rfl, hs⟩)
      · exact absurd hz.symm (ofInt_ne_minus_zero z)
      · rw [if_pos hs]

end Number

theorem IntType.Reads.isInteger {type : IntType} {n : Number} {z : Int} (h : type.Reads n z) :
    n.isInteger = true := by
  obtain ⟨rfl, -⟩ | ⟨rfl, -⟩ := h
  · exact Number.isInteger_ofInt z
  · rfl

def Wanted.Fits : Wanted → Value → Prop
  | kind k, v => v.kind = k
  | integer, v => ∃ n, v = .number n ∧ n.isInteger = true

namespace HostType

def isExact : HostType → Bool
  | binary32 | binary64 => false
  | option t | sequence t | mapping _ t => t.isExact
  | boolean | integer _ | text | json => true

def wanted? : HostType → Option Wanted
  | boolean => some (.kind .boolean)
  | integer _ => some .integer
  | binary32 | binary64 => some (.kind .number)
  | text => some (.kind .string)
  | sequence _ => some (.kind .array)
  | mapping _ _ => some (.kind .object)
  | json | option _ => none

/-- The parts of a value in the order of the document, each with the type that is asked of it. Nothing
is asked of the null of an option. -/
def parts : HostType → Value → List (HostType × Value)
  | option _, .null => []
  | option t, v => parts t v
  | sequence t, .array vs => (sequence t, .array vs) :: vs.flatMap (parts t)
  | mapping order t, .object ms =>
    (mapping order t, .object ms) :: ms.flatMap fun m => parts t m.2
  | t, v => [(t, v)]

/-- The value itself, whatever is inside it, is what the type asks for. -/
structure Accepts (t : HostType) (v : Value) : Prop where
  fits (w : Wanted) : t.wanted? = some w → w.Fits v
  range (type : IntType) (n : Number) : t = integer type → v = .number n → ∃ z, type.Reads n z

inductive Refuses : HostType → Value → ConversionError → Prop where
  | mismatch {t : HostType} {v : Value} {w : Wanted} (hw : t.wanted? = some w) (hv : ¬w.Fits v) :
      Refuses t v (.mismatch w v.kind)
  | outOfRange {type : IntType} {n : Number} (hn : n.isInteger = true) (h : ∀ z, ¬type.Reads n z) :
      Refuses (integer type) (.number n) (.outOfRange type.name n.text)

/-- The value of the type that stands for a JSON value. It has all elements and members.
Floating-point numbers are left out. -/
def Gives : HostType → Value → Host → Prop
  | boolean, v, h => ∃ b, v = .boolean b ∧ h = .boolean b
  | integer type, v, h => ∃ n z, v = .number n ∧ type.Reads n z ∧ h = .integer type z
  | binary32, _, _ | binary64, _, _ => False
  | text, v, h => ∃ s, v = .string s ∧ h = .text s
  | json, v, h => h = .json v
  | option t, v, h => (v = .null ∧ h = .absent) ∨ (v ≠ .null ∧ ∃ g, Gives t v g ∧ h = .present g)
  | sequence t, v, h => ∃ vs hs, v = .array vs ∧ List.Forall₂ (fun w g => Gives t w g) vs hs ∧
      h = .sequence hs
  | mapping order t, v, h => ∃ ms entries listed, v = .object ms ∧
      List.Forall₂ (fun m e => e.1 = .text m.1 ∧ Gives t m.2 e.2) ms entries ∧
      order.Lists entries listed ∧ h = .mapping listed

variable {α β : Type} {t : HostType} {v : Value} {h : Host} {e e' : ConversionError}
variable {ps qs : List (HostType × Value)} {p q : HostType × Value} {r : Except ConversionError α}

theorem Accepts.not_refuses (ha : t.Accepts v) : ¬t.Refuses v e := by
  intro hr
  cases hr with
  | mismatch hw hv => exact hv (ha.fits _ hw)
  | outOfRange hn h =>
    obtain ⟨z, hz⟩ := ha.range _ _ rfl rfl
    exact h z hz

theorem Refuses.unique (h : t.Refuses v e) (h' : t.Refuses v e') : e = e' := by
  cases h with
  | mismatch hw hv =>
    cases h' with
    | mismatch hw' hv' =>
      rw [hw] at hw'
      rw [Option.some.inj hw']
    | outOfRange hn h =>
      cases hw
      exact absurd ⟨_, rfl, hn⟩ hv
  | outOfRange hn h =>
    cases h' with
    | mismatch hw' hv' =>
      cases hw'
      exact absurd ⟨_, rfl, hn⟩ hv'
    | outOfRange => rfl

def FirstFault (ps : List (HostType × Value)) (e : ConversionError) : Prop :=
  ∃ before p after, ps = before ++ p :: after ∧ (∀ q ∈ before, q.1.Accepts q.2) ∧ p.1.Refuses p.2 e

def Reports (ps : List (HostType × Value)) : Except ConversionError α → Prop
  | .ok _ => ∀ p ∈ ps, p.1.Accepts p.2
  | .error e => FirstFault ps e

theorem firstFault_cons : FirstFault (p :: ps) e ↔
    p.1.Refuses p.2 e ∨ (p.1.Accepts p.2 ∧ FirstFault ps e) := by
  constructor
  · rintro ⟨before, q, after, hps, hbefore, hq⟩
    cases before with
    | nil =>
      cases hps
      exact .inl hq
    | cons p' before =>
      cases hps
      obtain ⟨hp, hbefore⟩ := List.forall_mem_cons.mp hbefore
      exact .inr ⟨hp, before, q, after, rfl, hbefore, hq⟩
  · rintro (hp | ⟨hp, before, q, after, rfl, hbefore, hq⟩)
    · exact ⟨[], p, ps, rfl, List.forall_mem_nil _, hp⟩
    · exact ⟨p :: before, q, after, rfl, List.forall_mem_cons.mpr ⟨hp, hbefore⟩, hq⟩

theorem FirstFault.unique (h : FirstFault ps e) (h' : FirstFault ps e') : e = e' := by
  induction ps with
  | nil =>
    obtain ⟨before, p, after, hps, -⟩ := h
    simp at hps
  | cons p ps ih =>
    obtain hp | ⟨hp, h⟩ := firstFault_cons.mp h
    · obtain hp' | ⟨hp', -⟩ := firstFault_cons.mp h'
      · exact hp.unique hp'
      · exact absurd hp hp'.not_refuses
    · obtain hp' | ⟨-, h'⟩ := firstFault_cons.mp h'
      · exact absurd hp' hp.not_refuses
      · exact ih h h'

theorem FirstFault.not_accepted (h : FirstFault ps e) : ¬∀ p ∈ ps, p.1.Accepts p.2 := by
  obtain ⟨before, p, after, rfl, -, hp⟩ := h
  exact fun ha => (ha p (by simp)).not_refuses hp

theorem firstFault_append (ps qs : List (HostType × Value)) (h : FirstFault ps e) :
    FirstFault (ps ++ qs) e := by
  obtain ⟨before, p, after, rfl, hbefore, hp⟩ := h
  exact ⟨before, p, after ++ qs, by simp, hbefore, hp⟩

theorem firstFault_behind (hps : ∀ p ∈ ps, p.1.Accepts p.2) (h : FirstFault qs e) :
    FirstFault (ps ++ qs) e := by
  obtain ⟨before, p, after, rfl, hbefore, hp⟩ := h
  exact ⟨ps ++ before, p, after, by simp, List.forall_mem_append.mpr ⟨hps, hbefore⟩, hp⟩

namespace Reports

theorem map (h : Reports ps r) (f : α → β) : Reports ps (r.map f) := by
  cases r <;> exact h

theorem cons (hp : p.1.Accepts p.2) (h : Reports ps r) : Reports (p :: ps) r := by
  cases r with
  | ok a => exact List.forall_mem_cons.mpr ⟨hp, h⟩
  | error e => exact firstFault_cons.mpr (.inr ⟨hp, h⟩)

theorem bind {f : α → Except ConversionError β} (h : Reports ps r) (hf : ∀ a, Reports qs (f a)) :
    Reports (ps ++ qs) (r.bind f) := by
  cases r with
  | error e => exact firstFault_append ps qs h
  | ok a =>
    have hfa := hf a
    rw [Except.bind]
    cases hr : f a with
    | ok b =>
      rw [hr] at hfa
      exact List.forall_mem_append.mpr ⟨h, hfa⟩
    | error e =>
      rw [hr] at hfa
      exact firstFault_behind h hfa

theorem eq_error_iff (h : Reports ps r) : r = .error e ↔ FirstFault ps e := by
  cases r with
  | ok a => exact iff_of_false (by simp) fun hf => hf.not_accepted h
  | error e' =>
    constructor
    · rintro ⟨⟩
      exact h
    · exact fun hf => congrArg Except.error (FirstFault.unique h hf)

theorem exists_ok_iff (h : Reports ps r) : (∃ a, r = .ok a) ↔ ∀ p ∈ ps, p.1.Accepts p.2 := by
  cases r with
  | ok a => exact ⟨fun _ => h, fun _ => ⟨a, rfl⟩⟩
  | error e => exact iff_of_false (by simp) (FirstFault.not_accepted h)

end Reports

theorem reports_mapM {f : α → Except ConversionError β} {parts : α → List (HostType × Value)}
    {as : List α} (hf : ∀ a ∈ as, Reports (parts a) (f a)) :
    Reports (as.flatMap parts) (as.mapM f) := by
  induction as with
  | nil => exact List.forall_mem_nil _
  | cons a as ih =>
    obtain ⟨ha, hrest⟩ := List.forall_mem_cons.mp hf
    rw [List.mapM_cons, List.flatMap_cons]
    exact ha.bind fun b => (ih hrest).map (b :: ·)

theorem reports_accepted (a : α) (h : t.Accepts v) : Reports [(t, v)] (.ok a) :=
  List.forall_mem_singleton.mpr h

theorem reports_refused (h : t.Refuses v e) :
    Reports [(t, v)] (.error e : Except ConversionError α) :=
  firstFault_cons.mpr (.inl h)

theorem accepts_of_kind {k : ValueKind} (ht : t.wanted? = some (.kind k)) (hv : v.kind = k) :
    t.Accepts v where
  fits w hw := by
    rw [ht] at hw
    cases hw
    exact hv
  range type n htype := by
    rw [htype] at ht
    cases ht

theorem refuses_of_kind {k : ValueKind} (ht : t.wanted? = some (.kind k)) (hv : v.kind ≠ k) :
    t.Refuses v (.mismatch (.kind k) v.kind) := .mismatch ht hv

theorem reports_readInteger (type : IntType) (hv : v.Built) :
    Reports [(integer type, v)] (readInteger type v) := by
  -- What is no integer is a mismatch, also where it is a whole number.
  by_cases hn : ∃ n, v = .number n ∧ n.isInteger = true
  · obtain ⟨n, rfl, hi⟩ := hn
    have hb : n.Built := hv.numbers n List.mem_cons_self
    simp only [readInteger, Value.number?, Option.filter, hi, if_true]
    cases hz : n.toInt? type with
    | some z =>
      have hread := (Number.toInt?_eq_some_iff hb hi).mp hz
      refine reports_accepted z ⟨fun w hw => ?_, fun type' m htype hm => ?_⟩
      · cases hw
        exact ⟨n, rfl, hi⟩
      · cases htype
        cases hm
        exact ⟨z, hread⟩
    | none =>
      refine reports_refused (.outOfRange hi fun z hread => ?_)
      rw [(Number.toInt?_eq_some_iff hb hi).mpr hread] at hz
      cases hz
  · have hnone : v.number?.filter Number.isInteger = none := by
      cases v with
      | number n => simpa [Value.number?] using hn
      | _ => rfl
    rw [readInteger, hnone]
    exact reports_refused (.mismatch rfl hn)

/-- Reading gives a value when all parts are accepted, and else the error of the first that is
not. -/
theorem reports_read (ht : t.isExact = true) (hv : v.Built) : Reports (t.parts v) (t.read v) := by
  induction t generalizing v with
  | binary32 | binary64 => cases ht
  | boolean =>
    cases v with
    | boolean b => exact reports_accepted _ (accepts_of_kind rfl rfl)
    | _ => exact reports_refused (refuses_of_kind rfl (by simp [Value.kind]))
  | integer type =>
    have hparts : (integer type).parts v = [(integer type, v)] := by cases v <;> rfl
    rw [hparts]
    exact (reports_readInteger type hv).map _
  | text =>
    cases v with
    | string s => exact reports_accepted _ (accepts_of_kind rfl rfl)
    | _ => exact reports_refused (refuses_of_kind rfl (by simp [Value.kind]))
  | json =>
    have hparts : json.parts v = [(json, v)] := by cases v <;> rfl
    rw [hparts]
    refine reports_accepted _ ⟨fun w hw => ?_, fun type n htype => ?_⟩
    · cases hw
    · cases htype
  | option t ih =>
    cases v with
    | null => exact List.forall_mem_nil _
    | _ => exact (ih ht hv).map _
  | sequence t ih =>
    cases v with
    | array vs =>
      have hvs := Value.built_array.mp hv
      have hitems := reports_mapM fun w hw => ih ht (hvs w hw)
      exact (hitems.map _).cons (accepts_of_kind rfl rfl)
    | _ => exact reports_refused (refuses_of_kind rfl (by simp [Value.kind]))
  | mapping order t ih =>
    cases v with
    | object ms =>
      have hms := (Value.built_object.mp hv).2
      have hmembers := reports_mapM fun m hm =>
        (ih ht (hms m hm)).map fun h => (HostKey.text m.1, h)
      exact (hmembers.map _).cons (accepts_of_kind rfl rfl)
    | _ => exact reports_refused (refuses_of_kind rfl (by simp [Value.kind]))

theorem bind_eq_ok_iff {f : α → Except ConversionError β} {b : β} :
    (r >>= f) = .ok b ↔ ∃ a, r = .ok a ∧ f a = .ok b := by
  cases r <;> simp [bind, Except.bind]

theorem map_eq_ok_iff {f : α → β} {b : β} : r.map f = .ok b ↔ ∃ a, r = .ok a ∧ b = f a := by
  cases r <;> simp [Except.map, eq_comm]

theorem mapM_eq_ok_iff {f : α → Except ConversionError β} {R : α → β → Prop} {as : List α}
    {bs : List β} (hf : ∀ a ∈ as, ∀ b, f a = .ok b ↔ R a b) :
    as.mapM f = .ok bs ↔ List.Forall₂ R as bs := by
  induction as generalizing bs with
  | nil =>
    rw [List.mapM_nil, List.forall₂_nil_left_iff]
    exact ⟨fun h => (Except.ok.inj h).symm, fun h => congrArg _ h.symm⟩
  | cons a as ih =>
    obtain ⟨ha, hrest⟩ := List.forall_mem_cons.mp hf
    simp only [List.mapM_cons, List.forall₂_cons_left_iff, bind_eq_ok_iff, ha, ih hrest]
    constructor
    · rintro ⟨b, hb, rest, hrest, h⟩
      exact ⟨b, rest, hb, hrest, (Except.ok.inj h).symm⟩
    · rintro ⟨b, rest, hb, hrest, rfl⟩
      exact ⟨b, hb, rest, hrest, rfl⟩

theorem readInteger_eq_ok_iff (hv : v.Built) {type : IntType} {z : Int} :
    readInteger type v = .ok z ↔ ∃ n, v = .number n ∧ type.Reads n z := by
  cases v with
  | number n =>
    have hb : n.Built := hv.numbers n List.mem_cons_self
    rw [readInteger, Value.number?]
    by_cases hi : n.isInteger = true
    · simp only [Option.filter, hi, if_true, Value.number.injEq, exists_eq_left',
        ← Number.toInt?_eq_some_iff hb hi]
      cases n.toInt? type <;> simp
    · have hnone : ¬type.Reads n z := fun hread => hi hread.isInteger
      simp [Option.filter, hi, hnone]
  | _ => simp [readInteger, Value.number?]

theorem nodup_keys_of_forall₂ {R : Value → Host → Prop} {ms : Object}
    {entries : List (HostKey × Host)} (hnames : (OrderedMap.keys ms).Nodup)
    (hr : List.Forall₂ (fun m e => e.1 = .text m.1 ∧ R m.2 e.2) ms entries) :
    (entries.map Prod.fst).Nodup := by
  have hkeys : entries.map Prod.fst = (OrderedMap.keys ms).map HostKey.text := by
    induction hr with
    | nil => rfl
    | cons hm _ ih =>
      rw [List.map_cons, hm.1, ih (List.nodup_cons.mp hnames).2]
      rfl
  rw [hkeys]
  exact List.Pairwise.map _ (fun _ _ hne h => hne (HostKey.text.inj h)) hnames

/-- A value that is read is the one that stands for the JSON value. -/
theorem read_eq_ok_iff (ht : t.isExact = true) (hv : v.Built) :
    t.read v = .ok h ↔ t.Gives v h := by
  induction t generalizing v h with
  | binary32 | binary64 => cases ht
  | boolean =>
    cases v with
    | boolean b => simp [read, Value.boolean?, Gives, eq_comm]
    | _ => simp [read, Value.boolean?, Gives]
  | integer type =>
    rw [read, map_eq_ok_iff, Gives]
    simp only [readInteger_eq_ok_iff hv]
    constructor
    · rintro ⟨z, ⟨n, hn, hz⟩, hh⟩
      exact ⟨n, z, hn, hz, hh⟩
    · rintro ⟨n, z, hn, hz, hh⟩
      exact ⟨z, ⟨n, hn, hz⟩, hh⟩
  | text =>
    cases v with
    | string s => simp [read, Value.string?, Gives, eq_comm]
    | _ => simp [read, Value.string?, Gives]
  | json => simp [read, Gives, eq_comm]
  | option t ih =>
    cases v with
    | null => simp [read, Gives, eq_comm]
    | _ => simp [read, Gives, map_eq_ok_iff, ih ht hv]
  | sequence t ih =>
    cases v with
    | array vs =>
      have hvs := Value.built_array.mp hv
      simp only [read, Value.array?, map_eq_ok_iff, mapM_eq_ok_iff fun w hw _ => ih ht (hvs w hw)]
      simp [Gives]
    | _ => simp [read, Value.array?, Gives]
  | mapping order t ih =>
    cases v with
    | object ms =>
      obtain ⟨hnames, hms⟩ := Value.built_object.mp hv
      have hmember : ∀ m ∈ ms, ∀ e : HostKey × Host,
          (t.read m.2).map (fun h => (HostKey.text m.1, h)) = .ok e ↔
            e.1 = .text m.1 ∧ t.Gives m.2 e.2 := by
        intro m hm e
        rw [map_eq_ok_iff]
        simp only [ih ht (hms m hm)]
        constructor
        · rintro ⟨g, hg, rfl⟩
          exact ⟨rfl, hg⟩
        · rintro ⟨hk, hg⟩
          exact ⟨e.2, hg, Prod.ext hk rfl⟩
      -- No entry is lost in the map, since the names are different.
      simp only [read, Value.object?, map_eq_ok_iff, mapM_eq_ok_iff hmember, Gives]
      constructor
      · rintro ⟨entries, he, rfl⟩
        have hd := nodup_keys_of_forall₂ hnames he
        exact ⟨ms, entries, _, rfl, he, order.lists_arrange hd, rfl⟩
      · rintro ⟨_, entries, listed, hms', he, hlist, rfl⟩
        cases hms'
        have hd := nodup_keys_of_forall₂ hnames he
        exact ⟨entries, he, congrArg _ ((MapOrder.arrange_eq_iff hd).mpr hlist).symm⟩
    | _ => simp [read, Value.object?, Gives]

/-- A value is read when each of its parts is what the type asks for, with numbers that are in range,
and then all its elements and members are there, in their order where the type has one. Else the error
is that of the first part in the order of the document that is not so. -/
theorem read_whole (t : HostType) (ht : t.isExact = true) (v : Value) (hv : v.Obtained) :
    ((∃ h, t.read v = .ok h) ↔ ∀ p ∈ t.parts v, p.1.Accepts p.2) ∧
    (∀ h, t.read v = .ok h ↔ t.Gives v h) ∧
    ∀ e, t.read v = .error e ↔ ∃ before p after, t.parts v = before ++ p :: after ∧
      (∀ q ∈ before, q.1.Accepts q.2) ∧ p.1.Refuses p.2 e := by
  have hreports := reports_read ht hv.built
  exact ⟨hreports.exists_ok_iff, fun h => read_eq_ok_iff ht hv.built,
    fun e => hreports.eq_error_iff⟩

/-- The negative zero is refused before the boolean behind it is. -/
theorem read_whole_minus_zero :
    (mapping .sorted (option (sequence (integer ⟨false, .w8⟩)))).isExact = true ∧
    (Value.object
      [("b", .null), ("a", .array [.number (.bigInteger "-0"), .boolean true])]).Obtained ∧
    (mapping .sorted (option (sequence (integer ⟨false, .w8⟩)))).read
      (.object [("b", .null), ("a", .array [.number (.bigInteger "-0"), .boolean true])]) =
        .error (.outOfRange "u8" "-0") := by
  have hzero : (Value.number (.bigInteger "-0")).Obtained :=
    .number (@Number.Obtained.integer "-0" _ rfl)
  have harray : (Value.array [.number (.bigInteger "-0"), .boolean true]).Obtained :=
    .array (List.forall_mem_cons.mpr ⟨hzero, List.forall_mem_singleton.mpr (.boolean true)⟩)
  have hobject : (Value.object
      [("b", .null), ("a", .array [.number (.bigInteger "-0"), .boolean true])]).Obtained :=
    .insert (.insert .object "b" .null) "a" harray
  have ht : (mapping .sorted (option (sequence (integer ⟨false, .w8⟩)))).isExact = true := rfl
  refine ⟨ht, hobject, ((read_whole _ ht _ hobject).2.2 _).mpr ?_⟩
  refine ⟨[(_, _), (_, _)], (_, _), [_], rfl, ?_, .outOfRange rfl ?_⟩
  · have hmapping : (mapping .sorted (option (sequence (integer ⟨false, .w8⟩)))).Accepts
        (.object [("b", .null), ("a", .array [.number (.bigInteger "-0"), .boolean true])]) :=
      accepts_of_kind rfl rfl
    exact List.forall_mem_cons.mpr
      ⟨hmapping, List.forall_mem_singleton.mpr (accepts_of_kind rfl rfl)⟩
  · rintro z (⟨hz, -⟩ | ⟨-, -, hsigned⟩)
    · exact Number.ofInt_ne_minus_zero z hz.symm
    · cases hsigned

end HostType
end ExactJson
