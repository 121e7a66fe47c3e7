import ExactJson.Host.ToJson
import ExactJson.Proofs.Number.Widening
import ExactJson.Proofs.Value.OrderedMap

/-! What a program's values become as JSON values. Nothing but a floating-point number that is not
finite can be in the way: it becomes its text, or the first of them is the error. -/
namespace ExactJson

inductive HostFloat where
  | single (x : Binary32)
  | double (x : Binary64)

namespace HostFloat

def type : HostFloat → String
  | single _ => "f32"
  | double _ => "f64"

def isFinite : HostFloat → Bool
  | single x => x.isFinite
  | double x => x.isFinite

def text : HostFloat → String
  | single x => FloatNotation.plain.text x
  | double x => FloatNotation.plain.text x

def wide : HostFloat → Binary64
  | single x => x.convert
  | double x => x

def host : HostFloat → Host
  | single x => .binary32 x
  | double x => .binary64 x

/-- The first of them that is not finite is the error, if there is one. -/
def report {α : Type} (xs : List HostFloat) (a : α) : Except ConversionError α :=
  match xs.find? fun x => !x.isFinite with
  | some x => .error (.notFinite x.type x.text)
  | none => .ok a

inductive Becomes : HostFloat → Value → Prop where
  | number {x : HostFloat} (h : x.isFinite = true) : Becomes x (.number (.float x.wide none))
  | text {x : HostFloat} (h : x.isFinite = false) : Becomes x (.string x.text)

variable {α β : Type} {x : HostFloat} {xs ys : List HostFloat} {a : α}

@[simp] theorem isFinite_wide (x : HostFloat) : x.wide.isFinite = x.isFinite := by
  cases x with
  | single x => exact Binary.isFinite_widen x
  | double x => rfl

theorem text_wide (h : x.isFinite = false) : FloatNotation.plain.text x.wide = x.text := by
  cases x with
  | single x => exact Binary.text_widen h _
  | double x => rfl

@[simp] theorem convert_host (x : HostFloat) (policy : NonFinitePolicy) :
    x.host.convert policy = policy.float x.type x.wide := by
  cases x <;> rfl

theorem ofBinary64?_wide (x : HostFloat) :
    Number.ofBinary64? x.wide = if x.isFinite then some (.float x.wide none) else none := by
  rw [Number.ofBinary64?, isFinite_wide]

theorem convert_of_finite (h : x.isFinite = true) (policy : NonFinitePolicy) :
    x.host.convert policy = .ok (.number (.float x.wide none)) := by
  simp only [convert_host, NonFinitePolicy.float, ofBinary64?_wide, h, if_true]

theorem asText_of_not_finite (h : x.isFinite = false) :
    x.host.convert .asText = .ok (.string x.text) := by
  rw [← text_wide h]
  simp only [convert_host, NonFinitePolicy.float, ofBinary64?_wide, h, Bool.false_eq_true, if_false]

theorem fail_of_not_finite (h : x.isFinite = false) :
    x.host.convert .fail = .error (.notFinite x.type x.text) := by
  rw [← text_wide h]
  simp only [convert_host, NonFinitePolicy.float, ofBinary64?_wide, h, Bool.false_eq_true, if_false]

theorem Becomes.convert {v : Value} (h : Becomes x v) : x.host.convert .asText = .ok v := by
  cases h with
  | number h => exact convert_of_finite h _
  | text h => exact asText_of_not_finite h

theorem exists_becomes (x : HostFloat) : ∃ v, Becomes x v := by
  cases h : x.isFinite with
  | true => exact ⟨_, .number h⟩
  | false => exact ⟨_, .text h⟩

theorem report_map (xs : List HostFloat) (a : α) (f : α → β) :
    (report xs a).map f = report xs (f a) := by
  rw [report, report]
  cases xs.find? fun x => !x.isFinite <;> rfl

/-- What is reported of one part and then of another is what is reported of both. -/
theorem report_bind (xs ys : List HostFloat) (a : α) (f : α → β) :
    ((report xs a).bind fun a => report ys (f a)) = report (xs ++ ys) (f a) := by
  simp only [report, List.find?_append]
  cases xs.find? fun x => !x.isFinite <;> rfl

theorem report_eq_error {e : ConversionError} : report xs a = .error e ↔
    ∃ before x after, xs = before ++ x :: after ∧ (∀ y ∈ before, y.isFinite = true) ∧
      x.isFinite = false ∧ e = .notFinite x.type x.text := by
  constructor
  · intro h
    rw [report] at h
    cases hx : xs.find? fun x => !x.isFinite with
    | none =>
      rw [hx] at h
      cases h
    | some x =>
      rw [hx] at h
      cases h
      obtain ⟨hfinite, before, after, hxs, hbefore⟩ := List.find?_eq_some_iff_append.mp hx
      exact ⟨before, x, after, hxs, by simpa using hbefore, by simpa using hfinite, rfl⟩
  · rintro ⟨before, x, after, rfl, hbefore, hx, rfl⟩
    have hfirst : (before ++ x :: after).find? (fun x => !x.isFinite) = some x :=
      List.find?_eq_some_iff_append.mpr ⟨by simp [hx], before, after, rfl, by simpa using hbefore⟩
    rw [report, hfirst]

theorem report_eq_ok {b : α} :
    report xs a = .ok b ↔ (∀ x ∈ xs, x.isFinite = true) ∧ b = a := by
  rw [report]
  cases hx : xs.find? fun x => !x.isFinite with
  | some x =>
    have hfinite := List.find?_some hx
    have hmem := List.mem_of_find?_eq_some hx
    refine ⟨nofun, fun h => ?_⟩
    simp [h.1 x hmem] at hfinite
  | none =>
    have hall : ∀ x ∈ xs, x.isFinite = true := by simpa using hx
    refine ⟨fun h => ⟨hall, (Except.ok.inj h).symm⟩, fun h => ?_⟩
    rw [h.2]

end HostFloat

namespace Host

@[elab_as_elim]
theorem induction {motive : Host → Prop} (unit : motive .unit) (boolean : ∀ b, motive (.boolean b))
    (integer : ∀ type z, motive (.integer type z)) (float : ∀ x : HostFloat, motive x.host)
    (character : ∀ c, motive (.character c)) (text : ∀ s, motive (.text s))
    (absent : motive .absent) (present : ∀ h, motive h → motive (.present h))
    (sequence : ∀ hs, (∀ h ∈ hs, motive h) → motive (.sequence hs))
    (mapping : ∀ es, (∀ e ∈ es, motive e.2) → motive (.mapping es))
    (json : ∀ v, motive (.json v)) (h : Host) : motive h :=
  @Host.rec motive (fun hs => ∀ h ∈ hs, motive h) (fun es => ∀ e ∈ es, motive e.2)
    (fun e => motive e.2) unit boolean integer (fun x => float (.single x))
    (fun x => float (.double x)) character text absent present sequence mapping json
    (fun _ h => nomatch h)
    (fun _ _ hh hhs _ h => (List.mem_cons.mp h).elim (fun h => h ▸ hh) (hhs _))
    (fun _ h => nomatch h)
    (fun _ _ he hes _ h => (List.mem_cons.mp h).elim (fun h => h ▸ he) (hes _))
    (fun _ _ h => h) h

mutual
/-- The floating-point numbers inside a value in the order in which it lists them, also those of
entries that a later one with the same name writes over. -/
def floats : Host → List HostFloat
  | binary32 x => [.single x]
  | binary64 x => [.double x]
  | present h => h.floats
  | sequence hs => floatsOfItems hs
  | mapping es => floatsOfEntries es
  | unit | boolean _ | integer _ _ | character _ | text _ | absent | json _ => []
def floatsOfItems : List Host → List HostFloat
  | [] => []
  | h :: hs => h.floats ++ floatsOfItems hs
def floatsOfEntries : List (HostKey × Host) → List HostFloat
  | [] => []
  | (_, h) :: es => h.floats ++ floatsOfEntries es
end

mutual
/-- The value with a text in the place of each floating-point number that is not finite. -/
def spelled : Host → Host
  | binary32 x => if x.isFinite then binary32 x else text (FloatNotation.plain.text x)
  | binary64 x => if x.isFinite then binary64 x else text (FloatNotation.plain.text x)
  | present h => present h.spelled
  | sequence hs => sequence (spelledItems hs)
  | mapping es => mapping (spelledEntries es)
  | unit => unit
  | boolean b => boolean b
  | integer type z => integer type z
  | character c => character c
  | text s => text s
  | absent => absent
  | json v => json v
def spelledItems : List Host → List Host
  | [] => []
  | h :: hs => h.spelled :: spelledItems hs
def spelledEntries : List (HostKey × Host) → List (HostKey × Host)
  | [] => []
  | (k, h) :: es => (k, h.spelled) :: spelledEntries es
end

mutual
/-- What values become where a text stands for a number that is not finite. The entries of a map
become members, of which those with one name leave one. -/
inductive Becomes : Host → Value → Prop where
  | unit : Becomes .unit .null
  | absent : Becomes .absent .null
  | boolean (b : Bool) : Becomes (.boolean b) (.boolean b)
  | integer (type : IntType) (z : Int) : Becomes (.integer type z) (.number (.ofTyped type z))
  | single {x : Binary32} {v : Value} (h : HostFloat.Becomes (.single x) v) :
      Becomes (.binary32 x) v
  | double {x : Binary64} {v : Value} (h : HostFloat.Becomes (.double x) v) :
      Becomes (.binary64 x) v
  | character (c : Char) : Becomes (.character c) (.string c.toString)
  | text (s : String) : Becomes (.text s) (.string s)
  | present {h : Host} {v : Value} (hv : Becomes h v) : Becomes (.present h) v
  | sequence {hs : List Host} {vs : List Value} (hvs : ItemsBecome hs vs) :
      Becomes (.sequence hs) (.array vs)
  | mapping {es : List (HostKey × Host)} {ms : List (String × Value)}
      (hms : EntriesBecome es ms) : Becomes (.mapping es) (.object (OrderedMap.settle ms))
  | json (v : Value) : Becomes (.json v) v
inductive ItemsBecome : List Host → List Value → Prop where
  | nil : ItemsBecome [] []
  | cons {h : Host} {v : Value} {hs : List Host} {vs : List Value} (hv : Becomes h v)
      (hvs : ItemsBecome hs vs) : ItemsBecome (h :: hs) (v :: vs)
inductive EntriesBecome : List (HostKey × Host) → List (String × Value) → Prop where
  | nil : EntriesBecome [] []
  | cons {k : HostKey} {h : Host} {v : Value} {es : List (HostKey × Host)}
      {ms : List (String × Value)} (hv : Becomes h v) (hms : EntriesBecome es ms) :
      EntriesBecome ((k, h) :: es) ((k.name, v) :: ms)
end

def member (e : HostKey × Host) : String × Value := (e.1.name, e.2.toJson)

variable {policy : NonFinitePolicy} {h : Host} {hs : List Host} {es : List (HostKey × Host)}

theorem toJson_of_convert {v : Value} (hv : h.convert .asText = .ok v) : h.toJson = v := by
  rw [toJson, hv]
  rfl

theorem convertItems_ok (hh : ∀ h ∈ hs, h.convert policy = .ok h.toJson) :
    convertItems policy hs = .ok (hs.map toJson) := by
  induction hs with
  | nil => rfl
  | cons h hs ih =>
    have hrest := ih fun g hg => hh g (List.mem_cons_of_mem h hg)
    rw [convertItems, hh h List.mem_cons_self, hrest]
    rfl

theorem convertEntries_ok (he : ∀ e ∈ es, e.2.convert policy = .ok e.2.toJson) (members : Object) :
    convertEntries policy members es = .ok (members.extend (es.map member)) := by
  induction es generalizing members with
  | nil => rfl
  | cons e es ih =>
    have hrest := ih (fun d hd => he d (List.mem_cons_of_mem e hd))
    rw [convertEntries, he e List.mem_cons_self]
    exact hrest _

theorem convert_asText (h : Host) : h.convert .asText = .ok h.toJson := by
  suffices hv : ∃ v, h.convert .asText = .ok v by
    obtain ⟨v, hv⟩ := hv
    rw [hv, toJson_of_convert hv]
  induction h using Host.induction with
  | unit | absent | boolean | integer | character | text | json => exact ⟨_, rfl⟩
  | float x =>
    cases hx : x.isFinite with
    | true => exact ⟨_, HostFloat.convert_of_finite hx _⟩
    | false => exact ⟨_, HostFloat.asText_of_not_finite hx⟩
  | present h ih => exact ih
  | sequence hs ih =>
    have hh : ∀ h ∈ hs, h.convert .asText = .ok h.toJson := fun h hh => by
      obtain ⟨v, hv⟩ := ih h hh
      rw [hv, toJson_of_convert hv]
    exact ⟨_, by rw [convert, convertItems_ok hh]; rfl⟩
  | mapping es ih =>
    have he : ∀ e ∈ es, e.2.convert .asText = .ok e.2.toJson := fun e he => by
      obtain ⟨v, hv⟩ := ih e he
      rw [hv, toJson_of_convert hv]
    exact ⟨_, by rw [convert, convertEntries_ok he]; rfl⟩

@[simp] theorem toJson_present (h : Host) : (present h).toJson = h.toJson :=
  toJson_of_convert (convert_asText h)

@[simp]
theorem toJson_sequence (hs : List Host) : (sequence hs).toJson = .array (hs.map toJson) := by
  apply toJson_of_convert
  rw [convert, convertItems_ok fun h _ => convert_asText h]
  rfl

@[simp] theorem toJson_mapping (es : List (HostKey × Host)) :
    (mapping es).toJson = .object (OrderedMap.ofList (es.map member)) := by
  apply toJson_of_convert
  rw [convert, convertEntries_ok fun e _ => convert_asText e.2]
  rfl

theorem ItemsBecome.of_forall (h : ∀ g ∈ hs, Becomes g g.toJson) :
    ItemsBecome hs (hs.map toJson) := by
  induction hs with
  | nil => exact .nil
  | cons g hs ih =>
    exact .cons (h g List.mem_cons_self) (ih fun g' hg => h g' (List.mem_cons_of_mem g hg))

theorem EntriesBecome.of_forall (h : ∀ e ∈ es, Becomes e.2 e.2.toJson) :
    EntriesBecome es (es.map member) := by
  induction es with
  | nil => exact .nil
  | cons e es ih =>
    exact .cons (h e List.mem_cons_self) (ih fun e' he => h e' (List.mem_cons_of_mem e he))

theorem becomes_toJson (h : Host) : Becomes h h.toJson := by
  induction h using Host.induction with
  | unit => exact .unit
  | absent => exact .absent
  | boolean b => exact .boolean b
  | integer type z => exact .integer type z
  | float x =>
    obtain ⟨v, hv⟩ := x.exists_becomes
    rw [toJson_of_convert hv.convert]
    cases x with
    | single x => exact .single hv
    | double x => exact .double hv
  | character c => exact .character c
  | text s => exact .text s
  | present h ih => simpa using Becomes.present ih
  | sequence hs ih => simpa using Becomes.sequence (.of_forall ih)
  | mapping es ih =>
    rw [toJson_mapping, OrderedMap.ofList_eq_settle]
    exact .mapping (.of_forall ih)
  | json v => exact .json v

mutual
theorem Becomes.eq_toJson : ∀ {h v}, Becomes h v → v = h.toJson
  | _, _, .unit | _, _, .absent | _, _, .boolean _ | _, _, .integer _ _ | _, _, .character _
  | _, _, .text _ | _, _, .json _ => rfl
  | _, _, .single hx | _, _, .double hx => (toJson_of_convert hx.convert).symm
  | _, _, .present hv => by simp [hv.eq_toJson]
  | _, _, .sequence hvs => by simp [hvs.eq_map]
  | _, _, .mapping hms => by
    rw [hms.eq_map, toJson_mapping, OrderedMap.ofList_eq_settle]
theorem ItemsBecome.eq_map : ∀ {hs vs}, ItemsBecome hs vs → vs = hs.map toJson
  | _, _, .nil => rfl
  | _, _, .cons hv hvs => by
    rw [hv.eq_toJson, hvs.eq_map, List.map_cons]
theorem EntriesBecome.eq_map : ∀ {es ms}, EntriesBecome es ms → ms = es.map member
  | _, _, .nil => rfl
  | _, _, .cons hv hms => by
    rw [hv.eq_toJson, hms.eq_map, List.map_cons]
    rfl
end

theorem convert_asText_iff {v : Value} : h.convert .asText = .ok v ↔ Becomes h v := by
  rw [convert_asText]
  constructor
  · rintro ⟨⟩
    exact becomes_toJson h
  · intro hv
    rw [hv.eq_toJson]

@[simp] theorem floats_host (x : HostFloat) : x.host.floats = [x] := by
  cases x <;> rfl

theorem convertItems_fail (hh : ∀ h ∈ hs, h.convert .fail = HostFloat.report h.floats h.toJson) :
    convertItems .fail hs = HostFloat.report (floatsOfItems hs) (hs.map toJson) := by
  induction hs with
  | nil => rfl
  | cons h hs ih =>
    have hrest := ih fun g hg => hh g (List.mem_cons_of_mem h hg)
    rw [convertItems, hh h List.mem_cons_self, hrest]
    simp only [HostFloat.report_map]
    exact HostFloat.report_bind _ _ _ _

theorem convertEntries_fail
    (he : ∀ e ∈ es, e.2.convert .fail = HostFloat.report e.2.floats e.2.toJson) (members : Object) :
    convertEntries .fail members es =
      HostFloat.report (floatsOfEntries es) (members.extend (es.map member)) := by
  induction es generalizing members with
  | nil => rfl
  | cons e es ih =>
    have hrest := ih fun d hd => he d (List.mem_cons_of_mem e hd)
    rw [convertEntries, he e List.mem_cons_self]
    simp only [hrest]
    exact HostFloat.report_bind _ _ _ _

/-- Where texts are not allowed, the first number that is not finite is the error. -/
theorem convert_fail (h : Host) : h.convert .fail = HostFloat.report h.floats h.toJson := by
  -- The result is written with `report` throughout, so that parts only have to be put together.
  induction h using Host.induction with
  | unit | absent | boolean | integer | character | text | json => rfl
  | float x =>
    rw [floats_host]
    cases hx : x.isFinite with
    | true =>
      rw [HostFloat.convert_of_finite hx, toJson_of_convert (HostFloat.convert_of_finite hx _),
        HostFloat.report, List.find?_cons_of_neg (by simp [hx])]
      rfl
    | false =>
      rw [HostFloat.fail_of_not_finite hx, HostFloat.report, List.find?_cons_of_pos (by simp [hx])]
  | present h ih =>
    rw [toJson_present]
    exact ih
  | sequence hs ih =>
    rw [convert, convertItems_fail ih, toJson_sequence]
    exact HostFloat.report_map _ _ _
  | mapping es ih =>
    rw [convert, convertEntries_fail ih, toJson_mapping]
    exact HostFloat.report_map _ _ _

@[simp] theorem spelledItems_eq_map (hs : List Host) : spelledItems hs = hs.map spelled := by
  induction hs with
  | nil => rfl
  | cons h hs ih => rw [spelledItems, ih, List.map_cons]

@[simp] theorem spelledEntries_eq_map (es : List (HostKey × Host)) :
    spelledEntries es = es.map fun e => (e.1, e.2.spelled) := by
  induction es with
  | nil => rfl
  | cons e es ih => rw [spelledEntries, ih, List.map_cons]

theorem spelled_float (x : HostFloat) :
    x.host.spelled = if x.isFinite then x.host else .text x.text := by
  cases x <;> rfl

theorem toJson_spelled (h : Host) : h.spelled.toJson = h.toJson := by
  induction h using Host.induction with
  | unit | absent | boolean | integer | character | text | json => rfl
  | float x =>
    rw [spelled_float]
    cases hx : x.isFinite with
    | true => rfl
    | false => exact (toJson_of_convert (HostFloat.asText_of_not_finite hx)).symm
  | present h ih => simpa [spelled] using ih
  | sequence hs ih => simpa [spelled] using ih
  | mapping es ih =>
    have hmembers : (es.map fun e => (e.1, e.2.spelled)).map member = es.map member := by
      rw [List.map_map]
      exact List.map_congr_left fun e he => Prod.ext rfl (ih e he)
    rw [spelled, spelledEntries_eq_map, toJson_mapping, toJson_mapping, hmembers]

theorem floats_spelled (h : Host) : h.spelled.floats = h.floats.filter HostFloat.isFinite := by
  induction h using Host.induction with
  | unit | absent | boolean | integer | character | text | json => rfl
  | float x =>
    rw [spelled_float, floats_host]
    cases hx : x.isFinite with
    | true => simp [hx]
    | false => simp [floats, hx]
  | present h ih => exact ih
  | sequence hs ih =>
    rw [spelled, floats, floats]
    induction hs with
    | nil => rfl
    | cons h hs hrest =>
      rw [spelledItems, floatsOfItems, floatsOfItems, List.filter_append, ih h List.mem_cons_self,
        hrest fun g hg => ih g (List.mem_cons_of_mem h hg)]
  | mapping es ih =>
    rw [spelled, floats, floats]
    induction es with
    | nil => rfl
    | cons e es hrest =>
      rw [spelledEntries, floatsOfEntries, floatsOfEntries, List.filter_append,
        ih e List.mem_cons_self, hrest fun d hd => ih d (List.mem_cons_of_mem e hd)]

/-- With texts every value is converted part by part, so that nothing becomes null for want of a
counterpart, and the texts stand where the numbers that are not finite were. Without them the first
such number is the error, in whichever entry it is, and a value that has none becomes what it would
become with texts. -/
theorem convert_policies (h : Host) :
    h.convert .asText = .ok h.toJson ∧
    (∀ v, h.convert .asText = .ok v ↔ Becomes h v) ∧
    (∀ e, h.convert .fail = .error e ↔ ∃ before x after, h.floats = before ++ x :: after ∧
      (∀ y ∈ before, y.isFinite = true) ∧ x.isFinite = false ∧ e = .notFinite x.type x.text) ∧
    (∀ v, h.convert .fail = .ok v ↔ (∀ x ∈ h.floats, x.isFinite = true) ∧ v = h.toJson) ∧
    (∀ policy, h.spelled.convert policy = .ok h.toJson) ∧
    h.spelled.floats = h.floats.filter HostFloat.isFinite := by
  refine ⟨convert_asText h, fun v => convert_asText_iff, fun e => ?_, fun v => ?_,
    fun policy => ?_, floats_spelled h⟩
  · rw [convert_fail]
    exact HostFloat.report_eq_error
  · rw [convert_fail]
    exact HostFloat.report_eq_ok
  · cases policy with
    | asText => rw [convert_asText, toJson_spelled]
    | fail =>
      rw [convert_fail, toJson_spelled, HostFloat.report_eq_ok, floats_spelled]
      exact ⟨fun x hx => (List.mem_filter.mp hx).2, rfl⟩

/-- An entry that is written over is the error all the same. With texts nothing is seen of it, but an
infinity inside a sequence is a leaf. -/
theorem convert_policies_overwritten :
    ∃ h, h = mapping [(.integer 1, binary32 ⟨0x7fc00000⟩),
        (.text "a", sequence [boolean true, present (binary64 ⟨0xfff0000000000000⟩), unit]),
        (.text "1", integer ⟨false, .w8⟩ 7)] ∧
      h.convert .fail = .error (.notFinite "f32" "NaN") ∧
      h.convert .asText = .ok (.object [("1", .number (.int64 7)),
        ("a", .array [.boolean true, .string "-inf", .null])]) := by
  obtain ⟨-, htext, hfail, -⟩ := convert_policies (mapping [(.integer 1, binary32 ⟨0x7fc00000⟩),
    (.text "a", sequence [boolean true, present (binary64 ⟨0xfff0000000000000⟩), unit]),
    (.text "1", integer ⟨false, .w8⟩ 7)])
  refine ⟨_, rfl, ?_, ?_⟩
  · exact (hfail _).mpr ⟨[], .single ⟨0x7fc00000⟩, [.double ⟨0xfff0000000000000⟩], rfl,
      List.forall_mem_nil _, by decide, by decide⟩
  · have hnan : (HostFloat.single ⟨0x7fc00000⟩).isFinite = false := by decide
    have hinf : (HostFloat.double ⟨0xfff0000000000000⟩).isFinite = false := by decide
    exact (htext _).mpr (.mapping (.cons (.single (.text hnan))
      (.cons (.sequence (.cons (.boolean true) (.cons (.present (.double (.text hinf)))
        (.cons .unit .nil)))) (.cons (.integer ⟨false, .w8⟩ 7) .nil))))

end Host
end ExactJson
