import ExactJson.Host.Basic

/-!
From JSON values to values of programs. All parts have to be what the type asks for; of those that
are not, the first in the order of the document is reported.
-/
namespace ExactJson.HostType

/-- The integer of a number in an integer representation. Other numbers are none, even where they
are whole. -/
def readInteger (type : IntType) (v : Value) : Except ConversionError Int :=
  match v.number?.filter Number.isInteger with
  | none => .error (.mismatch .integer v.kind)
  | some n => match n.toInt? type with
    | some z => .ok z
    | none => .error (.outOfRange type.name n.text)

def readBinary64 (v : Value) : Except ConversionError Binary64 :=
  match v.number? with
  | none => .error (.mismatch (.kind .number) v.kind)
  | some n => match n.binary64? with
    | some x => .ok x
    | none => .error (.outOfRange "f64" n.text)

def readBinary32 (v : Value) : Except ConversionError Binary32 :=
  (readBinary64 v).bind fun wide =>
    let narrow : Binary32 := wide.convert
    if narrow.isFinite then .ok narrow
    else .error (.outOfRange "f32" (FloatNotation.plain.text wide))

def read : HostType → Value → Except ConversionError Host
  | boolean, v => match v.boolean? with
    | some b => .ok (.boolean b)
    | none => .error (.mismatch (.kind .boolean) v.kind)
  | integer type, v => (readInteger type v).map (.integer type)
  | binary32, v => (readBinary32 v).map .binary32
  | binary64, v => (readBinary64 v).map .binary64
  | text, v => match v.string? with
    | some s => .ok (.text s)
    | none => .error (.mismatch (.kind .string) v.kind)
  | json, v => .ok (.json v)
  | option t, v => match v with
    | .null => .ok .absent
    | v => (read t v).map .present
  | sequence t, v => match v.array? with
    | some items => (items.mapM (read t)).map .sequence
    | none => .error (.mismatch (.kind .array) v.kind)
  | mapping order t, v => match v.object? with
    | some members =>
      (members.mapM fun e => (read t e.2).map fun h => (HostKey.text e.1, h)).map fun entries =>
        .mapping (order.arrange entries)
    | none => .error (.mismatch (.kind .object) v.kind)

end ExactJson.HostType
