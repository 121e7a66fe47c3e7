import ExactJson.Host.Basic

/-!
From values of programs to JSON values. All of them have a counterpart but the floating-point
numbers that are not finite: these become their text, or an error if that is asked for.
-/
namespace ExactJson

inductive NonFinitePolicy where
  | asText
  | fail
deriving DecidableEq, Repr

def NonFinitePolicy.float (policy : NonFinitePolicy) (type : String) (x : Binary64) :
    Except ConversionError Value :=
  match Number.ofBinary64? x, policy with
  | some n, _ => .ok (.number n)
  | none, asText => .ok (.string (FloatNotation.plain.text x))
  | none, fail => .error (.notFinite type (FloatNotation.plain.text x))

namespace Host

mutual
/-- The JSON value of a value. The members of a map are written in its order, so that of two keys
with one name the first gives the place and the last the value. -/
def convert (policy : NonFinitePolicy) : Host → Except ConversionError Value
  | unit | absent => .ok .null
  | boolean b => .ok (.boolean b)
  | integer type z => .ok (.number (.ofTyped type z))
  | binary32 x => policy.float "f32" x.convert
  | binary64 x => policy.float "f64" x
  | character c => .ok (.string c.toString)
  | text s => .ok (.string s)
  | present h => h.convert policy
  | sequence items => (convertItems policy items).map .array
  | mapping entries => (convertEntries policy [] entries).map .object
  | json v => .ok v
def convertItems (policy : NonFinitePolicy) : List Host → Except ConversionError (List Value)
  | [] => .ok []
  | h :: hs =>
    (h.convert policy).bind fun v => (convertItems policy hs).map fun vs => v :: vs
def convertEntries (policy : NonFinitePolicy) (members : Object) :
    List (HostKey × Host) → Except ConversionError Object
  | [] => .ok members
  | (k, h) :: entries =>
    (h.convert policy).bind fun v => convertEntries policy (members.insert k.name v) entries
end

def toJson (h : Host) : Value := (h.convert .asText).toOption.getD .null

end Host

def Value.leaf (text : String) : Value := .string text

end ExactJson
