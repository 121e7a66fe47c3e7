import ExactJson.Value.Basic

/-!
Places inside a value, as the names and indices that lead to them, and the change of one place.
-/
namespace ExactJson

inductive PathStep where
  | name (k : String)
  | index (i : Nat)
deriving DecidableEq, Repr

abbrev Path := List PathStep

namespace Value

def child? (v : Value) : PathStep → Option Value
  | .name k => v.member? k
  | .index i => v.item? i

def setChild (v : Value) (w : Value) : PathStep → Value
  | .name k => match v with
    | object members => object (OrderedMap.insert members k w)
    | _ => v
  | .index i => match v with
    | array items => array (items.set i w)
    | _ => v

def at? (v : Value) : Path → Option Value
  | [] => some v
  | s :: p => (v.child? s).bind fun w => w.at? p

/-- Edits the value at the end of a path where it stands, and gives back what the edit gives, if the
path leads anywhere. -/
def editAt {α : Type} (v : Value) (p : Path) (edit : Value → α × Value) : Option α × Value :=
  match p with
  | [] =>
    let (a, w) := edit v
    (some a, w)
  | s :: p =>
    match v.child? s with
    | none => (none, v)
    | some u =>
      let (a, w) := u.editAt p edit
      (a, v.setChild w s)

def setAt? (v : Value) (p : Path) (w : Value) : Option Value :=
  let (done, v) := v.editAt p fun _ => ((), w)
  done.map fun _ => v

end Value
end ExactJson
