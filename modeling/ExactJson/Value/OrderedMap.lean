/-!
Maps that remember the order in which their keys came. A key that is written again keeps its place,
and one that is removed and written again comes last.
-/
namespace ExactJson

/-- The entries of a map in order. The operations below never make two entries with one key. -/
abbrev OrderedMap (κ α : Type) := List (κ × α)

namespace OrderedMap
variable {κ α : Type} [DecidableEq κ]

def keys (m : OrderedMap κ α) : List κ := m.map Prod.fst

def values (m : OrderedMap κ α) : List α := m.map Prod.snd

def get? (m : OrderedMap κ α) (k : κ) : Option α :=
  match m with
  | [] => none
  | (j, a) :: m => if j = k then some a else get? m k

def contains (m : OrderedMap κ α) (k : κ) : Bool := (m.get? k).isSome

def insert (m : OrderedMap κ α) (k : κ) (a : α) : OrderedMap κ α :=
  match m with
  | [] => [(k, a)]
  | (j, b) :: m => if j = k then (j, a) :: m else (j, b) :: insert m k a

def erase (m : OrderedMap κ α) (k : κ) : OrderedMap κ α :=
  match m with
  | [] => []
  | (j, b) :: m => if j = k then m else (j, b) :: erase m k

def put (m : OrderedMap κ α) (k : κ) (a : α) : Option α × OrderedMap κ α :=
  match m with
  | [] => (none, [(k, a)])
  | (j, b) :: m =>
    if j = k then (some b, (j, a) :: m)
    else
      let (old, m) := put m k a
      (old, (j, b) :: m)

def pop (m : OrderedMap κ α) (k : κ) : Option α × OrderedMap κ α :=
  match m with
  | [] => (none, [])
  | (j, b) :: m =>
    if j = k then (some b, m)
    else
      let (old, m) := pop m k
      (old, (j, b) :: m)

def replace? (m : OrderedMap κ α) (k : κ) (a : α) : Option (OrderedMap κ α) :=
  if m.contains k then some (m.insert k a) else none

def extend (m : OrderedMap κ α) (entries : List (κ × α)) : OrderedMap κ α :=
  entries.foldl (fun m e => m.insert e.1 e.2) m

def ofList (entries : List (κ × α)) : OrderedMap κ α := extend [] entries

def overwrite (m : OrderedMap κ α) (f : κ → Option α) : OrderedMap κ α :=
  m.map fun e => (e.1, (f e.1).getD e.2)

def fill (m : OrderedMap κ α) (a : α) : OrderedMap κ α := m.map fun e => (e.1, a)

end OrderedMap
end ExactJson
