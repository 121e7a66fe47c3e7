import ExactJson.Value.Basic

/-!
The values that programs hold, which are exchanged with JSON values: numbers of many types, options,
sequences and maps.
-/
namespace ExactJson

/-- A key of a map. Keys of different types are different even where they read the same. -/
inductive HostKey where
  | text (s : String)
  | integer (z : Int)
  | boolean (b : Bool)
  | character (c : Char)
deriving DecidableEq, Repr

namespace HostKey

def name : HostKey → String
  | text s => s
  | integer z => Integer.text z
  | boolean true => "true"
  | boolean false => "false"
  | character c => c.toString

/-- The order of keys in a sorted map: integers by size, texts by their bytes, which is by code
points. -/
def before : HostKey → HostKey → Bool
  | text s, text t => s < t
  | integer y, integer z => y < z
  | boolean a, boolean b => !a && b
  | character c, character d => c < d
  | text _, _ => true
  | integer _, boolean _ | integer _, character _ | boolean _, character _ => true
  | _, _ => false

end HostKey

/-- A value that a program holds. The entries of a map stand in the order in which it lists them. -/
inductive Host where
  | unit
  | boolean (b : Bool)
  | integer (type : IntType) (z : Int)
  | binary32 (x : Binary32)
  | binary64 (x : Binary64)
  | character (c : Char)
  | text (s : String)
  | absent
  | present (h : Host)
  | sequence (items : List Host)
  | mapping (entries : List (HostKey × Host))
  | json (v : Value)

inductive MapOrder where
  /-- By the keys. A map without an order of its own is listed so, too. -/
  | sorted
  | insertion
deriving DecidableEq, Repr

namespace MapOrder

def insertSorted (k : HostKey) (h : Host) : List (HostKey × Host) → List (HostKey × Host)
  | [] => [(k, h)]
  | (j, g) :: entries =>
    if j = k then (k, h) :: entries
    else if HostKey.before k j then (k, h) :: (j, g) :: entries
    else (j, g) :: insertSorted k h entries

def arrange (order : MapOrder) (entries : List (HostKey × Host)) : List (HostKey × Host) :=
  match order with
  | sorted => entries.foldl (fun m e => insertSorted e.1 e.2 m) []
  | insertion => OrderedMap.ofList entries

end MapOrder

/-- What a program asks for when it reads a JSON value. The keys of its maps are texts. -/
inductive HostType where
  | boolean
  | integer (type : IntType)
  | binary32
  | binary64
  | text
  | json
  | option (t : HostType)
  | sequence (t : HostType)
  | mapping (order : MapOrder) (t : HostType)
deriving DecidableEq, Repr

inductive Wanted where
  | kind (k : ValueKind)
  | integer
deriving DecidableEq, Repr

def Wanted.name : Wanted → String
  | kind k => k.name
  | integer => "integer"

inductive ConversionError where
  /-- A floating-point number that has no literal. -/
  | notFinite (type : String) (text : String)
  | outOfRange (type : String) (text : String)
  | mismatch (wanted : Wanted) (found : ValueKind)
deriving DecidableEq, Repr

namespace ConversionError

def type? : ConversionError → Option String
  | notFinite type _ | outOfRange type _ => some type
  | mismatch _ _ => none

def reason : ConversionError → String
  | notFinite _ text => text ++ " is not a finite number"
  | outOfRange _ text => text ++ " is out of range"
  | mismatch wanted found => "expected " ++ wanted.name ++ ", found " ++ found.name

def message (e : ConversionError) : String :=
  match e.type? with
  | some type => "cannot convert " ++ type ++ ": " ++ e.reason
  | none => e.reason

end ConversionError
end ExactJson
