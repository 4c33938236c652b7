/-!
JSON documents as the syntax-tree format and the command line use them. Integers and floats are
kept apart, because a reader of the format treats `1` and `1.0` differently, and an object is the
list of its fields in the order their keys first appeared.
-/

namespace Lox

inductive Json where
  | null
  | bool (b : Bool)
  -- A number written without fraction or exponent.
  | int (n : Int)
  -- A number written with a fraction or an exponent, or one of `NaN`, `Infinity`.
  | float (x : Float)
  | str (s : String)
  | arr (items : List Json)
  -- An object, its fields in first-insertion order with no key twice.
  | obj (fields : List (String × Json))
  deriving Inhabited

namespace Json

/-- The value stored under a key, if the document is an object that has the key. -/
def get? : Json → String → Option Json
  | .obj fields, k => fields.lookup k
  | _, _ => none

/-- Stores a value under a key: a key already present keeps its place and takes the new value. -/
def setField : List (String × Json) → String → Json → List (String × Json)
  | [], k, v => [(k, v)]
  | (k', v') :: rest, k, v => if k' = k then (k, v) :: rest else (k', v') :: setField rest k v

/-- The object of the given fields, later duplicates overwriting earlier ones in place. -/
def ofFields (fields : List (String × Json)) : Json :=
  .obj (fields.foldl (fun acc kv => setField acc kv.1 kv.2) [])

mutual

/-- How deeply arrays and objects nest: zero for a scalar. -/
def depth : Json → Nat
  | .arr items => depthOfItems items + 1
  | .obj fields => depthOfFields fields + 1
  | _ => 0

def depthOfItems : List Json → Nat
  | [] => 0
  | j :: rest => max (depth j) (depthOfItems rest)

def depthOfFields : List (String × Json) → Nat
  | [] => 0
  | (_, j) :: rest => max (depth j) (depthOfFields rest)

end

end Json

end Lox
