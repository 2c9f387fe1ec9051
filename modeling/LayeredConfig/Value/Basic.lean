import LayeredConfig.Number

/-! # Configuration values

A value is the tree that every document is made of. A map is a list of fields in ascending order of
their keys, each key once; the operations on fields keep that order, and `Value.Ordered` says it of a
whole tree. Ascending order of strings is the order of their code points, which is also the order of
their bytes.
-/
namespace LayeredConfig

inductive Value where
  | null
  | bool (b : Bool)
  | number (n : Number)
  | string (s : String)
  | list (items : List Value)
  | map (fields : List (String × Value))

abbrev Fields := List (String × Value)

inductive Kind where
  | null | bool | number | string | list | map
deriving DecidableEq

def Kind.name : Kind → String
  | null => "null"
  | bool => "bool"
  | number => "number"
  | string => "string"
  | list => "list"
  | map => "map"

namespace Fields

def get? (key : String) : Fields → Option Value
  | [] => none
  | (k, v) :: rest => if k = key then some v else get? key rest

def contains (key : String) (fields : Fields) : Bool := (get? key fields).isSome

def insert (key : String) (value : Value) : Fields → Fields
  | [] => [(key, value)]
  | (k, v) :: rest =>
    if key = k then (key, value) :: rest
    else if key < k then (key, value) :: (k, v) :: rest
    else (k, v) :: insert key value rest

def erase (key : String) : Fields → Fields
  | [] => []
  | (k, v) :: rest => if k = key then rest else (k, v) :: erase key rest

/-- Fields from a list in which a later value of a key replaces an earlier one. -/
def ofList (pairs : List (String × Value)) : Fields :=
  pairs.foldl (fun fields (k, v) => insert k v fields) []

def Ascending (fields : Fields) : Prop := fields.Pairwise (·.1 < ·.1)

end Fields

namespace Value

instance : Inhabited Value := ⟨null⟩

def kind : Value → Kind
  | null => .null
  | bool _ => .bool
  | number _ => .number
  | string _ => .string
  | list _ => .list
  | map _ => .map

def isNull : Value → Bool
  | null => true
  | _ => false

def integer? (i : Int) : Option Value := (Integer.ofInt? i).map fun n => number (.integer n)

def field? (key : String) : Value → Option Value
  | map fields => Fields.get? key fields
  | _ => none

def hasKey (v : Value) (key : String) : Bool := (v.field? key).isSome

mutual

/-- Equality as documents are compared: floats by their value. -/
def same : Value → Value → Bool
  | null, null => true
  | bool a, bool b => a == b
  | number m, number n => m.same n
  | string s, string t => s == t
  | list xs, list ys => sameItems xs ys
  | map fs, map gs => sameFields fs gs
  | _, _ => false

def sameItems : List Value → List Value → Bool
  | [], [] => true
  | x :: xs, y :: ys => x.same y && sameItems xs ys
  | _, _ => false

def sameFields : List (String × Value) → List (String × Value) → Bool
  | [], [] => true
  | (k, x) :: fs, (l, y) :: gs => k == l && x.same y && sameFields fs gs
  | _, _ => false

end

mutual

def Ordered : Value → Prop
  | list items => OrderedItems items
  | map fields => Fields.Ascending fields ∧ OrderedFields fields
  | _ => True

def OrderedItems : List Value → Prop
  | [] => True
  | v :: rest => v.Ordered ∧ OrderedItems rest

def OrderedFields : List (String × Value) → Prop
  | [] => True
  | (_, v) :: rest => v.Ordered ∧ OrderedFields rest

end

mutual

def height : Value → Nat
  | list items => heightItems items + 1
  | map fields => heightFields fields + 1
  | _ => 0

def heightItems : List Value → Nat
  | [] => 0
  | v :: rest => max v.height (heightItems rest)

def heightFields : List (String × Value) → Nat
  | [] => 0
  | (_, v) :: rest => max v.height (heightFields rest)

end

end Value
end LayeredConfig
