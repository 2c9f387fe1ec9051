import LayeredConfig.Value.Basic

/-! # Dotted paths

A dotted path selects map entries by key and list entries by decimal index. A path that ends on `null`
counts as unresolved, because `null` stands for deletion.
-/
namespace LayeredConfig

/-- The value of a list index: decimal digits, perhaps after a plus sign, below `2 ^ 64`. -/
def listIndex? (segment : String) : Option Nat :=
  let digits := match segment.toList with
    | '+' :: rest => rest
    | cs => cs
  if digits ≠ [] ∧ digits.all Char.isDigit then
    let n := digits.foldl (fun n c => 10 * n + (c.toNat - '0'.toNat)) 0
    if n < 18446744073709551616 then some n else none
  else none

def splitDots : List Char → List (List Char)
  | [] => [[]]
  | c :: rest =>
    if c = '.' then [] :: splitDots rest
    else match splitDots rest with
      | [] => [[c]]
      | piece :: pieces => (c :: piece) :: pieces

def segments (path : String) : List String := (splitDots path.toList).map String.ofList

namespace Value

def step (v : Value) (segment : String) : Option Value :=
  match v with
  | map fields => Fields.get? segment fields
  | list items => (listIndex? segment).bind (items[·]?)
  | _ => none

def follow (v : Value) : List String → Option Value
  | [] => some v
  | s :: rest => (v.step s).bind (·.follow rest)

/-- The value a dotted path leads to, unless that is `null`; the empty path leads to the root. -/
def atPath? (root : Value) (path : String) : Option Value :=
  (if path = "" then some root else root.follow (segments path)).filter (!·.isNull)

end Value
end LayeredConfig
