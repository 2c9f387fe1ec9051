import LayeredConfig.Error
import LayeredConfig.Value.Canonical
import LayeredConfig.Value.Path

/-! # Intersection and subtraction

Both compare a candidate with a baseline over the keys they share. The intersection keeps what is common
and marks what differs as required; the subtraction keeps what the candidate needs on top of the
baseline. The elements of lists are paired by the entity they name.
-/
namespace LayeredConfig

inductive Comparison where
  | intersect
  | subtract
deriving DecidableEq

/-- Where list elements name their entity: the first path that both elements have decides. -/
def defaultMatchers : List String := ["name", "metadata.name"]

namespace Value

def entityName? (v : Value) : List String → Option Value
  | [] => some v
  | key :: rest => (v.field? key).bind (·.entityName? rest)

def correlates (matchers : List String) (a b : Value) : Bool :=
  match matchers.findSome? fun m =>
    (a.entityName? (segments m)).bind fun x => (b.entityName? (segments m)).map fun y => (x, y) with
  | some (x, y) => x.same y
  | none => false

end Value

namespace Comparison

def rootName : Comparison → String
  | intersect => "$<intersect>"
  | subtract => "$<subtract>"

/-- What stands for two values that have nothing in common. -/
def mismatch : Comparison → Value → Value
  | intersect, _ => .string requiredMark
  | subtract, a => a

def agreement : Comparison → Value → Option Value
  | intersect, a => some a
  | subtract, _ => none

def exhausted : Comparison → Option Value
  | intersect => some (.list [.string requiredMark])
  | subtract => none

def isEmptyMap : Value → Bool
  | .map [] => true
  | _ => false

/-- Whether two shared fields are passed over: a subtraction does not look at two nulls. -/
def skips (c : Comparison) (a b : Value) : Bool := c = subtract && a.isNull && b.isNull

def compareScalars (c : Comparison) (a b : Value) : Option Value :=
  if a.same b then c.agreement a else some (c.mismatch a)

mutual

/-- Compares two values at a path below the root; `none` stands for nothing. -/
def compareAt (c : Comparison) (matchers : List String) (path : String) (depth : Nat) (b : Value) :
    Value → Except Error (Option Value)
  | .null =>
    if depthLimit < depth then .error (.context path .tooDeep) else .ok none
  | .map a =>
    if depthLimit < depth then .error (.context path .tooDeep)
    else match b with
      | .null => .ok none
      | .map b => do
        let kept ← compareFields c matchers path depth b a
        .ok (some (.map kept))
      | _ => .ok (some (c.mismatch (.map a)))
  | .list a =>
    if depthLimit < depth then .error (.context path .tooDeep)
    else match b with
      | .null => .ok none
      | .list b => do
        match ← compareItems c matchers path depth b a with
        | [] => .ok c.exhausted
        | kept => .ok (some (.list kept))
      | _ => .ok (some (c.mismatch (.list a)))
  | a =>
    if depthLimit < depth then .error (.context path .tooDeep)
    else match b with
      | .null => .ok none
      | b => .ok (c.compareScalars a b)

/-- Compares the fields that both maps have and drops those of which an empty map is left. -/
def compareFields (c : Comparison) (matchers : List String) (path : String) (depth : Nat)
    (b : Fields) : List (String × Value) → Except Error Fields
  | [] => .ok []
  | (key, a) :: rest =>
    match Fields.get? key b with
    | none => compareFields c matchers path depth b rest
    | some other =>
      if c.skips a other then compareFields c matchers path depth b rest
      else do
        let kept ← compareAt c matchers (path ++ "." ++ key) (depth + 1) other a
        let results ← compareFields c matchers path depth b rest
        .ok (match kept with
          | some v => if isEmptyMap v then results else (key, v) :: results
          | none => results)

/-- Compares each map with the first map that names the same entity and keeps all other elements. -/
def compareItems (c : Comparison) (matchers : List String) (path : String) (depth : Nat)
    (b : List Value) : List Value → Except Error (List Value)
  | [] => .ok []
  | .map a :: rest =>
    match b.find? (Value.correlates matchers (.map a)) with
    | some (.map partner) => do
      let kept ← compareFields c matchers path (depth + 1) partner a
      let results ← compareItems c matchers path depth b rest
      .ok (if kept.isEmpty then results else .map kept :: results)
    | _ => do
      let results ← compareItems c matchers path depth b rest
      .ok (.map a :: results)
  | a :: rest => do
    let results ← compareItems c matchers path depth b rest
    .ok (a :: results)

end

def compare (c : Comparison) (matchers : List String) (a b : Value) : Except Error Value := do
  let result ← compareAt c matchers c.rootName 0 b.canonical a.canonical
  .ok (result.getD .null)

end Comparison

/-- The shape that two values have in common, with a required mark where they differ. -/
def intersect (a b : Value) : Except Error Value := Comparison.intersect.compare defaultMatchers a b

/-- What, merged onto `b`, supplies what `a` holds differently. -/
def subtract (a b : Value) : Except Error Value := Comparison.subtract.compare defaultMatchers a b

end LayeredConfig
