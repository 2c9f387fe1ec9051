import LayeredConfig.Value.Basic

/-! # Patterns

A pattern is a value that describes others: a map constrains the keys it defines and no more, a list
matches a list of the same length element by element, and a scalar matches an equal scalar.
-/
namespace LayeredConfig.Value

mutual

def satisfies (v : Value) : Value → Bool
  | map wanted => match v with
    | map fields => satisfiesFields fields wanted
    | _ => false
  | list wanted => match v with
    | list items => satisfiesItems items wanted
    | _ => false
  | .null => v.same .null
  | .bool b => v.same (.bool b)
  | .number n => v.same (.number n)
  | .string s => v.same (.string s)

def satisfiesItems : List Value → List Value → Bool
  | [], [] => true
  | v :: vs, p :: ps => v.satisfies p && satisfiesItems vs ps
  | _, _ => false

def satisfiesFields (fields : List (String × Value)) : List (String × Value) → Bool
  | [] => true
  | (k, p) :: rest =>
    (match Fields.get? k fields with
    | some v => v.satisfies p
    | none => false) && satisfiesFields fields rest

end

end LayeredConfig.Value
