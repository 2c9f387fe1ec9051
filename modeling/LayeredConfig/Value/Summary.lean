import LayeredConfig.Json.Text

/-! # Values in messages -/
namespace LayeredConfig.Value

def summaryLimit : Nat := 80

def summary (v : Value) : String :=
  let cs := Json.compact v
  if cs.length ≤ summaryLimit then String.ofList cs
  else String.ofList (cs.take summaryLimit ++ ['.', '.', '.'])

end LayeredConfig.Value
