import LayeredConfig.Error

/-! # Output

An evaluated document is split into the maps it selects for output, or is put out whole when it selects
none. What is put out must be finished: no directive and no required mark may be left in it.
-/
namespace LayeredConfig

def isSelected (fields : Fields) : Bool :=
  match Fields.get? Directive.output.key fields with
  | some (.bool true) => true
  | _ => false

namespace Value

mutual

/-- The outermost selected maps in document order, each without its own mark. -/
def selected : Value → List Value
  | map fields =>
    if isSelected fields then [map (Fields.erase Directive.output.key fields)]
    else selectedFields fields
  | list items => selectedItems items
  | _ => []

def selectedItems : List Value → List Value
  | [] => []
  | v :: rest => v.selected ++ selectedItems rest

def selectedFields : List (String × Value) → List Value
  | [] => []
  | (_, v) :: rest => v.selected ++ selectedFields rest

end

mutual

def hasSelection : Value → Bool
  | map fields => isSelected fields || hasSelectionFields fields
  | list items => hasSelectionItems items
  | _ => false

def hasSelectionItems : List Value → Bool
  | [] => false
  | v :: rest => v.hasSelection || hasSelectionItems rest

def hasSelectionFields : List (String × Value) → Bool
  | [] => false
  | (_, v) :: rest => v.hasSelection || hasSelectionFields rest

end

def outputs (v : Value) : List Value := if v.hasSelection then v.selected else [v]

mutual

/-- Fails with the first directive or required mark. `place` leads to the value, innermost first. -/
def checkAt (place : List String) : Value → Except Error Unit
  | map fields => checkFields place fields
  | list items => checkItems place 0 items
  | string s => if s = requiredMark then .error (.requiredMissing place.reverse) else .ok ()
  | _ => .ok ()

def checkItems (place : List String) (index : Nat) : List Value → Except Error Unit
  | [] => .ok ()
  | v :: rest => do
    v.checkAt (toString index :: place)
    checkItems place (index + 1) rest

def checkFields (place : List String) : List (String × Value) → Except Error Unit
  | [] => .ok ()
  | (key, v) :: rest => do
    if Directive.isKey key then .error (.leftoverDirective (key :: place).reverse key)
    v.checkAt (key :: place)
    checkFields place rest

end

def checkFinished (v : Value) : Except Error Unit := v.checkAt []

mutual

/-- The required marks of a value with the lists and maps that lead to them, if there are any. -/
def required? : Value → Option Value
  | map fields =>
    match requiredFields fields with
    | [] => none
    | kept => some (map kept)
  | list items =>
    match requiredItems items with
    | [] => none
    | kept => some (list kept)
  | string s => if s = requiredMark then some (string s) else none
  | _ => none

def requiredItems : List Value → List Value
  | [] => []
  | v :: rest => v.required?.toList ++ requiredItems rest

def requiredFields : List (String × Value) → List (String × Value)
  | [] => []
  | (key, v) :: rest =>
    match v.required? with
    | some kept => (key, kept) :: requiredFields rest
    | none => requiredFields rest

end

end Value
end LayeredConfig
