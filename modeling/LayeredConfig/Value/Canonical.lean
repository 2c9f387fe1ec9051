import LayeredConfig.Value.Basic

/-! # Canonical values

Decoders differ in how they represent one logical value. The canonical form of a tree has integers in
place of integral floats, and the text of a date or time in place of the one-field map that carries it.
-/
namespace LayeredConfig

def datetimeKey : String := "$__toml_private_datetime"

namespace Value

mutual

def canonical : Value → Value
  | null => null
  | bool b => bool b
  | number n => number n.canonical
  | string s => string s
  | list items => list (canonicalItems items)
  | map [(key, string text)] =>
    if key = datetimeKey then string text else map [(key, string text)]
  | map fields => map (canonicalFields fields)

def canonicalItems : List Value → List Value
  | [] => []
  | v :: rest => v.canonical :: canonicalItems rest

def canonicalFields : List (String × Value) → List (String × Value)
  | [] => []
  | (k, v) :: rest => (k, v.canonical) :: canonicalFields rest

end

end Value
end LayeredConfig
