import LayeredConfig.Binary64.Shortest
import LayeredConfig.Value.Basic

/-! # JSON text

Two layouts of one grammar: compact on a single line, and pretty with two blanks for each level.
-/
namespace LayeredConfig.Json

def floatLayout : Binary64.Layout where
  least := some (-4)
  most := some 16
  plus := true

def numberText : Number → List Char
  | .integer n => (toString n.val).toList
  | .float x => x.text floatLayout

def hexDigit (n : Nat) : Char := Nat.digitChar n

def escape (c : Char) : List Char :=
  if c = '"' then ['\\', '"']
  else if c = '\\' then ['\\', '\\']
  else if c = '\n' then ['\\', 'n']
  else if c = '\r' then ['\\', 'r']
  else if c = '\t' then ['\\', 't']
  else if c.toNat = 8 then ['\\', 'b']
  else if c.toNat = 12 then ['\\', 'f']
  else if c.toNat < 32 then
    ['\\', 'u', '0', '0', hexDigit (c.toNat / 16), hexDigit (c.toNat % 16)]
  else [c]

def quote (s : String) : List Char := '"' :: (s.toList.flatMap escape ++ ['"'])

def boolText : Bool → List Char
  | true => ['t', 'r', 'u', 'e']
  | false => ['f', 'a', 'l', 's', 'e']

def nullText : List Char := ['n', 'u', 'l', 'l']

mutual

def compact : Value → List Char
  | .null => nullText
  | .bool b => boolText b
  | .number n => numberText n
  | .string s => quote s
  | .list [] => ['[', ']']
  | .list (v :: rest) => '[' :: (compact v ++ compactItems rest)
  | .map [] => ['{', '}']
  | .map ((k, v) :: rest) => '{' :: (quote k ++ ':' :: (compact v ++ compactFields rest))

/-- The further elements of a list and its end. -/
def compactItems : List Value → List Char
  | [] => [']']
  | v :: rest => ',' :: (compact v ++ compactItems rest)

def compactFields : List (String × Value) → List Char
  | [] => ['}']
  | (k, v) :: rest => ',' :: (quote k ++ ':' :: (compact v ++ compactFields rest))

end

def lineBreak (level : Nat) : List Char := '\n' :: List.replicate (2 * level) ' '

mutual

/-- A value with each element and field on a line of its own; `level` is how deep it stands. -/
def pretty (level : Nat) : Value → List Char
  | .null => nullText
  | .bool b => boolText b
  | .number n => numberText n
  | .string s => quote s
  | .list [] => ['[', ']']
  | .list (v :: rest) =>
    '[' :: (lineBreak (level + 1) ++ pretty (level + 1) v ++ prettyItems level rest)
  | .map [] => ['{', '}']
  | .map ((k, v) :: rest) =>
    '{' :: (lineBreak (level + 1) ++ quote k ++ ':' :: ' ' :: (pretty (level + 1) v ++
      prettyFields level rest))

def prettyItems (level : Nat) : List Value → List Char
  | [] => lineBreak level ++ [']']
  | v :: rest => ',' :: (lineBreak (level + 1) ++ pretty (level + 1) v ++ prettyItems level rest)

def prettyFields (level : Nat) : List (String × Value) → List Char
  | [] => lineBreak level ++ ['}']
  | (k, v) :: rest =>
    ',' :: (lineBreak (level + 1) ++ quote k ++ ':' :: ' ' :: (pretty (level + 1) v ++
      prettyFields level rest))

end

def text (v : Value) : String := String.ofList (compact v)

end LayeredConfig.Json
