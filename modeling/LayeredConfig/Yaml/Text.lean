import LayeredConfig.Binary64.Shortest
import LayeredConfig.Yaml.Characters
import LayeredConfig.Yaml.Scalar

/-! # YAML text

Lists and maps are written in block style, the empty ones in brackets. A text is written without quotes
where it reads back as itself; a text with line ends is written as a literal block.
-/
namespace LayeredConfig.Yaml

/-- Floats from `0.00001` up to below `10 ^ 16` are written positionally. -/
def floatLayout : Binary64.Layout where
  least := some (-4)
  most := some 16
  plus := false

def isPrintable (c : Char) : Bool :=
  let n := c.toNat
  n = 0x0A || (0x20 ≤ n && n ≤ 0x7E) || (0xA0 ≤ n && n ≤ 0xD7FF) ||
    (0xE000 ≤ n && n ≤ 0xFFFD && n ≠ 0xFEFF) || 0x10000 ≤ n

structure Traits where
  indicators : Bool
  breaks : Bool
  special : Bool
  leadingBlank : Bool
  trailingSpace : Bool
  trailingBreak : Bool
  breakSpace : Bool
  spaceBreak : Bool

/-- Whether a character, given its predecessor and what follows, would be read as an indicator. -/
def isIndicator (before : Option Char) (c : Char) (rest : List Char) : Bool :=
  match before with
  | none => openingIndicators.contains c || (['?', ':', '-'].contains c && blankAhead rest)
  | some b => (c = ':' && blankAhead rest) || (c = '#' && blankAhead [b])

def traitsFrom (before : Option Char) : List Char → Traits
  | [] => ⟨false, false, false, false, false, false, false, false⟩
  | c :: rest =>
    let t := traitsFrom (some c) rest
    { indicators := t.indicators || isIndicator before c rest
      breaks := t.breaks || isBreak c
      special := t.special || !isPrintable c
      leadingBlank := before.isNone && (c = ' ' || isBreak c)
      trailingSpace := t.trailingSpace || (rest.isEmpty && c = ' ')
      trailingBreak := t.trailingBreak || (rest.isEmpty && isBreak c)
      breakSpace := t.breakSpace || (before.any isBreak && c = ' ')
      spaceBreak := t.spaceBreak || (before = some ' ' && isBreak c) }

/-- A border of a document at the start counts as an indicator. -/
def traits (cs : List Char) : Traits :=
  let t := traitsFrom none cs
  { t with indicators := t.indicators || isBorder cs }

namespace Traits

def allowsPlain (t : Traits) : Bool :=
  !(t.indicators || t.breaks || t.special || t.leadingBlank || t.trailingSpace || t.trailingBreak ||
    t.breakSpace || t.spaceBreak)

def allowsSingle (t : Traits) : Bool := !(t.special || t.breakSpace || t.spaceBreak)

def allowsBlock (t : Traits) : Bool := !(t.special || t.trailingSpace || t.spaceBreak)

end Traits

def spaces (n : Nat) : List Char := List.replicate n ' '

/-- Between single quotes only the quote is written twice. After a line end the next line is indented. -/
def singleQuoted (indent : Nat) (afterBreak : Bool) : List Char → List Char
  | [] => if afterBreak then spaces indent ++ ['\''] else ['\'']
  | c :: rest =>
    if c = ' ' then c :: singleQuoted indent afterBreak rest
    else if isBreak c then c :: singleQuoted indent true rest
    else
      let shown := if c = '\'' then ['\'', '\''] else [c]
      (if afterBreak then spaces indent else []) ++ shown ++ singleQuoted indent false rest

def escape (c : Char) : List Char :=
  let n := c.toNat
  if isPrintable c && !isBreak c && c ≠ '"' && c ≠ '\\' then [c]
  else match escapeLetters.lookup n with
    | some letter => ['\\', letter]
    | none =>
      if n ≤ 0xFF then '\\' :: 'x' :: Digits.hex 2 n
      else if n ≤ 0xFFFF then '\\' :: 'u' :: Digits.hex 4 n
      else '\\' :: 'U' :: Digits.hex 8 n

def doubleQuoted (cs : List Char) : List Char := '"' :: (cs.flatMap escape ++ ['"'])

/-- The signs after the bar of a literal block: the indentation when the text itself begins with a blank,
and what to do with the line ends at its end. -/
def blockSigns (cs : List Char) : List Char :=
  let indentation := match cs with
    | c :: _ => if c = ' ' || isBreak c then ['2'] else []
    | [] => []
  let ending := match cs.reverse with
    | [] => ['-']
    | last :: before =>
      if !isBreak last then ['-']
      else match before with
        | [] => ['+']
        | b :: _ => if isBreak b then ['+'] else []
  indentation ++ ending

def blockLines (indent : Nat) (afterBreak : Bool) : List Char → List Char
  | [] => []
  | c :: rest =>
    if isBreak c then c :: blockLines indent true rest
    else (if afterBreak then spaces indent else []) ++ c :: blockLines indent false rest

def literal (indent : Nat) (cs : List Char) : List Char :=
  '|' :: (blockSigns cs ++ '\n' :: blockLines indent true cs)

def scalar (indent : Nat) (cs : List Char) : List Char :=
  let t := traits cs
  if cs.contains '\n' then
    if t.allowsBlock then literal indent cs else doubleQuoted cs
  else if (plain cs).isText && !isPaddedDigits cs && t.allowsPlain then cs
  else if t.allowsSingle then '\'' :: singleQuoted indent false cs
  else doubleQuoted cs

def endLine (cs : List Char) : List Char :=
  match cs.getLast? with
  | some c => if isBreak c then cs else cs ++ ['\n']
  | none => ['\n']

def numberText : Number → List Char
  | .integer n => (toString n.val).toList
  | .float x => x.text floatLayout

/-- A key of one line and of at most this many bytes stands before its value without a mark. -/
def simpleKeyLimit : Nat := 128

def isSimpleKey (key : String) : Bool :=
  key.utf8ByteSize ≤ simpleKeyLimit && !key.toList.any isBreak

mutual

/-- A value that begins on the current line, with the lines of its list or map at a column. Scalars
indent their further lines by two more. -/
def block (column : Nat) : Value → List Char
  | .null => ['n', 'u', 'l', 'l', '\n']
  | .bool true => ['t', 'r', 'u', 'e', '\n']
  | .bool false => ['f', 'a', 'l', 's', 'e', '\n']
  | .number n => numberText n ++ ['\n']
  | .string s => endLine (scalar column s.toList)
  | .list [] => ['[', ']', '\n']
  | .list (v :: rest) => '-' :: ' ' :: (block (column + 2) v ++ blockItems column rest)
  | .map [] => ['\x7b', '\x7d', '\n']
  | .map ((key, v) :: rest) => blockField column key v ++ blockFields column rest

def blockItems (column : Nat) : List Value → List Char
  | [] => []
  | v :: rest => spaces column ++ '-' :: ' ' :: (block (column + 2) v ++ blockItems column rest)

def blockFields (column : Nat) : List (String × Value) → List Char
  | [] => []
  | (key, v) :: rest => spaces column ++ (blockField column key v ++ blockFields column rest)

/-- A key and its value. After a simple key, a list begins on a line of its own at the column of the
key, and a map two columns further. -/
def blockField (column : Nat) (key : String) : Value → List Char
  | v =>
    if isSimpleKey key then
      scalar (column + 2) key.toList ++ ':' :: (match v with
        | .list (_ :: _) => '\n' :: (spaces column ++ block column v)
        | .map (_ :: _) => '\n' :: (spaces (column + 2) ++ block (column + 2) v)
        | _ => ' ' :: block (column + 2) v)
    else
      '?' :: ' ' :: (endLine (scalar (column + 2) key.toList) ++
        (spaces column ++ ':' :: ' ' :: block (column + 2) v))

end

def text : Value → String
  | .string s => String.ofList (endLine (scalar 2 s.toList))
  | v => String.ofList (block 0 v)

end LayeredConfig.Yaml
