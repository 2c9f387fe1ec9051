import LayeredConfig.Binary64.Shortest
import LayeredConfig.Digits
import LayeredConfig.Toml.Characters
import LayeredConfig.Value.Basic

/-! # TOML text

A map is written as blocks of lines. The fields that fit a line stand in the block of their map; maps and
lists of maps follow in blocks of their own, each under a header that holds the keys leading to it. Inside
a line everything is written inline.
-/
namespace LayeredConfig.Toml

def floatLayout : Binary64.Layout where
  least := none
  most := none
  plus := false

def needsEscape (c : Char) : Bool := isControl c && c ≠ '\n'

/-- The longest run of a character; `run` is the length of the run that ends here. -/
def longestRun (c : Char) (run : Nat) : List Char → Nat
  | [] => run
  | d :: rest => if d = c then longestRun c (run + 1) rest else max run (longestRun c 0 rest)

def escape (c : Char) : List Char :=
  if c = '"' then ['\\', '"']
  else if c = '\\' then ['\\', '\\']
  else if c = '\n' then ['\\', 'n']
  else if c = '\r' then ['\\', 'r']
  else if c = '\t' then ['\\', 't']
  else if c.toNat = 8 then ['\\', 'b']
  else if c.toNat = 12 then ['\\', 'f']
  else if needsEscape c then '\\' :: 'u' :: Digits.hex 4 c.toNat
  else [c]

/-- Characters between triple double quotes: line ends stand for themselves, and so do up to two double
quotes in a row; `run` of them came just before. -/
def escapeLines (run : Nat) : List Char → List Char
  | [] => []
  | c :: rest =>
    if c = '\n' then c :: escapeLines 0 rest
    else if c = '"' ∧ run < 2 then c :: escapeLines (run + 1) rest
    else escape c ++ escapeLines 0 rest

def basic (cs : List Char) : List Char := '"' :: (cs.flatMap escape ++ ['"'])

def literal (cs : List Char) : List Char := '\'' :: (cs ++ ['\''])

/-- A text between triple quotes. One with several lines begins on a line of its own. -/
def tripled (quote : Char) (cs body : List Char) : List Char :=
  let quotes := [quote, quote, quote]
  quotes ++ (if cs.contains '\n' then ['\n'] else []) ++ body ++ quotes

/-- A text in the first form that holds it without escapes, or else in the escaped form that keeps its
lines apart. A tab counts as no escape here. -/
def string (cs : List Char) : List Char :=
  let lines := cs.contains '\n'
  let controls := cs.any needsEscape
  let escapes := controls || cs.contains '\\'
  let doubles := longestRun '"' 0 cs
  let singles := longestRun '\'' 0 cs
  if !escapes && doubles = 0 && !lines then basic cs
  else if !controls && singles = 0 && !lines then literal cs
  else if !escapes && doubles ≤ 2 then tripled '"' cs (escapeLines 0 cs)
  else if !controls && singles ≤ 2 then tripled '\'' cs cs
  else if lines then tripled '"' cs (escapeLines 0 cs)
  else basic cs

def key (cs : List Char) : List Char :=
  let controls := cs.any isControl
  if !cs.isEmpty && cs.all isBareChar then cs
  else if !controls && !cs.contains '\\' && !cs.contains '"' then basic cs
  else if !controls && !cs.contains '\'' then literal cs
  else basic cs

def numberText : Number → List Char
  | .integer n => (toString n.val).toList
  | .float x => x.text floatLayout

def equals : List Char := [' ', '=', ' ']

mutual

def inline : Value → List Char
  | .null => []
  | .bool b => (toString b).toList
  | .number n => numberText n
  | .string s => string s.toList
  | .list [] => ['[', ']']
  | .list (v :: rest) => '[' :: (inline v ++ inlineItems rest)
  | .map [] => ['\x7b', '\x7d']
  | .map ((k, v) :: rest) =>
    '\x7b' :: ' ' :: (key k.toList ++ equals ++ inline v ++ inlineFields rest)

def inlineItems : List Value → List Char
  | [] => [']']
  | v :: rest => ',' :: ' ' :: (inline v ++ inlineItems rest)

def inlineFields : List (String × Value) → List Char
  | [] => [' ', '\x7d']
  | (k, v) :: rest => ',' :: ' ' :: (key k.toList ++ equals ++ inline v ++ inlineFields rest)

end

def isMap : Value → Bool
  | .map _ => true
  | _ => false

/-- Whether a value is written in blocks of its own: a map, or a list of nothing but maps. -/
def hasBlock : Value → Bool
  | .map _ => true
  | .list (v :: rest) => (v :: rest).all isMap
  | _ => false

def lines (fields : Fields) : List Char :=
  (fields.filter (!hasBlock ·.2)).flatMap fun (k, v) => key k.toList ++ equals ++ inline v ++ ['\n']

def dotted (path : List String) : List Char :=
  ['.'].intercalate (path.map fun k => key k.toList)

/-- The block of a map: without a line of its own it is left out if others show that it is there. -/
def mapBlock (path : List String) (fields : Fields) : List (List Char) :=
  if (lines fields).isEmpty && fields.any (hasBlock ·.2) then []
  else ['[' :: (dotted path ++ ']' :: '\n' :: lines fields)]

def elementBlock (path : List String) (fields : Fields) : List Char :=
  '[' :: '[' :: (dotted path ++ ']' :: ']' :: '\n' :: lines fields)

mutual

def fieldBlocks (path : List String) : List (String × Value) → List (List Char)
  | [] => []
  | (k, v) :: rest => valueBlocks (path ++ [k]) v ++ fieldBlocks path rest

def valueBlocks (path : List String) : Value → List (List Char)
  | .map fields => mapBlock path fields ++ fieldBlocks path fields
  | .list items => if hasBlock (.list items) then elementBlocks path items else []
  | _ => []

def elementBlocks (path : List String) : List Value → List (List Char)
  | [] => []
  | .map fields :: rest =>
    elementBlock path fields :: (fieldBlocks path fields ++ elementBlocks path rest)
  | _ :: rest => elementBlocks path rest

end

mutual

def containsNull : Value → Bool
  | .null => true
  | .list items => containsNullItems items
  | .map fields => containsNullFields fields
  | _ => false

def containsNullItems : List Value → Bool
  | [] => false
  | v :: rest => containsNull v || containsNullItems rest

def containsNullFields : List (String × Value) → Bool
  | [] => false
  | (_, v) :: rest => containsNull v || containsNullFields rest

end

/-- The text of a map, or the kind of what cannot be written: only a map is a whole text, and `null` has
no text anywhere. -/
def text : Value → Except Kind String
  | .map fields =>
    if containsNullFields fields then .error .null
    else
      let own := lines fields
      let blocks := (if own.isEmpty then [] else [own]) ++ fieldBlocks [] fields
      .ok (String.ofList (['\n'].intercalate blocks))
  | v => .error v.kind

end LayeredConfig.Toml
