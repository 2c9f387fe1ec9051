import LayeredConfig.Toml.Quoted
import LayeredConfig.Toml.Scalar
import LayeredConfig.Toml.Table

/-! # Reading TOML

A text is a sequence of fields and headers, each on a line of its own. Arrays and inline tables may
stretch over several lines, with comments in them.
-/
namespace LayeredConfig.Toml

/-- Drops blanks, line ends and comments; `comment` tells that one has begun. The result is `none` when a
comment holds a control character. -/
def skipVoid (comment : Bool) : List Char → Option (List Char)
  | [] => some []
  | '\r' :: '\n' :: rest => skipVoid false rest
  | c :: rest =>
    if c = '\n' then skipVoid false rest
    else if comment then if isControl c then none else skipVoid true rest
    else if c = '#' then skipVoid true rest
    else if isBlank c then skipVoid false rest
    else some (c :: rest)

def skipBlanks (cs : List Char) : List Char := cs.dropWhile isBlank

def lineIsOver (cs : List Char) : Bool :=
  let cs := skipBlanks cs
  cs.isEmpty || (afterBreak? cs).isSome || cs.head? = some '#'

def readKey (cs : List Char) : Option (String × List Char) :=
  match cs with
  | c :: rest =>
    if c = '"' ∨ c = '\'' then
      (readLine c (rest.length + 1) [] rest).map fun (key, rest) => (String.ofList key, rest)
    else
      let (key, rest) := cs.span isBareChar
      if key.isEmpty then none else some (String.ofList key, rest)
  | [] => none

/-- Reads keys with dots between them: those that lead to the last, and the last. -/
def readPath : Nat → List Char → Option (List String × String × List Char)
  | 0, _ => none
  | fuel + 1, cs => do
    let (key, cs) ← readKey (skipBlanks cs)
    match skipBlanks cs with
    | '.' :: rest =>
      let (path, last, rest) ← readPath fuel rest
      some (key :: path, last, rest)
    | rest => some ([], key, rest)

def readKeys (cs : List Char) : Option (List String × String × List Char) := do
  let (path, key, cs) ← readPath (cs.length + 1) cs
  match cs with
  | '=' :: rest => some (path, key, skipBlanks rest)
  | _ => none

def isWordChar (c : Char) : Bool := isBareChar c || c = '+' || c = '.' || c = ':'

/-- Reads a value without quotes or brackets. A date may be set apart from its time by a space. -/
def readScalar (cs : List Char) : Option (Value × List Char) :=
  let (word, rest) := cs.span isWordChar
  let (word, rest) := match readDate word, rest with
    | some (_, []), ' ' :: c :: more =>
      if c.isDigit then
        let (time, more) := (c :: more).span isWordChar
        (word ++ 'T' :: time, more)
      else (word, rest)
    | _, _ => (word, rest)
  (scalar? word).map (·, rest)

mutual

/-- Reads one value. `depth` is how many more levels of arrays and inline tables are allowed, and `fuel`
bounds the calls: twice the length of the input and one always suffice. -/
def readValue : Nat → Nat → List Char → Option (Value × List Char)
  | 0, _, _ => none
  | fuel + 1, depth, cs =>
    match readQuoted? cs with
    | some quoted => quoted.map fun (text, rest) => (.string (String.ofList text), rest)
    | none =>
      match cs, depth with
      | '[' :: _, 0 => none
      | '\x7b' :: _, 0 => none
      | '[' :: rest, depth + 1 =>
        (readItems fuel depth [] rest).map fun (items, rest) => (.list items, rest)
      | '\x7b' :: rest, depth + 1 =>
        (readEntries fuel depth [] rest).map fun (entries, rest) => (.map (entriesFields entries), rest)
      | cs, _ => readScalar cs

/-- Reads the elements of an array up to its end; `acc` holds those already read, last first. -/
def readItems : Nat → Nat → List Value → List Char → Option (List Value × List Char)
  | 0, _, _, _ => none
  | fuel + 1, depth, acc, cs => do
    match ← skipVoid false cs with
    | ']' :: rest => some (acc.reverse, rest)
    | cs =>
      let (v, cs) ← readValue fuel depth cs
      match ← skipVoid false cs with
      | ',' :: rest => readItems fuel depth (v :: acc) rest
      | ']' :: rest => some ((v :: acc).reverse, rest)
      | _ => none

def readEntries : Nat → Nat → Entries → List Char → Option (Entries × List Char)
  | 0, _, _, _ => none
  | fuel + 1, depth, entries, cs => do
    match ← skipVoid false cs with
    | '\x7d' :: rest => some (entries, rest)
    | cs =>
      let (path, key, cs) ← readKeys cs
      let (v, cs) ← readValue fuel depth cs
      let entries ← Entries.addField path key v .header entries
      match ← skipVoid false cs with
      | ',' :: rest => readEntries fuel depth entries rest
      | '\x7d' :: rest => some (entries, rest)
      | _ => none

end

def depthLimit : Nat := 80

def afterHeader? (closing : List Char) (cs : List Char) : Option (List Char) :=
  if closing.isPrefixOf cs && lineIsOver (cs.drop closing.length) then some (cs.drop closing.length)
  else none

/-- Reads the lines of a text into the table of the document. `header` leads to the table that the
fields belong to. -/
def readTable : Nat → List String → Entries → List Char → Option Entries
  | 0, _, _, _ => none
  | fuel + 1, header, root, cs => do
    match ← skipVoid false cs with
    | [] => some root
    | '[' :: '[' :: rest =>
      let (path, key, rest) ← readPath (rest.length + 1) rest
      let rest ← afterHeader? [']', ']'] rest
      let root ← Entries.within .passage (Entries.openElement key) path .header root
      readTable fuel (path ++ [key]) root rest
    | '[' :: rest =>
      let (path, key, rest) ← readPath (rest.length + 1) rest
      let rest ← afterHeader? [']'] rest
      let root ← Entries.within .passage (Entries.openTable key) path .header root
      readTable fuel (path ++ [key]) root rest
    | cs =>
      let (path, key, rest) ← readKeys cs
      let (v, rest) ← readValue (2 * rest.length + 1) depthLimit rest
      let root ← Entries.within .passage (Entries.addField path key v) header .header root
      if lineIsOver rest then readTable fuel header root rest else none

def value? (text : String) : Option Value :=
  let cs := text.toList
  let cs := if cs.head? = some '\uFEFF' then cs.drop 1 else cs
  (readTable (cs.length + 1) [] [] cs).map fun root => .map (entriesFields root)

end LayeredConfig.Toml
