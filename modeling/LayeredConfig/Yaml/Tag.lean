import LayeredConfig.Digits
import LayeredConfig.Yaml.Cursor
import LayeredConfig.Yaml.Token

/-! # Anchors, tags and directives

The small languages inside the marks `&`, `*`, `!` and `%`. A tag is kept as its handle and the rest;
octets written in hexadecimal count as the characters with their codes.
-/
namespace LayeredConfig.Yaml

def readAnchor (c : Cursor) : Option (List Char × Cursor) :=
  let name := c.rest.takeWhile isWordChar
  let c := c.skip name.length
  if name.isEmpty then none
  else if blankAhead c.rest || c.rest.head?.any ['?', ':', ',', ']', '\x7d', '%', '@', '`'].contains then
    some (name, c)
  else none

/-- Characters of a tag; some indicators may stand in angle brackets only. -/
def isTagChar (verbatim : Bool) (c : Char) : Bool :=
  isWordChar c ||
  [';', '/', '?', ':', '@', '&', '=', '+', '$', '.', '%', '!', '~', '*', '\'', '(', ')'].contains c ||
  (verbatim && [',', '[', ']'].contains c)

def octet? : List Char → Option Nat
  | a :: b :: _ => Digits.number? 16 [a, b]
  | _ => none

def continuation? (octet : Nat) : Option Nat :=
  if octet < 0x80 then some 0
  else if octet < 0xC0 then none
  else if octet < 0xE0 then some 1
  else if octet < 0xF0 then some 2
  else if octet < 0xF8 then some 3
  else none

/-- Reads the characters of a tag. `expected` octets of a sequence are still to come. -/
def readTagChars (verbatim : Bool) : Nat → Nat → List Char → Cursor → Option (List Char × Cursor)
  | 0, _, _, _ => none
  | fuel + 1, expected, acc, c =>
    match c.rest with
    | '%' :: rest => do
      let octet ← octet? rest
      let expected ←
        if expected = 0 then continuation? octet
        else if octet / 0x40 = 2 then some (expected - 1) else none
      readTagChars verbatim fuel expected (Char.ofNat octet :: acc) (c.skip 3)
    | ch :: _ =>
      if 0 < expected then none
      else if isTagChar verbatim ch then readTagChars verbatim fuel 0 (ch :: acc) (c.skip 1)
      else some (acc.reverse, c)
    | [] => if 0 < expected then none else some (acc.reverse, c)

def readTagText (verbatim : Bool) (c : Cursor) : Option (List Char × Cursor) :=
  readTagChars verbatim (c.size + 1) 0 [] c

/-- Reads a handle: an exclamation mark, perhaps a word, and perhaps another mark. -/
def readHandle (c : Cursor) : Option (List Char × Cursor) :=
  match c.rest with
  | '!' :: rest =>
    let word := rest.takeWhile isWordChar
    match rest.drop word.length with
    | '!' :: _ => some ('!' :: (word ++ ['!']), c.skip (word.length + 2))
    | _ => some ('!' :: word, c.skip (word.length + 1))
  | _ => none

def isClosedHandle (handle : List Char) : Bool := 2 ≤ handle.length && handle.getLast? = some '!'

def tagEnds (inFlow : Bool) (c : Cursor) : Bool :=
  blankAhead c.rest || (inFlow && c.rest.head? = some ',')

/-- Reads a tag from its first mark on: verbatim in angle brackets, with a closed handle, or with the
mark alone as its handle. The tag `!` has no handle. -/
def readTag (inFlow : Bool) (c : Cursor) : Option (Token × Cursor) := do
  let (token, c) ← match c.rest with
    | '!' :: '<' :: _ => do
      let (text, c) ← readTagText true (c.skip 2)
      if text.isEmpty || c.rest.head? ≠ some '>' then none
      some (Token.tag [] text, c.skip 1)
    | _ => do
      let (handle, c) ← readHandle c
      if isClosedHandle handle then
        let (text, c) ← readTagText false c
        if text.isEmpty then none
        some (Token.tag handle text, c)
      else
        let (text, c) ← readTagText false c
        let whole := handle.drop 1 ++ text
        some (if whole.isEmpty then Token.tag [] ['!'] else Token.tag ['!'] whole, c)
  if tagEnds inFlow c then some (token, c) else none

/-- Reads a part of a version: at most nine digits. -/
def readVersionPart (c : Cursor) : Option (Nat × Cursor) :=
  let digits := c.rest.takeWhile Char.isDigit
  if 9 < digits.length then none
  else (Digits.number? 10 digits).map fun n => (n, c.skip digits.length)

def readVersion (c : Cursor) : Option (Token × Cursor) := do
  let (major, c) ← readVersionPart (c.skipWhile isSpaceOrTab)
  if c.rest.head? ≠ some '.' then none
  let (minor, c) ← readVersionPart (c.skip 1)
  some (.version major minor, c)

def readTagHandle (c : Cursor) : Option (Token × Cursor) := do
  let (handle, c) ← readHandle (c.skipWhile isSpaceOrTab)
  if !(isClosedHandle handle || handle = ['!']) then none
  if !c.rest.head?.any isSpaceOrTab then none
  let (start, c) ← readTagText true (c.skipWhile isSpaceOrTab)
  if start.isEmpty || !blankAhead c.rest then none
  some (.tagHandle handle start, c)

def readDirective (c : Cursor) : Option (Token × Cursor) := do
  let name := c.rest.takeWhile isWordChar
  let after := c.skip name.length
  if !blankAhead after.rest then none
  let (token, c) ← match name with
    | ['Y', 'A', 'M', 'L'] => readVersion after
    | ['T', 'A', 'G'] => readTagHandle after
    | _ => none
  let c := c.skipWhile isSpaceOrTab
  let c := if c.rest.head? = some '#' then c.skipWhile (!isBreak ·) else c
  if c.rest.isEmpty || c.atBreak then some (token, c.skipBreak) else none

end LayeredConfig.Yaml
