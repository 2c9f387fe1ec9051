import LayeredConfig.Yaml.Cursor

/-! # Block scalars

The lines of a block scalar are kept or folded. Signs after its indicator may give the indentation of the
lines, and say what becomes of the line ends at its end.
-/
namespace LayeredConfig.Yaml

inductive Chomping where
  | strip | clip | keep
deriving DecidableEq

def chompingSign? : Char → Option Chomping
  | '-' => some .strip
  | '+' => some .keep
  | _ => none

/-- Reads the signs after the indicator, at most one of each kind in either order. The indentation is
`0` when it is not given. -/
def readSigns (c : Cursor) : Option (Chomping × Nat × Cursor) :=
  let sign (c : Cursor) : Option Chomping := c.rest.head?.bind chompingSign?
  let digit (c : Cursor) : Option Nat :=
    (c.rest.head?.filter Char.isDigit).map fun d => d.toNat - '0'.toNat
  match sign c, digit c with
  | some chomping, _ =>
    match digit (c.skip 1) with
    | some 0 => none
    | some n => some (chomping, n, c.skip 2)
    | none => some (chomping, 0, c.skip 1)
  | none, some 0 => none
  | none, some n =>
    match sign (c.skip 1) with
    | some chomping => some (chomping, n, c.skip 2)
    | none => some (.clip, n, c.skip 1)
  | none, none => some (.clip, 0, c)

/-- Passes indentation and empty lines up to the next line with text. The result is the greatest column
that was reached, the line ends last first, and the place. `indent` is the column of the text, or `0` while
that is open; a tab may not stand left of it. -/
def readEmptyLines (indent : Nat) : Nat → Nat → List Char → Cursor → Option (Nat × List Char × Cursor)
  | 0, _, _, _ => none
  | fuel + 1, most, breaks, c =>
    let blanks := (c.rest.takeWhile (· = ' ')).length
    let c := c.skip (if indent = 0 then blanks else min blanks (indent - c.column))
    let most := max most c.column
    if (indent = 0 || c.column < indent) && c.rest.head? = some '\t' then none
    else if c.atBreak then readEmptyLines indent fuel most (c.breakText ++ breaks) c.skipBreak
    else some (most, breaks, c)

/-- A block scalar while it is read. `ending` is the line end of its last line, `empty` the line ends of
the empty lines after that, last first, and `deeper` tells that the last line began with a blank. -/
structure BlockText where
  text : List Char
  ending : List Char
  empty : List Char
  deeper : Bool

namespace BlockText

/-- The text so far, with the line ends that a further line brings in; last character first. A folded
line end becomes a blank, unless empty lines follow it or a line around it begins with a blank. -/
def joined (b : BlockText) (isLiteral blank : Bool) : List Char :=
  let ending :=
    if isLiteral || b.ending ≠ ['\n'] || b.deeper || blank then b.ending
    else if b.empty.isEmpty then [' '] else []
  b.empty ++ ending ++ b.text

def chomped (b : BlockText) : Chomping → List Char
  | .strip => b.text.reverse
  | .clip => (b.ending ++ b.text).reverse
  | .keep => (b.empty ++ b.ending ++ b.text).reverse

end BlockText

def readBlockLines (isLiteral : Bool) (indent : Nat) :
    Nat → BlockText → Cursor → Option (BlockText × Cursor)
  | 0, _, _ => none
  | fuel + 1, b, c =>
    if c.column ≠ indent || c.rest.isEmpty then some (b, c)
    else
      let blank := c.rest.head?.any isSpaceOrTab
      let line := c.rest.takeWhile (!isBreak ·)
      let ended := c.skip line.length
      (readEmptyLines indent (c.size + 1) 0 [] ended.skipBreak).bind fun (_, empty, next) =>
        readBlockLines isLiteral indent fuel
          ⟨line.reverse ++ b.joined isLiteral blank, ended.breakText, empty, blank⟩ next

/-- Reads a block scalar after its indicator; its lines stand right of the column `parent`, or at any
column when there is no block around it. -/
def readBlock (isLiteral : Bool) (parent : Option Nat) (c : Cursor) : Option (List Char × Cursor) := do
  let (chomping, increment, c) ← readSigns c
  let c := c.skipWhile isSpaceOrTab
  let c := if c.rest.head? = some '#' then c.skipWhile (!isBreak ·) else c
  if !(c.rest.isEmpty || c.atBreak) then none
  let c := c.skipBreak
  let given := if increment = 0 then 0 else parent.getD 0 + increment
  let (most, empty, c) ← readEmptyLines given (c.size + 1) 0 [] c
  let indent := if given = 0 then max most ((parent.getD 0) + 1) else given
  let (b, c) ← readBlockLines isLiteral indent (c.size + 1) ⟨[], [], empty, false⟩ c
  some (b.chomped chomping, c)

end LayeredConfig.Yaml
