import LayeredConfig.Yaml.Characters

/-! # Positions in a text

A cursor is what is left of a text, and where that stands: how many characters, how many lines, and how
many characters of the line came before. The size of the whole text bounds every loop over it. Blanks and line
ends between the words of a scalar form a gap, which folds into one blank or into the line ends after its first.
-/
namespace LayeredConfig.Yaml

structure Cursor where
  rest : List Char
  index : Nat
  line : Nat
  column : Nat
  size : Nat

namespace Cursor

def start (cs : List Char) : Cursor := ⟨cs, 0, 0, 0, cs.length⟩

def skip (c : Cursor) (n : Nat) : Cursor :=
  { c with rest := c.rest.drop n, index := c.index + n, column := c.column + n }

def skipWhile (c : Cursor) (p : Char → Bool) : Cursor := c.skip (c.rest.takeWhile p).length

def skipBreak (c : Cursor) : Cursor :=
  match c.rest with
  | [] => c
  | '\r' :: '\n' :: rest => { c with rest, index := c.index + 2, line := c.line + 1, column := 0 }
  | _ :: rest => { c with rest, index := c.index + 1, line := c.line + 1, column := 0 }

/-- The line end that comes next, as it is read: all but two kinds of it are one. -/
def breakText (c : Cursor) : List Char :=
  match c.rest with
  | [] => []
  | b :: _ => if !isBreak b then [] else if b.toNat = 0x2028 || b.toNat = 0x2029 then [b] else ['\n']

def atBreak (c : Cursor) : Bool := c.rest.head?.any isBreak

def atBorder (c : Cursor) : Bool := c.column = 0 && isBorder c.rest && blankAhead (c.rest.drop 3)

end Cursor

/-- Blanks and line ends between words. Blanks count only before the first line end; `broken` tells that
a line has ended, also when its end was escaped. All texts are held last character first. -/
structure Gap where
  blanks : List Char
  first : List Char
  further : List Char
  broken : Bool

namespace Gap

def none : Gap := ⟨[], [], [], false⟩

def escaped : Gap := ⟨[], [], [], true⟩

/-- What a gap reads as, last character first: a single line end becomes a blank. -/
def fold (g : Gap) : List Char :=
  if !g.broken then g.blanks
  else if g.first ≠ ['\n'] then g.further ++ g.first
  else if g.further.isEmpty then [' ']
  else g.further

/-- Reads on in a gap. A tab left of the column `indent` of a further line is an error. -/
def read (indent : Nat) : Nat → Gap → Cursor → Option (Gap × Cursor)
  | 0, g, c => some (g, c)
  | fuel + 1, g, c =>
    match c.rest with
    | [] => some (g, c)
    | ch :: _ =>
      if isSpaceOrTab ch then
        if g.broken then
          if ch = '\t' ∧ c.column < indent then Option.none else read indent fuel g (c.skip 1)
        else read indent fuel { g with blanks := ch :: g.blanks } (c.skip 1)
      else if isBreak ch then
        if g.broken then
          read indent fuel { g with further := c.breakText ++ g.further } c.skipBreak
        else read indent fuel ⟨[], c.breakText, [], true⟩ c.skipBreak
      else some (g, c)

def readAt (indent : Nat) (g : Gap) (c : Cursor) : Option (Gap × Cursor) :=
  read indent (c.size + 1) g c

end Gap

end LayeredConfig.Yaml
