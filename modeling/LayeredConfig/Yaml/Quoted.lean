import LayeredConfig.Digits
import LayeredConfig.Yaml.Cursor

/-! # Quoted scalars

Between quotes line ends are folded. Single quotes know no escape but the doubled quote.
-/
namespace LayeredConfig.Yaml

def letterEscape? (letter : Char) : Option Char :=
  if letter = '\t' ∨ letter = ' ' ∨ letter = '/' then some letter
  else (escapeLetters.find? (·.2 = letter)).map fun (code, _) => Char.ofNat code

/-- The character of an escape, and how many characters it takes after the backslash. -/
def escape? : List Char → Option (Char × Nat)
  | 'x' :: a :: b :: _ => (Digits.hexChar? [a, b]).map (·, 3)
  | 'u' :: a :: b :: c :: d :: _ => (Digits.hexChar? [a, b, c, d]).map (·, 5)
  | 'U' :: a :: b :: c :: d :: e :: f :: g :: h :: _ =>
    (Digits.hexChar? [a, b, c, d, e, f, g, h]).map (·, 9)
  | letter :: _ => (letterEscape? letter).map (·, 1)
  | [] => none

/-- Reads a scalar up to its closing quote. `acc` holds what was read, last first, and `fuel` bounds the
steps: the length of the input and one always suffice. No border of a document may stand in it. -/
def readQuoted (quote : Char) : Nat → List Char → Cursor → Option (List Char × Cursor)
  | 0, _, _ => none
  | fuel + 1, acc, c =>
    if c.atBorder then none
    else match c.rest with
      | [] => none
      | ch :: rest =>
        if isSpaceOrTab ch || isBreak ch then
          (Gap.readAt 0 .none c).bind fun (g, c) => readQuoted quote fuel (g.fold ++ acc) c
        else if ch = quote then
          if quote = '\'' ∧ rest.head? = some quote then readQuoted quote fuel (quote :: acc) (c.skip 2)
          else some (acc.reverse, c.skip 1)
        else if ch = '\\' ∧ quote = '"' then
          if (c.skip 1).atBreak then
            (Gap.readAt 0 .escaped (c.skip 1).skipBreak).bind fun (g, c) =>
              readQuoted quote fuel (g.fold ++ acc) c
          else (escape? rest).bind fun (ch, n) => readQuoted quote fuel (ch :: acc) (c.skip (n + 1))
        else readQuoted quote fuel (ch :: acc) (c.skip 1)

end LayeredConfig.Yaml
