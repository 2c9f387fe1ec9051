import LayeredConfig.Yaml.Cursor

/-! # Scalars without quotes

Such a scalar goes on over lines that are indented, and ends where an indicator begins: a colon before a
blank, a comment, the border of a document, and inside brackets a comma or a bracket.
-/
namespace LayeredConfig.Yaml

def flowIndicators : List Char := [',', '[', ']', '\x7b', '\x7d']

/-- The word that comes next, perhaps empty. Inside brackets a colon directly before an indicator is an
error. -/
def word? (inFlow : Bool) : List Char → Option (List Char)
  | [] => some []
  | c :: rest =>
    if isSpaceOrTab c || isBreak c then some []
    else if inFlow && c = ':' && rest.head?.any ('?' :: flowIndicators).contains then none
    else if c = ':' && blankAhead rest then some []
    else if inFlow && flowIndicators.contains c then some []
    else (word? inFlow rest).map (c :: ·)

/-- Reads a scalar, and whether it ended with a line. `acc` holds its words so far, last first, and `gap`
what came after them. Outside brackets further lines begin at the column `indent` or right of it. -/
def readBare (inFlow : Bool) (indent : Nat) :
    Nat → List Char → Gap → Cursor → Option (List Char × Bool × Cursor)
  | 0, _, _, _ => none
  | fuel + 1, acc, gap, c =>
    if c.atBorder || c.rest.head? = some '#' then some (acc.reverse, gap.broken, c)
    else (word? inFlow c.rest).bind fun word =>
      if word.isEmpty then some (acc.reverse, gap.broken, c)
      else
        let acc := word.reverse ++ gap.fold ++ acc
        (Gap.readAt indent .none (c.skip word.length)).bind fun (gap, c) =>
          if !inFlow && c.column < indent then some (acc.reverse, gap.broken, c)
          else readBare inFlow indent fuel acc gap c

end LayeredConfig.Yaml
