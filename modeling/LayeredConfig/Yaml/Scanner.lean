import LayeredConfig.Yaml.Bare
import LayeredConfig.Yaml.Block
import LayeredConfig.Yaml.Quoted
import LayeredConfig.Yaml.Tag

/-! # Scanning

The scanner turns a text into tokens. Outside brackets the columns of entries and keys open and close
blocks. Whether a scalar is a key shows only at the colon after it, so its place among the tokens is
remembered until then, and the mark of the key is put in there.
-/
namespace LayeredConfig.Yaml

/-- A place where a key may have begun: how many tokens came before it, and where it stands in the text.
It is required when nothing but a key can stand there. -/
structure KeyCandidate where
  before : Nat
  index : Nat
  line : Nat
  column : Nat
  required : Bool

/-- A key stands on one line and is at most this long, up to its colon. -/
def keyLengthLimit : Nat := 1024

/-- The tokens are held last first, `count` of them; `indents` are the columns of the open blocks, innermost first, and
`around` the candidates outside each open bracket, innermost first. -/
structure Scanner where
  cursor : Cursor
  tokens : List Token
  count : Nat
  indents : List Nat
  candidate : Option KeyCandidate
  around : List (Option KeyCandidate)
  keyAllowed : Bool

namespace Scanner

def start (cs : List Char) : Scanner := ⟨.start cs, [], 0, [], none, [], true⟩

def inFlow (s : Scanner) : Bool := !s.around.isEmpty

def emit (s : Scanner) (token : Token) : Scanner :=
  { s with tokens := token :: s.tokens, count := s.count + 1 }

def skip (s : Scanner) (n : Nat) : Scanner := { s with cursor := s.cursor.skip n }

def allowKey (s : Scanner) (allowed : Bool) : Scanner := { s with keyAllowed := allowed }

def isDeeper (s : Scanner) (column : Nat) : Bool :=
  match s.indents with
  | [] => true
  | indent :: _ => indent < column

def openBlock (s : Scanner) (column : Nat) (token : Token) : Scanner :=
  if !s.inFlow && s.isDeeper column then { s with indents := column :: s.indents }.emit token else s

def closeBlocks (s : Scanner) (column : Option Nat) : Scanner :=
  if s.inFlow then s
  else
    let closed := s.indents.takeWhile (fun indent => column.all (· < indent))
    closed.foldl (fun s _ => s.emit .blockEnd) { s with indents := s.indents.drop closed.length }

/-- Gives up the candidate, unless it is required. -/
def dropCandidate (s : Scanner) : Option Scanner :=
  if s.candidate.any (·.required) then none else some { s with candidate := none }

def here (s : Scanner) : KeyCandidate where
  before := s.count
  index := s.cursor.index
  line := s.cursor.line
  column := s.cursor.column
  required := !s.inFlow && s.indents.head? = some s.cursor.column

def markCandidate (s : Scanner) : Option Scanner :=
  if s.keyAllowed then s.dropCandidate.map fun s => { s with candidate := some s.here } else some s

def reaches (k : KeyCandidate) (c : Cursor) : Bool :=
  k.line = c.line && c.index ≤ k.index + keyLengthLimit

/-- Puts the mark of a key before the tokens that have come since, and opens its block if it is new. -/
def insertKey (s : Scanner) (k : KeyCandidate) : Scanner :=
  let since := s.count - k.before
  let older := { s with tokens := s.tokens.drop since, count := k.before }
  let marked := (older.openBlock k.column .mappingStart).emit .key
  { marked with tokens := s.tokens.take since ++ marked.tokens, count := marked.count + since }

/-- A colon after a candidate makes it a key. Any other colon belongs to a key of several lines, or to
none. -/
def scanValue (s : Scanner) : Option Scanner :=
  match s.candidate.filter (reaches · s.cursor) with
  | some k =>
    let s := s.insertKey k
    some ((({ s with candidate := none }.allowKey false).skip 1).emit .value)
  | none =>
    s.dropCandidate.bind fun s =>
      if s.inFlow then some (((s.allowKey false).skip 1).emit .value)
      else if s.keyAllowed then
        some ((((s.openBlock s.cursor.column .mappingStart).allowKey true).skip 1).emit .value)
      else none

def scanKey (s : Scanner) : Option Scanner :=
  if !s.inFlow && !s.keyAllowed then none
  else (s.openBlock s.cursor.column .mappingStart).dropCandidate.map fun s =>
    ((s.allowKey !s.inFlow).skip 1).emit .key

/-- The dash of an entry; inside brackets it is left to be found wrong later. -/
def scanEntry (s : Scanner) : Option Scanner :=
  if !s.inFlow && !s.keyAllowed then none
  else (s.openBlock s.cursor.column .sequenceStart).dropCandidate.map fun s =>
    ((s.allowKey true).skip 1).emit .sequenceEntry

def openBracket (s : Scanner) (token : Token) : Option Scanner :=
  s.markCandidate.map fun s =>
    (({ s with candidate := none, around := s.candidate :: s.around }.allowKey true).skip 1).emit token

/-- A closing bracket: what is after it may make the whole a key. -/
def closeBracket (s : Scanner) (token : Token) : Option Scanner :=
  s.dropCandidate.map fun s =>
    let s := match s.around with
      | [] => s
      | candidate :: around => { s with candidate, around }
    ((s.allowKey false).skip 1).emit token

def scanFlowEntry (s : Scanner) : Option Scanner :=
  s.dropCandidate.map fun s => ((s.allowKey true).skip 1).emit .flowEntry

def scanBorder (s : Scanner) (token : Token) : Option Scanner :=
  (s.closeBlocks none).dropCandidate.map fun s => ((s.allowKey false).skip 3).emit token

def scanDirective (s : Scanner) : Option Scanner := do
  let s ← (s.closeBlocks none).dropCandidate
  let (token, cursor) ← readDirective (s.cursor.skip 1)
  some ({ s with cursor }.allowKey false |>.emit token)

def scanAnchor (s : Scanner) (token : List Char → Token) : Option Scanner := do
  let s ← s.markCandidate
  let (name, cursor) ← readAnchor (s.cursor.skip 1)
  some ({ s with cursor }.allowKey false |>.emit (token name))

def scanTag (s : Scanner) : Option Scanner := do
  let s ← s.markCandidate
  let (token, cursor) ← readTag s.inFlow s.cursor
  some ({ s with cursor }.allowKey false |>.emit token)

def scanBlock (s : Scanner) (isLiteral : Bool) : Option Scanner := do
  let s ← s.dropCandidate
  let (text, cursor) ← readBlock isLiteral s.indents.head? (s.cursor.skip 1)
  some ({ s with cursor }.allowKey true |>.emit (.scalar text false))

def scanQuoted (s : Scanner) (quote : Char) : Option Scanner := do
  let s ← s.markCandidate
  let (text, cursor) ← readQuoted quote (s.cursor.size + 1) [] (s.cursor.skip 1)
  some ({ s with cursor }.allowKey false |>.emit (.scalar text false))

def scanBare (s : Scanner) : Option Scanner := do
  let s ← s.markCandidate
  let indent := match s.indents.head? with
    | some indent => indent + 1
    | none => 0
  let (text, ended, cursor) ← readBare s.inFlow indent (s.cursor.size + 1) [] .none s.cursor
  some ({ s with cursor }.allowKey ended |>.emit (.scalar text true))

/-- Passes blanks, comments and line ends. A tab counts as a blank inside brackets and where no key may
stand. A mark of the byte order may begin a line. -/
def skipVoid : Nat → Scanner → Scanner
  | 0, s => s
  | fuel + 1, s =>
    let c := s.cursor
    let c := if c.column = 0 ∧ c.rest.head? = some '\uFEFF' then c.skip 1 else c
    let tabs := s.inFlow || !s.keyAllowed
    let c := c.skipWhile fun ch => ch = ' ' || (tabs && ch = '\t')
    let c := if c.rest.head? = some '#' then c.skipWhile (!isBreak ·) else c
    if c.atBreak then skipVoid fuel { s with cursor := c.skipBreak, keyAllowed := s.keyAllowed || !s.inFlow }
    else { s with cursor := c }

def scanToken (s : Scanner) (ch : Char) (rest : List Char) : Option Scanner :=
  let blank := blankAhead rest
  if s.cursor.column = 0 && ch = '%' then s.scanDirective
  else if s.cursor.atBorder then s.scanBorder (if ch = '-' then .documentStart else .documentEnd)
  else if ch = '[' then s.openBracket .flowSequenceStart
  else if ch = '\x7b' then s.openBracket .flowMappingStart
  else if ch = ']' then s.closeBracket .flowSequenceEnd
  else if ch = '\x7d' then s.closeBracket .flowMappingEnd
  else if ch = ',' then s.scanFlowEntry
  else if ch = '-' && blank then s.scanEntry
  else if ch = '?' && (s.inFlow || blank) then s.scanKey
  else if ch = ':' && (s.inFlow || blank) then s.scanValue
  else if ch = '*' then s.scanAnchor .alias
  else if ch = '&' then s.scanAnchor .anchor
  else if ch = '!' then s.scanTag
  else if ch = '|' && !s.inFlow then s.scanBlock true
  else if ch = '>' && !s.inFlow then s.scanBlock false
  else if ch = '\'' || ch = '"' then s.scanQuoted ch
  else if isSpaceOrTab ch || openingIndicators.contains ch then none
  else s.scanBare

def scanAll : Nat → Scanner → Option (List Token)
  | 0, _ => none
  | fuel + 1, s =>
    let s := skipVoid (s.cursor.size + 1) s
    match s.cursor.rest with
    | [] => (s.closeBlocks none).dropCandidate.map (·.tokens.reverse)
    | ch :: rest => ((s.closeBlocks (some s.cursor.column)).scanToken ch rest).bind (scanAll fuel)

end Scanner

def tokens? (cs : List Char) : Option (List Token) :=
  let cs := if cs.head? = some '\uFEFF' then cs.drop 1 else cs
  if cs.all isAllowed then Scanner.scanAll (cs.length + 1) (.start cs) else none

end LayeredConfig.Yaml
