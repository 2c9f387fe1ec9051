import LayeredConfig.Digits
import LayeredConfig.Toml.Characters

/-! # Quoted text

A text stands between double quotes, with escapes, or between single quotes, without them. Tripled quotes
hold several lines: a line end right after the opening ones does not count, every line end is read as a
single character, and up to two quotes more may stand before the closing ones.
-/
namespace LayeredConfig.Toml

def afterBreak? : List Char → Option (List Char)
  | '\n' :: rest => some rest
  | '\r' :: '\n' :: rest => some rest
  | _ => none

def skipSpace : List Char → List Char
  | '\r' :: '\n' :: rest => skipSpace rest
  | c :: rest => if c = '\n' || isBlank c then skipSpace rest else c :: rest
  | [] => []

def shortEscape? (c : Char) : Option Char :=
  match c with
  | '"' => some '"'
  | '\\' => some '\\'
  | 'b' => some (Char.ofNat 8)
  | 'e' => some (Char.ofNat 27)
  | 'f' => some (Char.ofNat 12)
  | 'n' => some '\n'
  | 'r' => some '\r'
  | 't' => some '\t'
  | _ => none

def readEscape : List Char → Option (Char × List Char)
  | 'x' :: a :: b :: rest => (Digits.hexChar? [a, b]).map (·, rest)
  | 'u' :: a :: b :: c :: d :: rest => (Digits.hexChar? [a, b, c, d]).map (·, rest)
  | 'U' :: a :: b :: c :: d :: e :: f :: g :: h :: rest =>
    (Digits.hexChar? [a, b, c, d, e, f, g, h]).map (·, rest)
  | c :: rest => (shortEscape? c).map (·, rest)
  | [] => none

/-- Reads the text of one line up to the closing quote. `acc` holds what was read, last first, and
`fuel` bounds the steps: the length of the input and one always suffice. -/
def readLine (quote : Char) : Nat → List Char → List Char → Option (List Char × List Char)
  | 0, _, _ => none
  | _, _, [] => none
  | fuel + 1, acc, c :: rest =>
    if c = quote then some (acc.reverse, rest)
    else if c = '\\' ∧ quote = '"' then
      (readEscape rest).bind fun (c, rest) => readLine quote fuel (c :: acc) rest
    else if isControl c then none
    else readLine quote fuel (c :: acc) rest

/-- Reads the text of several lines up to the closing quotes. A backslash at the end of a line drops the
blanks and line ends that follow it. -/
def readLines (quote : Char) : Nat → List Char → List Char → Option (List Char × List Char)
  | 0, _, _ => none
  | _, _, [] => none
  | fuel + 1, acc, c :: rest =>
    if c = quote then
      let run := ((c :: rest).takeWhile (· = quote)).length
      if run < 3 then readLines quote fuel (c :: acc) rest
      else
        let closing := min run 5
        some (acc.reverse ++ List.replicate (closing - 3) quote, (c :: rest).drop closing)
    else if c = '\\' ∧ quote = '"' then
      if (afterBreak? (rest.dropWhile isBlank)).isSome then readLines quote fuel acc (skipSpace rest)
      else (readEscape rest).bind fun (c, rest) => readLines quote fuel (c :: acc) rest
    else match afterBreak? (c :: rest) with
      | some rest => readLines quote fuel ('\n' :: acc) rest
      | none => if isControl c then none else readLines quote fuel (c :: acc) rest

/-- Reads a text from its opening quote on, if one comes next. The inner `none` is a text that does not
end. -/
def readQuoted? : List Char → Option (Option (List Char × List Char))
  | c :: rest =>
    if c = '"' ∨ c = '\'' then
      match rest with
      | d :: e :: lines =>
        if d = c ∧ e = c then
          let lines := (afterBreak? lines).getD lines
          some (readLines c (lines.length + 1) [] lines)
        else some (readLine c (rest.length + 1) [] rest)
      | rest => some (readLine c (rest.length + 1) [] rest)
    else none
  | [] => none

end LayeredConfig.Toml
