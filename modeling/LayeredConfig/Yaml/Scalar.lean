import LayeredConfig.Digits
import LayeredConfig.Value.Basic

/-! # Plain scalars

A scalar without quotes is a null, a truth value, an integer, a float or a text, by its characters alone.
-/
namespace LayeredConfig.Yaml

/-- What a scalar without quotes stands for. Infinities and not-a-number are floats without a value. -/
inductive Plain where
  | null
  | bool (b : Bool)
  | integer (i : Int)
  | float (x : Option Binary64)
  | text

def nullWords : List (List Char) :=
  [['n', 'u', 'l', 'l'], ['N', 'u', 'l', 'l'], ['N', 'U', 'L', 'L'], ['~']]

def trueWords : List (List Char) :=
  [['t', 'r', 'u', 'e'], ['T', 'r', 'u', 'e'], ['T', 'R', 'U', 'E']]

def falseWords : List (List Char) :=
  [['f', 'a', 'l', 's', 'e'], ['F', 'a', 'l', 's', 'e'], ['F', 'A', 'L', 'S', 'E']]

def infinityWords : List (List Char) :=
  [['.', 'i', 'n', 'f'], ['.', 'I', 'n', 'f'], ['.', 'I', 'N', 'F']]

def nanWords : List (List Char) :=
  [['.', 'n', 'a', 'n'], ['.', 'N', 'a', 'N'], ['.', 'N', 'A', 'N']]

/-- A zero with further digits after it is a text, whatever its sign. -/
def isPaddedDigits (cs : List Char) : Bool :=
  let digits := match cs with
    | '-' :: rest => rest
    | '+' :: rest => rest
    | rest => rest
  match digits with
  | '0' :: c :: rest => (c :: rest).all Char.isDigit
  | _ => false

def magnitude? (padded : Bool) : List Char → Option Nat
  | '0' :: 'x' :: rest => Digits.number? 16 rest
  | '0' :: 'o' :: rest => Digits.number? 8 rest
  | '0' :: 'b' :: rest => Digits.number? 2 rest
  | rest => if padded then none else Digits.number? 10 rest

def splitSign : List Char → Bool × List Char
  | '-' :: rest => (true, rest)
  | '+' :: rest => (false, rest)
  | rest => (false, rest)

/-- The integer that a scalar denotes, within the range of words of 128 bits. -/
def integer? (cs : List Char) : Option Int :=
  let (negative, rest) := splitSign cs
  (magnitude? (isPaddedDigits cs) rest).bind fun n =>
    if negative then if n ≤ Nat.pow 2 127 then some (-(n : Int)) else none
    else if n < Nat.pow 2 128 then some (n : Int) else none

/-- The finite float that a scalar denotes: digits on at least one side of the point, then perhaps an
exponent. -/
def finite? (cs : List Char) : Option Binary64 :=
  let (negative, rest) := splitSign cs
  let (whole, rest) := rest.span Char.isDigit
  let (fraction, rest) := match rest with
    | '.' :: rest => rest.span Char.isDigit
    | rest => ([], rest)
  if whole.isEmpty && fraction.isEmpty then none
  else
    let exponent? : Option Int := match rest with
      | [] => some 0
      | c :: rest =>
        if c = 'e' ∨ c = 'E' then
          let (below, rest) := splitSign rest
          (Digits.number? 10 rest).map fun n => if below then -(n : Int) else n
        else none
    exponent?.bind fun e =>
      (Digits.number? 10 (whole ++ fraction)).bind fun n =>
        Binary64.ofDecimal? negative n (e - fraction.length)

def float? (cs : List Char) : Option (Option Binary64) :=
  if infinityWords.contains (splitSign cs).2 || nanWords.contains cs then some none
  else (finite? cs).map some

def plain (cs : List Char) : Plain :=
  if cs.isEmpty || nullWords.contains cs then .null
  else if trueWords.contains cs then .bool true
  else if falseWords.contains cs then .bool false
  else match integer? cs with
    | some i => .integer i
    | none =>
      if isPaddedDigits cs then .text
      else match float? cs with
        | some x => .float x
        | none => .text

def Plain.isText : Plain → Bool
  | text => true
  | _ => false

end LayeredConfig.Yaml
