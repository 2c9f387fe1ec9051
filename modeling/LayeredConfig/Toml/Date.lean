import LayeredConfig.Digits

/-! # Dates and times

A date, a time of day, or a date with a time and perhaps an offset from universal time. The value is a
text in one normal form: seconds are always there, fractions of a second only as far as they are not
zero, and `T` and `Z` are capitals.
-/
namespace LayeredConfig.Toml

def isLeapYear (year : Nat) : Bool := year % 4 = 0 && (year % 100 ≠ 0 || year % 400 = 0)

def daysInMonth (year month : Nat) : Nat :=
  if month = 2 then if isLeapYear year then 29 else 28
  else if [4, 6, 9, 11].contains month then 30
  else 31

def decimal? (cs : List Char) : Option Nat := Digits.number? 10 cs

def isPair (most : Nat) (tens ones : Char) : Bool := (decimal? [tens, ones]).any (· ≤ most)

def readDate : List Char → Option (List Char × List Char)
  | y :: z :: u :: v :: '-' :: m :: n :: '-' :: d :: e :: rest => do
    let year ← decimal? [y, z, u, v]
    let month ← decimal? [m, n]
    let day ← decimal? [d, e]
    if 1 ≤ month ∧ month ≤ 12 ∧ 1 ≤ day ∧ day ≤ daysInMonth year month then
      some ([y, z, u, v, '-', m, n, '-', d, e], rest)
    else none
  | _ => none

/-- A fraction of a second, to nine digits and without final zeros. -/
def fractionText (digits : List Char) : List Char :=
  match ((digits.take 9).reverse.dropWhile (· = '0')).reverse with
  | [] => []
  | kept => '.' :: kept

def readSeconds : List Char → Option (List Char × List Char)
  | ':' :: s :: t :: rest =>
    if !isPair 60 s t then none
    else match rest with
      | '.' :: rest =>
        let (digits, rest) := rest.span Char.isDigit
        if digits.isEmpty then none else some (':' :: s :: t :: fractionText digits, rest)
      | rest => some ([':', s, t], rest)
  | ':' :: _ => none
  | rest => some ([':', '0', '0'], rest)

def readTime : List Char → Option (List Char × List Char)
  | h :: i :: ':' :: m :: n :: rest =>
    if isPair 23 h i && isPair 59 m n then
      (readSeconds rest).map fun (seconds, rest) => (h :: i :: ':' :: m :: n :: seconds, rest)
    else none
  | _ => none

/-- The text of an offset: none, universal time, or hours and minutes with a sign. -/
def offset? : List Char → Option (List Char)
  | [] => some []
  | ['Z'] | ['z'] => some ['Z']
  | [sign, h, i, ':', m, n] =>
    if (sign = '+' ∨ sign = '-') ∧ isPair 23 h i ∧ isPair 59 m n then
      let zero := [h, i, m, n].all (· = '0')
      some [if zero then '+' else sign, h, i, ':', m, n]
    else none
  | _ => none

/-- The normal form of a date, a time, or both with a letter between them. -/
def dateTime? (cs : List Char) : Option (List Char) :=
  match readDate cs with
  | some (date, []) => some date
  | some (date, c :: rest) =>
    if c = 'T' ∨ c = 't' then do
      let (time, rest) ← readTime rest
      let offset ← offset? rest
      some (date ++ 'T' :: time ++ offset)
    else none
  | none =>
    match readTime cs with
    | some (time, []) => some time
    | _ => none

end LayeredConfig.Toml
