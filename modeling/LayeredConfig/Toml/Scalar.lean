import LayeredConfig.Toml.Date
import LayeredConfig.Value.Basic

/-! # Unquoted values

A value without quotes or brackets is a truth value, a number, or a date or time, by its characters alone.
Infinities and not-a-number are no values of a configuration and count as `null`.
-/
namespace LayeredConfig.Toml

/-- The digits of a numeral: each underscore in it stands between two digits. -/
def digits? (radix : Nat) : List Char → Option (List Char)
  | [] => none
  | [c] => if (Digits.value? radix c).isSome then some [c] else none
  | c :: '_' :: d :: rest =>
    if (Digits.value? radix c).isSome then (digits? radix (d :: rest)).map (c :: ·) else none
  | c :: d :: rest =>
    if (Digits.value? radix c).isSome then (digits? radix (d :: rest)).map (c :: ·) else none

def numeral? (radix : Nat) (cs : List Char) : Option Nat :=
  (digits? radix cs).bind (Digits.number? radix)

/-- The digits before a point: a leading zero stands alone. -/
def whole? (cs : List Char) : Option (List Char) :=
  (digits? 10 cs).filter fun digits => digits.head? ≠ some '0' || digits.length = 1

def splitSign : List Char → Bool × List Char
  | '-' :: rest => (true, rest)
  | '+' :: rest => (false, rest)
  | rest => (false, rest)

/-- The integer that a word denotes: decimal with a sign, or without one in another radix. -/
def integer? : List Char → Option Int
  | '0' :: 'x' :: rest => (numeral? 16 rest).map Int.ofNat
  | '0' :: 'o' :: rest => (numeral? 8 rest).map Int.ofNat
  | '0' :: 'b' :: rest => (numeral? 2 rest).map Int.ofNat
  | cs =>
    let (negative, rest) := splitSign cs
    ((whole? rest).bind (Digits.number? 10)).map fun n => if negative then -(n : Int) else n

def float? (cs : List Char) : Option Binary64 := do
  let (negative, cs) := splitSign cs
  let (whole, cs) := cs.span fun c => c ≠ '.' && c ≠ 'e' && c ≠ 'E'
  let whole ← whole? whole
  let (fraction, cs) ← match cs with
    | '.' :: rest =>
      let (fraction, rest) := rest.span fun c => c ≠ 'e' && c ≠ 'E'
      (digits? 10 fraction).map fun digits => (digits, rest)
    | rest => some ([], rest)
  let exponent ← match cs with
    | [] => some 0
    | _ :: rest =>
      let (below, rest) := splitSign rest
      (numeral? 10 rest).map fun n => if below then -(n : Int) else n
  let coefficient ← Digits.number? 10 (whole ++ fraction)
  Binary64.ofDecimal? negative coefficient (exponent - fraction.length)

def isTrue : List Char → Bool
  | ['t', 'r', 'u', 'e'] => true
  | _ => false

def isFalse : List Char → Bool
  | ['f', 'a', 'l', 's', 'e'] => true
  | _ => false

def isUnbounded (cs : List Char) : Bool :=
  [['i', 'n', 'f'], ['n', 'a', 'n']].contains (splitSign cs).2

def scalar? (cs : List Char) : Option Value :=
  if isTrue cs then some (.bool true)
  else if isFalse cs then some (.bool false)
  else if isUnbounded cs then some .null
  else match dateTime? cs with
    | some text => some (.string (String.ofList text))
    | none =>
      match integer? cs with
      | some i => Value.integer? i
      | none => (float? cs).map fun x => .number (.float x)

end LayeredConfig.Toml
