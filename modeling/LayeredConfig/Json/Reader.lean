import LayeredConfig.Digits
import LayeredConfig.Value.Basic

/-! # Reading JSON

The reader takes a list of characters and returns a value with what follows it. Of fields with one key
the last counts. A text may hold several values one after the other; only a number or a word needs
something between itself and the next value.

A float is read in two roundings: the digits that fit an unsigned word are rounded first, and the result
is then scaled by a power of ten that is itself a number of the format.
-/
namespace LayeredConfig.Json

def isBlank (c : Char) : Bool := c = ' ' || c = '\n' || c = '\t' || c = '\r'

def skipBlanks (cs : List Char) : List Char := cs.dropWhile isBlank

def shortEscape? (c : Char) : Option Char :=
  match c with
  | '"' => some '"'
  | '\\' => some '\\'
  | '/' => some '/'
  | 'b' => some (Char.ofNat 8)
  | 'f' => some (Char.ofNat 12)
  | 'n' => some '\n'
  | 'r' => some '\r'
  | 't' => some '\t'
  | _ => none

/-- The characters up to the closing quote, and what follows it; `acc` holds those already read, last
first. Characters beyond the basic plane may be written as a pair of surrogate escapes, and a surrogate
cannot stand alone. -/
def readQuoted (acc : List Char) : List Char → Option (String × List Char)
  | [] => none
  | c :: rest =>
    if c = '"' then some (String.ofList acc.reverse, rest)
    else if c.toNat < 32 then none
    else if c = '\\' then
      match rest with
      | 'u' :: a :: b :: d :: e :: rest => do
        let high ← Digits.number? 16 [a, b, d, e]
        if 0xDC00 ≤ high ∧ high < 0xE000 then none
        else if 0xD800 ≤ high ∧ high < 0xDC00 then
          match rest with
          | '\\' :: 'u' :: a :: b :: d :: e :: rest =>
            let low ← Digits.number? 16 [a, b, d, e]
            if 0xDC00 ≤ low ∧ low < 0xE000 then
              readQuoted (Char.ofNat (0x10000 + (high - 0xD800) * 0x400 + (low - 0xDC00)) :: acc) rest
            else none
          | _ => none
        else readQuoted (Char.ofNat high :: acc) rest
      | e :: rest => do
        let c ← shortEscape? e
        readQuoted (c :: acc) rest
      | [] => none
    else readQuoted (c :: acc) rest

/-- A significand and the power of ten that scales it, while digits are read: once a digit no longer
fits an unsigned word, it and all digits after it are dropped. -/
structure Significand where
  value : Nat
  exponent : Int
  full : Bool

namespace Significand

def digit (c : Char) : Nat := c.toNat - '0'.toNat

/-- A digit before the point: a dropped one counts in the exponent. -/
def whole (s : Significand) (c : Char) : Significand :=
  if s.full ∨ 18446744073709551616 ≤ 10 * s.value + digit c then { s with exponent := s.exponent + 1, full := true }
  else { s with value := 10 * s.value + digit c }

/-- A digit after the point: a dropped one leaves no trace. -/
def fraction (s : Significand) (c : Char) : Significand :=
  if s.full ∨ 18446744073709551616 ≤ 10 * s.value + digit c then { s with full := true }
  else { s with value := 10 * s.value + digit c, exponent := s.exponent - 1 }

end Significand

def powerOfTen? (k : Nat) : Option Binary64 := Binary64.ofRatio? false (Nat.pow 10 k) 1

/-- Scales by a power of ten, in steps of `10 ^ 308` downwards; `none` when the result is too large. -/
def scale? : Nat → Binary64 → Int → Option Binary64
  | 0, x, _ => some x
  | fuel + 1, x, exponent =>
    if exponent.natAbs ≤ 308 then
      (powerOfTen? exponent.natAbs).bind fun p => if 0 ≤ exponent then x.mul? p else x.div? p
    else if x.significand = 0 then some x
    else if 0 ≤ exponent then none
    else (powerOfTen? 308).bind fun p => (x.div? p).bind fun y => scale? fuel y (exponent + 308)

/-- The float with a significand and a decimal exponent. Three steps down from any significand lead to
zero. -/
def float? (negative : Bool) (significand : Nat) (exponent : Int) : Option Number :=
  (Binary64.ofRatio? false significand 1).bind fun x =>
    (scale? 4 x exponent).map fun y => .float (if negative then y.negate else y)

def digitsValue (cs : List Char) : Nat := cs.foldl (fun n c => 10 * n + Significand.digit c) 0

/-- The exponent of a literal, if `e` or `E` follows; the outer `none` is an exponent without digits. -/
def readExponent : List Char → Option (Option Int × List Char)
  | [] => some (none, [])
  | c :: rest =>
    if c = 'e' ∨ c = 'E' then
      let (negative, rest) := match rest with
        | '+' :: rest => (false, rest)
        | '-' :: rest => (true, rest)
        | rest => (false, rest)
      let (digits, rest) := rest.span Char.isDigit
      if digits.isEmpty then none
      else
        let e : Int := digitsValue digits
        some (some (if negative then -e else e), rest)
    else some (none, c :: rest)

/-- The digits after a point, if one follows; the outer `none` is a point without digits. -/
def readFraction : List Char → Option (Option (List Char) × List Char)
  | '.' :: rest =>
    let (digits, rest) := rest.span Char.isDigit
    if digits.isEmpty then none else some (some digits, rest)
  | rest => some (none, rest)

def readWhole : List Char → Option (List Char × List Char)
  | '0' :: c :: rest => if c.isDigit then none else some (['0'], c :: rest)
  | ['0'] => some (['0'], [])
  | rest =>
    let (digits, rest) := rest.span Char.isDigit
    if digits.isEmpty then none else some (digits, rest)

/-- A literal without point and exponent is an integer when it fits a word, except for `-0`. -/
def readNumber (cs : List Char) : Option (Number × List Char) := do
  let (negative, cs) := match cs with
    | '-' :: rest => (true, rest)
    | rest => (false, rest)
  let (whole, cs) ← readWhole cs
  let (fraction, cs) ← readFraction cs
  let (exponent, cs) ← readExponent cs
  let significand := (fraction.getD []).foldl Significand.fraction
    (whole.foldl Significand.whole ⟨0, 0, false⟩)
  let asFloat := float? negative significand.value (significand.exponent + exponent.getD 0)
  let number ← match fraction, exponent with
    | none, none =>
      let i : Int := digitsValue whole
      if negative ∧ i = 0 then asFloat
      else match Integer.ofInt? (if negative then -i else i) with
        | some n => some (.integer n)
        | none => asFloat
    | _, _ => asFloat
  some (number, cs)

mutual

/-- Reads one value. `depth` is how many more levels of lists and maps are allowed, and `fuel` bounds
the calls: twice the length of the text and one always suffice. -/
def readValue : Nat → Nat → List Char → Option (Value × List Char)
  | 0, _, _ => none
  | fuel + 1, depth, cs =>
    match skipBlanks cs with
    | 'n' :: 'u' :: 'l' :: 'l' :: rest => some (.null, rest)
    | 't' :: 'r' :: 'u' :: 'e' :: rest => some (.bool true, rest)
    | 'f' :: 'a' :: 'l' :: 's' :: 'e' :: rest => some (.bool false, rest)
    | '"' :: rest => (readQuoted [] rest).map fun (s, rest) => (.string s, rest)
    | '[' :: rest =>
      match depth with
      | 0 => none
      | depth + 1 =>
        match skipBlanks rest with
        | ']' :: rest => some (.list [], rest)
        | rest => (readItems fuel depth [] rest).map fun (items, rest) => (.list items, rest)
    | '{' :: rest =>
      match depth with
      | 0 => none
      | depth + 1 =>
        match skipBlanks rest with
        | '}' :: rest => some (.map [], rest)
        | rest => (readFields fuel depth [] rest).map fun (fields, rest) => (.map fields, rest)
    | rest => (readNumber rest).map fun (n, rest) => (.number n, rest)

def readItems : Nat → Nat → List Value → List Char → Option (List Value × List Char)
  | 0, _, _, _ => none
  | fuel + 1, depth, acc, cs => do
    let (v, cs) ← readValue fuel depth cs
    match skipBlanks cs with
    | ',' :: rest => readItems fuel depth (v :: acc) rest
    | ']' :: rest => some ((v :: acc).reverse, rest)
    | _ => none

def readFields : Nat → Nat → Fields → List Char → Option (Fields × List Char)
  | 0, _, _, _ => none
  | fuel + 1, depth, acc, cs => do
    match skipBlanks cs with
    | '"' :: rest =>
      let (key, cs) ← readQuoted [] rest
      match skipBlanks cs with
      | ':' :: rest =>
        let (v, cs) ← readValue fuel depth rest
        match skipBlanks cs with
        | ',' :: rest => readFields fuel depth (Fields.insert key v acc) rest
        | '}' :: rest => some (Fields.insert key v acc, rest)
        | _ => none
      | _ => none
    | _ => none

end

def depthLimit : Nat := 127

def endsItself : Value → Bool
  | .list _ | .map _ | .string _ => true
  | _ => false

def endsWord : List Char → Bool
  | [] => true
  | c :: _ => isBlank c || ['"', '[', ']', '\x7b', '\x7d', ',', ':'].contains c

def readStream : Nat → List Char → Option (List Value)
  | 0, _ => none
  | fuel + 1, cs =>
    match skipBlanks cs with
    | [] => some []
    | cs => do
      let (v, rest) ← readValue (2 * cs.length + 1) depthLimit cs
      if endsItself v || endsWord rest then
        let vs ← readStream fuel rest
        some (v :: vs)
      else none

def documents? (text : String) : Option (List Value) :=
  readStream (text.toList.length + 1) text.toList

def value? (text : String) : Option Value :=
  let cs := text.toList
  match readValue (2 * cs.length + 1) cs.length cs with
  | some (v, rest) => if (skipBlanks rest).isEmpty then some v else none
  | none => none

end LayeredConfig.Json
