import LayeredConfig.Binary64

/-! # Numbers of a configuration

A number is an integer that fits a signed or an unsigned 64-bit word, or a finite binary floating-point
number. The two kinds are never equal to each other; `Number.canonical` is what makes `1.0` and `1` one.
-/
namespace LayeredConfig

/-- An integer that fits a signed or an unsigned word of 64 bits: at least `-2 ^ 63`, below `2 ^ 64`. -/
structure Integer where
  val : Int
  low : -9223372036854775808 ≤ val
  high : val < 18446744073709551616
deriving DecidableEq

namespace Integer

def ofInt? (i : Int) : Option Integer :=
  if h : -9223372036854775808 ≤ i ∧ i < 18446744073709551616 then some ⟨i, h.1, h.2⟩ else none

def toNat? (n : Integer) : Option Nat := if 0 ≤ n.val then some n.val.toNat else none

end Integer

inductive Word where
  | signed
  | unsigned

namespace Word

def least : Word → Int
  | signed => -9223372036854775808
  | unsigned => 0

def greatest : Word → Int
  | signed => 9223372036854775807
  | unsigned => 18446744073709551615

/-- Whether a float is taken for one of a word: not below the least of its integers and below the greatest,
where both bounds count as the floats that are nearest to them. -/
def admits (w : Word) (x : Binary64) : Bool :=
  (Binary64.ofInt? w.least).any (·.units ≤ x.units) && (Binary64.ofInt? w.greatest).any (x.units < ·.units)

/-- A float is cast to a word without its fraction, and to the nearest bound where that is out of range. -/
def cast (w : Word) (x : Binary64) : Integer where
  val := max w.least (min x.truncate w.greatest)
  low := by cases w <;> simp only [least, greatest] <;> omega
  high := by cases w <;> simp only [least, greatest] <;> omega

end Word

inductive Number where
  | integer (n : Integer)
  | float (x : Binary64)
deriving DecidableEq

namespace Number

/-- Equality as documents are compared: integers by value, floats by value, never across the kinds. -/
def same : Number → Number → Bool
  | integer m, integer n => m == n
  | float x, float y => x.sameValue y
  | _, _ => false

def canonical : Number → Number
  | integer n => integer n
  | float x =>
    if x.fraction ≠ 0 then float x
    else if Word.signed.admits x then integer (Word.signed.cast x)
    else if Word.unsigned.admits x then integer (Word.unsigned.cast x)
    else float x

end Number
end LayeredConfig
