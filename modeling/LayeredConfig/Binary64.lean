/-! # Finite binary floating-point numbers

A number of the 64-bit binary format is held exactly, as a sign, a significand and a scale; infinities
and not-a-number have no place in a configuration. All arithmetic on it is exact arithmetic on natural
numbers followed by one rounding to the nearest number of the format, ties to the even significand.
-/
namespace LayeredConfig

/-- The number `± significand · 2 ^ scale` in units of `2 ^ -1074`, the least positive number. -/
structure Binary64 where
  negative : Bool
  significand : Nat
  scale : Nat
  significand_lt : significand < Nat.pow 2 53
  scale_le : scale ≤ 2045
  normal : scale = 0 ∨ Nat.pow 2 52 ≤ significand
deriving DecidableEq

namespace Binary64

def unitsPerOne : Nat := Nat.pow 2 1074

def magnitude (x : Binary64) : Nat := x.significand * Nat.pow 2 x.scale

def units (x : Binary64) : Int := if x.negative then -(x.magnitude : Int) else x.magnitude

def sameValue (x y : Binary64) : Bool := x.units == y.units

def zero (negative : Bool) : Binary64 where
  negative
  significand := 0
  scale := 0
  significand_lt := by decide
  scale_le := by decide
  normal := .inl rfl

def negate (x : Binary64) : Binary64 := { x with negative := !x.negative }

def ofParts? (negative : Bool) (significand scale : Nat) : Option Binary64 :=
  if h : significand < Nat.pow 2 53 ∧ scale ≤ 2045 ∧ (scale = 0 ∨ Nat.pow 2 52 ≤ significand) then
    some ⟨negative, significand, scale, h.1, h.2.1, h.2.2⟩
  else none

def divideToEven (num den : Nat) : Nat :=
  let q := num / den
  let r := num % den
  if 2 * r < den then q
  else if den < 2 * r then q + 1
  else if q % 2 = 0 then q else q + 1

/-- The number of the format nearest to `± num / den`, a tie going to the even significand; `none`
when the magnitude rounds past the largest number. -/
def ofRatio? (negative : Bool) (num den : Nat) : Option Binary64 :=
  let total := num * unitsPerOne
  let scale := Nat.log2 (total / den) + 1 - 53
  let significand := divideToEven total (den * Nat.pow 2 scale)
  if significand = Nat.pow 2 53 then ofParts? negative (Nat.pow 2 52) (scale + 1)
  else ofParts? negative significand scale

/-- The number nearest to `± coefficient · 10 ^ exponent`, or `none` when that is too large. Far
outside the range of the format the answer is known without the power. -/
def ofDecimal? (negative : Bool) (coefficient : Nat) (exponent : Int) : Option Binary64 :=
  let digits : Int := (toString coefficient).length
  if coefficient = 0 || digits + exponent < -400 then some (zero negative)
  else if 400 < digits + exponent then none
  else if 0 ≤ exponent then ofRatio? negative (coefficient * Nat.pow 10 exponent.toNat) 1
  else ofRatio? negative coefficient (Nat.pow 10 (-exponent).toNat)

def mul? (x y : Binary64) : Option Binary64 :=
  ofRatio? (x.negative != y.negative) (x.magnitude * y.magnitude) (unitsPerOne * unitsPerOne)

def div? (x y : Binary64) : Option Binary64 :=
  ofRatio? (x.negative != y.negative) x.magnitude y.magnitude

def ofInt? (i : Int) : Option Binary64 := ofRatio? (i < 0) i.natAbs 1

def truncate (x : Binary64) : Int := x.units.tdiv unitsPerOne

/-- What a truncation cuts off, with the sign of the number, counted as the value is. -/
def fraction (x : Binary64) : Int := x.units.tmod unitsPerOne

end Binary64
end LayeredConfig
