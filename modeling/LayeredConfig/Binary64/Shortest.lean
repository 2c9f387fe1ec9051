import LayeredConfig.Binary64

/-! # The shortest decimal that reads back

A number of the format owns the interval of reals that round to it. The shortest decimal in that
interval, and of several the one nearest to the number, is what every text form of the number is made
of. A decimal grid meets the interval exactly when one of the two grid points next to the number does.
-/
namespace LayeredConfig

structure Decimal where
  coefficient : Nat
  exponent : Int
deriving DecidableEq

namespace Binary64

/-- The interval of reals that round to a number, and the number itself, on one scale: `unit` of that
scale make one. -/
structure Interval where
  low : Nat
  value : Nat
  high : Nat
  unit : Nat
  closed : Bool

/-- A number whose significand is the least of its scale has half the distance to its lower neighbour. -/
def interval (x : Binary64) : Interval where
  low := if x.significand = Nat.pow 2 52 ∧ 0 < x.scale then (4 * x.significand - 1) * Nat.pow 2 x.scale
    else (4 * x.significand - 2) * Nat.pow 2 x.scale
  value := 4 * x.significand * Nat.pow 2 x.scale
  high := (4 * x.significand + 2) * Nat.pow 2 x.scale
  unit := 4 * unitsPerOne
  closed := x.significand % 2 = 0

namespace Interval

def contains (i : Interval) (y : Nat) : Bool :=
  if i.closed then i.low ≤ y && y ≤ i.high else i.low < y && y < i.high

def magnify (i : Interval) (k : Nat) : Interval :=
  { i with low := i.low * Nat.pow 10 k, value := i.value * Nat.pow 10 k, high := i.high * Nat.pow 10 k }

/-- How many decimal places stand before the point of the value: `p` with
`10 ^ (p - 1) ≤ value < 10 ^ p`. No number of the format is below `10 ^ -400`. -/
def point (i : Interval) : Int :=
  ((toString (i.value * Nat.pow 10 400 / i.unit)).length : Int) - 400

/-- The multiple of `10 ^ exponent` in the interval that is nearest to the value, the even one on a tie. -/
def nearestOn? (i : Interval) (exponent : Int) : Option Decimal :=
  let j := if exponent < 0 then i.magnify (-exponent).toNat else i
  let step := if exponent < 0 then i.unit else i.unit * Nat.pow 10 exponent.toNat
  let below := j.value / step
  let above := below + 1
  let down := j.value - below * step
  let up := above * step - j.value
  match j.contains (below * step), j.contains (above * step) with
  | true, true =>
    if down < up || (down == up && below % 2 == 0) then some ⟨below, exponent⟩ else some ⟨above, exponent⟩
  | true, false => some ⟨below, exponent⟩
  | false, true => some ⟨above, exponent⟩
  | false, false => none

end Interval

def trimZeros : Nat → Nat → Int → Decimal
  | 0, coefficient, exponent => ⟨coefficient, exponent⟩
  | fuel + 1, coefficient, exponent =>
    if coefficient ≠ 0 ∧ coefficient % 10 = 0 then trimZeros fuel (coefficient / 10) (exponent + 1)
    else ⟨coefficient, exponent⟩

/-- The shortest decimal that rounds to the magnitude of `x`. Seventeen digits always suffice. -/
def shortest (x : Binary64) : Decimal :=
  if x.significand = 0 then ⟨0, 0⟩
  else
    let i := x.interval
    let point := i.point
    match (List.range 17).findSome? fun n => i.nearestOn? (point - (n + 1 : Nat)) with
    | some d => trimZeros 17 d.coefficient d.exponent
    | none => ⟨0, 0⟩

/-- How a decimal is laid out: where positional notation begins and ends, counted in places before
the point, and whether a positive exponent carries its sign. -/
structure Layout where
  least : Option Int
  most : Option Int
  plus : Bool

/-- Digits with the point `point` places after the first digit begins, always with a fraction. -/
def positional (digits : List Char) (point : Int) : List Char :=
  if point ≤ 0 then '0' :: '.' :: (List.replicate (-point).toNat '0' ++ digits)
  else if digits.length ≤ point.toNat then
    digits ++ List.replicate (point.toNat - digits.length) '0' ++ ['.', '0']
  else digits.take point.toNat ++ '.' :: digits.drop point.toNat

def scientific (digits : List Char) (point : Int) (plus : Bool) : List Char :=
  let mantissa := match digits with
    | [] => []
    | [d] => [d]
    | d :: rest => d :: '.' :: rest
  let exponent := point - 1
  let sign := if exponent < 0 then ['-'] else if plus then ['+'] else []
  mantissa ++ 'e' :: (sign ++ (toString exponent.natAbs).toList)

/-- The text of a number: always with a point or an exponent, so that it is not read as an integer. -/
def text (layout : Layout) (x : Binary64) : List Char :=
  let d := x.shortest
  let digits := (toString d.coefficient).toList
  let point := digits.length + d.exponent
  let inside := layout.least.all (· ≤ point) && layout.most.all (point ≤ ·)
  let body := if inside || d.coefficient = 0 then positional digits point
    else scientific digits point layout.plus
  if x.negative then '-' :: body else body

end Binary64
end LayeredConfig
