import LayeredConfig.Value.Canonical
import Mathlib.Algebra.Order.Field.Rat
import Mathlib.Data.Rat.Cast.Defs
import Mathlib.Tactic.NormNum
import Mathlib.Tactic.Ring

/-! # Numbers in canonical form

Every number denotes a rational, a float the dyadic one of its parts. Its canonical form denotes the same: a float
is cast to a word only if it has no fraction and is admitted, and there the cast changes nothing. The greatest
integer of a word is no float. It counts as the next integer, so that the comparison with it is exact.
-/
namespace LayeredConfig

namespace Binary64
variable {x y : Binary64} {k : ℤ}

theorem two_pow_pos (n : Nat) : 0 < Nat.pow 2 n := Nat.pow_pos (by omega)

/-- The greater scale has the lesser significand, which leaves no room for a greater scale. -/
theorem scale_le_of_magnitude_eq (h : x.magnitude = y.magnitude) : y.scale ≤ x.scale := by
  refine Nat.le_of_not_lt ?_
  intro hlt
  have hscale : y.scale = x.scale + 1 + (y.scale - x.scale - 1) := by omega
  have hpow : Nat.pow 2 y.scale = Nat.pow 2 x.scale * 2 * Nat.pow 2 (y.scale - x.scale - 1) := by
    calc Nat.pow 2 y.scale = 2 ^ (x.scale + 1 + (y.scale - x.scale - 1)) := congrArg (2 ^ ·) hscale
      _ = 2 ^ x.scale * 2 * 2 ^ (y.scale - x.scale - 1) := by rw [Nat.pow_add, Nat.pow_succ]
  have hx : x.significand = y.significand * (2 * Nat.pow 2 (y.scale - x.scale - 1)) := by
    refine Nat.eq_of_mul_eq_mul_right (two_pow_pos x.scale) ?_
    rw [magnitude, magnitude, hpow] at h
    rw [h]
    ac_rfl
  have hnormal : Nat.pow 2 52 ≤ y.significand := y.normal.resolve_left (by omega)
  have hone := two_pow_pos (y.scale - x.scale - 1)
  have hlarge : y.significand * 2 ≤ x.significand := by
    rw [hx]
    exact Nat.mul_le_mul_left _ (by omega)
  have hsmall := x.significand_lt
  simp only [Nat.pow_eq, Nat.reducePow] at hnormal hsmall
  omega

theorem eq_of_sameValue (hx : x.magnitude ≠ 0) (h : x.sameValue y = true) : x = y := by
  have hunits : x.units = y.units := by simpa [sameValue] using h
  have hparts : x.negative = y.negative ∧ x.magnitude = y.magnitude := by
    have hpos : 0 < x.magnitude := Nat.pos_of_ne_zero hx
    simp only [units] at hunits
    cases hxn : x.negative <;> cases hyn : y.negative <;> rw [hxn, hyn] at hunits
    · exact ⟨rfl, Int.ofNat.inj hunits⟩
    · simp only [Bool.false_eq_true, if_false, if_true] at hunits
      omega
    · simp only [Bool.false_eq_true, if_false, if_true] at hunits
      omega
    · exact ⟨rfl, Int.ofNat.inj (Int.neg_inj.mp hunits)⟩
  obtain ⟨hnegative,hmagnitude⟩ := hparts
  have hscale : x.scale = y.scale :=
    Nat.le_antisymm (scale_le_of_magnitude_eq hmagnitude.symm) (scale_le_of_magnitude_eq hmagnitude)
  have hsignificand : x.significand = y.significand := by
    refine Nat.eq_of_mul_eq_mul_right (two_pow_pos x.scale) ?_
    rw [magnitude, magnitude, ← hscale] at hmagnitude
    exact hmagnitude
  cases x
  cases y
  simp_all

theorem units_of_magnitude_eq_zero (h : x.magnitude = 0) : x.units = 0 := by
  rw [units, h]
  split <;> rfl

theorem unitsPerOne_pos : 0 < (unitsPerOne : ℤ) := by decide +kernel

theorem units_eq_of_fraction (h : x.fraction = 0) : x.units = x.truncate * unitsPerOne := by
  have hparts := Int.tdiv_mul_add_tmod x.units unitsPerOne
  rw [← fraction, h, add_zero] at hparts
  exact hparts.symm

theorem fraction_of_units_eq (h : x.units = k * unitsPerOne) : x.fraction = 0 := by
  rw [fraction, h, Int.mul_tmod_left]

def toRat (x : Binary64) : ℚ := (if x.negative then -1 else 1) * x.significand * 2 ^ ((x.scale : ℤ) - 1074)

theorem natCast_two_pow (n : ℕ) : ((Nat.pow 2 n : ℕ) : ℚ) = 2 ^ (n : ℤ) := by
  rw [Nat.pow_eq, Nat.cast_pow, zpow_natCast, Nat.cast_ofNat]

theorem natCast_unitsPerOne : (unitsPerOne : ℚ) = 2 ^ (1074 : ℤ) := by
  -- The exponent stays a variable, so that no step computes the power.
  have hunits : ∃ n, n = 1074 ∧ unitsPerOne = Nat.pow 2 n := ⟨1074, rfl, by decide +kernel⟩
  obtain ⟨n,hn,hunits⟩ := hunits
  rw [hunits, natCast_two_pow, hn, Nat.cast_ofNat]

theorem natCast_unitsPerOne_ne_zero : (unitsPerOne : ℚ) ≠ 0 :=
  Nat.cast_ne_zero.mpr (Int.natCast_pos.mp unitsPerOne_pos).ne'

theorem toRat_eq_div : x.toRat = x.units / unitsPerOne := by
  have hmagnitude : (x.magnitude : ℚ) = x.significand * 2 ^ (x.scale : ℤ) := by
    rw [magnitude, Nat.cast_mul, natCast_two_pow]
  rw [toRat, units, zpow_sub₀ (by norm_num), ← natCast_unitsPerOne, mul_div_assoc']
  refine congrArg (· / (unitsPerOne : ℚ)) ?_
  cases x.negative with
  | true =>
    rw [if_pos rfl, if_pos rfl, Int.cast_neg, Int.cast_natCast, hmagnitude]
    ring
  | false =>
    rw [if_neg Bool.false_ne_true, if_neg Bool.false_ne_true, Int.cast_natCast, hmagnitude, one_mul]

theorem toRat_eq_intCast_iff : x.toRat = k ↔ x.units = k * unitsPerOne := by
  rw [toRat_eq_div, div_eq_iff natCast_unitsPerOne_ne_zero, ← Int.cast_natCast, ← Int.cast_mul, Int.cast_inj]

theorem toRat_eq_iff : x.toRat = y.toRat ↔ x.units = y.units := by
  rw [toRat_eq_div, toRat_eq_div, div_left_inj' natCast_unitsPerOne_ne_zero, Int.cast_inj]

end Binary64

namespace Word
variable {w : Word} {x : Binary64}

theorem units_least : (Binary64.ofInt? w.least).map Binary64.units = some (w.least * Binary64.unitsPerOne) := by
  cases w <;> decide +kernel

/-- The greatest integer of a word rounds to the integer after it. -/
theorem units_greatest :
    (Binary64.ofInt? w.greatest).map Binary64.units = some ((w.greatest + 1) * Binary64.unitsPerOne) := by
  cases w <;> decide +kernel

theorem admits_iff : w.admits x = true ↔
    w.least * Binary64.unitsPerOne ≤ x.units ∧ x.units < (w.greatest + 1) * Binary64.unitsPerOne := by
  obtain ⟨low,hlow,hl⟩ := Option.map_eq_some_iff.mp (units_least (w := w))
  obtain ⟨high,hhigh,hh⟩ := Option.map_eq_some_iff.mp (units_greatest (w := w))
  simp only [admits, hlow, hhigh, hl, hh, Option.any_some, Bool.and_eq_true, decide_eq_true_eq]

theorem admits_iff_of_fraction (h : x.fraction = 0) :
    w.admits x = true ↔ w.least ≤ x.truncate ∧ x.truncate ≤ w.greatest := by
  rw [admits_iff, Binary64.units_eq_of_fraction h, Int.mul_le_mul_right Binary64.unitsPerOne_pos,
    Int.mul_lt_mul_right Binary64.unitsPerOne_pos, Int.lt_add_one_iff]

/-- What is admitted is not changed by a cast. -/
theorem val_cast (h : x.fraction = 0) (hw : w.admits x = true) : (w.cast x).val = x.truncate := by
  obtain ⟨hlow,hhigh⟩ := (admits_iff_of_fraction h).mp hw
  simp only [cast, min_eq_left hhigh, max_eq_right hlow]

/-- Each integer of a number is of one of the words. -/
theorem admits_of_units_eq {n : Integer} (h : x.units = n.val * Binary64.unitsPerOne) :
    signed.admits x = true ∨ unsigned.admits x = true := by
  have htrunc : x.truncate = n.val := by
    rw [Binary64.truncate, h, Int.mul_tdiv_cancel _ Binary64.unitsPerOne_pos.ne']
  have hlow := n.low
  have hhigh := n.high
  rw [admits_iff_of_fraction (Binary64.fraction_of_units_eq h),
    admits_iff_of_fraction (Binary64.fraction_of_units_eq h), htrunc]
  simp only [least, greatest]
  omega

end Word

namespace Number
variable {m n : Number} {i : Integer} {x : Binary64}

/-- A float with the value of an integer of a number becomes that integer, and any other float stays. -/
theorem canonical_float :
    (∃ i : Integer, (float x).canonical = integer i ∧ x.units = i.val * Binary64.unitsPerOne) ∨
      ((float x).canonical = float x ∧ ∀ i : Integer, x.units ≠ i.val * Binary64.unitsPerOne) := by
  by_cases hf : x.fraction = 0
  · have hcast {w : Word} (hw : w.admits x = true) :
        x.units = (w.cast x).val * Binary64.unitsPerOne := by
      rw [Word.val_cast hf hw, Binary64.units_eq_of_fraction hf]
    cases hs : Word.signed.admits x with
    | true => exact Or.inl ⟨_, by simp [canonical, hf, hs], hcast hs⟩
    | false =>
      cases hu : Word.unsigned.admits x with
      | true => exact Or.inl ⟨_, by simp [canonical, hf, hs, hu], hcast hu⟩
      | false =>
        refine Or.inr ⟨by simp [canonical, hf, hs, hu], ?_⟩
        intro i hi
        simpa [hs, hu] using Word.admits_of_units_eq hi
  · exact Or.inr ⟨by simp [canonical, hf], fun i hi => hf (Binary64.fraction_of_units_eq hi)⟩

theorem canonical_canonical (n : Number) : n.canonical.canonical = n.canonical := by
  cases n with
  | integer i => rfl
  | float x =>
    rcases @canonical_float x with ⟨i,hi,_⟩ | ⟨hx,_⟩
    · rw [hi, canonical]
    · rw [hx, hx]

theorem same_congr (h : m.same n = true) (k : Number) : m.same k = n.same k := by
  cases m <;> cases n <;> cases k <;> simp_all [same, Binary64.sameValue]

theorem same_self (n : Number) : n.same n = true := by
  cases n <;> simp [same, Binary64.sameValue]

theorem eq_of_same (hm : m.canonical = m) (h : m.same n = true) : m = n := by
  cases m with
  | integer i => cases n <;> simp_all [same]
  | float x =>
    cases n with
    | integer i => cases h
    | float y =>
      have hx : x.magnitude ≠ 0 := by
        intro hzero
        rcases @canonical_float x with ⟨i,hi,_⟩ | ⟨_,hno⟩
        · cases hm.symm.trans hi
        · refine hno ⟨0, by decide, by decide⟩ ?_
          rw [Binary64.units_of_magnitude_eq_zero hzero, zero_mul]
      rw [Binary64.eq_of_sameValue hx h]

/-! ## Rational values -/

def toRat : Number → ℚ
  | integer i => i.val
  | float x => x.toRat

theorem integer_congr {j : Integer} (h : i.val = j.val) : integer i = integer j := by
  cases i
  cases j
  cases h
  rfl

theorem toRat_canonical (n : Number) : n.canonical.toRat = n.toRat := by
  cases n with
  | integer i => rfl
  | float x =>
    rcases @canonical_float x with ⟨i,hi,hx⟩ | ⟨hx,_⟩
    · rw [hi, toRat, toRat, Binary64.toRat_eq_intCast_iff.mpr hx]
    · rw [hx]

theorem canonical_eq_integer_iff : n.canonical = integer i ↔ n.toRat = i.val := by
  constructor
  · intro h
    rw [← toRat_canonical, h, toRat]
  · intro h
    cases n with
    | integer j => exact integer_congr (Int.cast_inj.mp h)
    | float x =>
      have hunits := Binary64.toRat_eq_intCast_iff.mp h
      rcases @canonical_float x with ⟨j,hj,hx⟩ | ⟨_,hno⟩
      · have hval : j.val = i.val :=
          Int.eq_of_mul_eq_mul_right Binary64.unitsPerOne_pos.ne' (hx.symm.trans hunits)
        rw [hj, integer_congr hval]
      · exact absurd hunits (hno i)

/-- A float that stays has the value of no integer of a number. -/
theorem canonical_eq_self_or (n : Number) : n.canonical = n ∨ ∃ i, n.canonical = integer i := by
  cases n with
  | integer i => exact Or.inl rfl
  | float x =>
    rcases @canonical_float x with ⟨i,hi,_⟩ | ⟨hx,_⟩
    · exact Or.inr ⟨i, hi⟩
    · exact Or.inl hx

theorem same_canonical_iff : m.canonical.same n.canonical = true ↔ m.canonical = n.canonical := by
  constructor
  · exact eq_of_same (canonical_canonical m)
  · intro h
    rw [h]
    exact same_self n.canonical

/-- Of the numbers that denote one rational all have the same canonical form. -/
theorem canonical_eq_iff : m.canonical = n.canonical ↔ m.toRat = n.toRat := by
  constructor
  · intro h
    rw [← toRat_canonical m, h, toRat_canonical]
  · intro h
    by_cases hi : ∃ i, n.canonical = integer i
    · obtain ⟨i,hi⟩ := hi
      rw [hi, canonical_eq_integer_iff, h, canonical_eq_integer_iff.mp hi]
    · have hm : ¬ ∃ i, m.canonical = integer i := by
        rintro ⟨i,hm⟩
        exact hi ⟨i, canonical_eq_integer_iff.mpr (h ▸ canonical_eq_integer_iff.mp hm)⟩
      have hmself := (canonical_eq_self_or m).resolve_right hm
      have hnself := (canonical_eq_self_or n).resolve_right hi
      cases m with
      | integer i => exact absurd ⟨i, rfl⟩ hm
      | float x =>
        cases n with
        | integer i => exact absurd ⟨i, rfl⟩ hi
        | float y =>
          rw [← same_canonical_iff, hmself, hnself]
          simpa [same, Binary64.sameValue] using Binary64.toRat_eq_iff.mp h

end Number

/-- The canonical form of a number is exact: it is the integer that the number denotes, if that fits a word, and
else the number as it is. So two numbers have one canonical form just if they denote the same rational. -/
theorem Value.canonical_number (m n : Number) :
    ((∃ i, (number n).canonical = number (.integer i)) ↔
      ∃ k : ℤ, n.toRat = k ∧ -2 ^ 63 ≤ k ∧ k < 2 ^ 64) ∧
    (∀ i, (number n).canonical = number (.integer i) ↔ n.toRat = i.val) ∧
    ((number n).canonical = number n ∨ ∃ i, (number n).canonical = number (.integer i)) ∧
    ((number m).canonical.same (number n).canonical = true ↔ m.toRat = n.toRat) ∧
    ((number m).canonical = (number n).canonical ↔ m.toRat = n.toRat) := by
  have hinteger (i : Integer) : (number n).canonical = number (.integer i) ↔ n.toRat = i.val := by
    rw [canonical, number.injEq, Number.canonical_eq_integer_iff]
  refine ⟨?_, hinteger, ?_, ?_, ?_⟩
  · constructor
    · rintro ⟨i,hi⟩
      exact ⟨i.val, (hinteger i).mp hi, by simpa using i.low, by simpa using i.high⟩
    · rintro ⟨k,hk,hlow,hhigh⟩
      exact ⟨⟨k, by simpa using hlow, by simpa using hhigh⟩, (hinteger _).mpr hk⟩
  · simpa only [canonical, number.injEq] using n.canonical_eq_self_or
  · rw [canonical, canonical, same, Number.same_canonical_iff, Number.canonical_eq_iff]
  · rw [canonical, canonical, number.injEq, Number.canonical_eq_iff]

/-- The last float below `2 ^ 63`, that power, the power `2 ^ 64`, and the two zeros. -/
example :
    (Number.float ⟨false, Nat.pow 2 53 - 1, 1084, by decide, by decide, by decide⟩).canonical =
        .integer ⟨9223372036854774784, by decide, by decide⟩ ∧
      (Number.float ⟨false, Nat.pow 2 52, 1085, by decide, by decide, by decide⟩).canonical =
        .integer ⟨9223372036854775808, by decide, by decide⟩ ∧
      (Number.float ⟨false, Nat.pow 2 52, 1086, by decide, by decide, by decide⟩).canonical =
        .float ⟨false, Nat.pow 2 52, 1086, by decide, by decide, by decide⟩ ∧
      (Number.float (.zero true)).canonical = (Number.float (.zero false)).canonical := by
  decide +kernel

end LayeredConfig
