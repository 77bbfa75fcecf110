/-
# Hmpc.Rational -- rational template arguments

A `rational_size` is a reduced fraction of two sizes. Products are computed with sizes, which wrap,
and reduced again; so they are exact as long as the numerator stays below the bound of the sizes.
-/
import Mathlib.Data.Nat.Cast.Field
import Mathlib.Data.Rat.Cast.CharZero

namespace Hmpc

/-- How many sizes there are. -/
abbrev sizeCount : ℕ := 2 ^ 64

/-- `rational_size` -/
@[ext] structure RationalSize where
  num : ℕ
  den : ℕ
  num_lt : num < sizeCount
  den_lt : den < sizeCount
  den_pos : 0 < den
  coprime : num.Coprime den

namespace RationalSize

/-- `rational(num, den)` -/
def ofFraction (num den : ℕ) (hnum : num < sizeCount) (hden : den < sizeCount)
    (hpos : 0 < den) : RationalSize where
  num := num / num.gcd den
  den := den / num.gcd den
  num_lt := (Nat.div_le_self _ _).trans_lt hnum
  den_lt := (Nat.div_le_self _ _).trans_lt hden
  den_pos := Nat.div_pos (Nat.gcd_le_right num hpos) (Nat.gcd_pos_of_pos_right num hpos)
  coprime := Nat.coprime_div_gcd_div_gcd (Nat.gcd_pos_of_pos_right num hpos)

/-- `rational(n) * v`; the denominator of a size is one. -/
def scale (n : ℕ) (v : RationalSize) : RationalSize :=
  ofFraction (n * v.num % sizeCount) v.den (Nat.mod_lt _ (Nat.two_pow_pos 64)) v.den_lt v.den_pos

/-- `static_cast<hmpc::size>(v)` -/
def toSize (v : RationalSize) : ℕ := v.num / v.den

def toRat (v : RationalSize) : ℚ := v.num / v.den

theorem toSize_lt (v : RationalSize) : v.toSize < sizeCount :=
  (Nat.div_le_self _ _).trans_lt v.num_lt

/-- The quotient does not see the reduction. -/
theorem toSize_scale (n : ℕ) (v : RationalSize) :
    (scale n v).toSize = n * v.num % sizeCount / v.den := by
  unfold toSize scale ofFraction
  rw [Nat.div_div_eq_div_mul, Nat.mul_div_cancel' (Nat.gcd_dvd_right _ _)]

/-- An integral product is exactly its size. -/
theorem mul_toSize_of_den_eq_one {n : ℕ} {v : RationalSize} (h : (scale n v).den = 1) :
    v.den * (scale n v).toSize = n * v.num % sizeCount := by
  have hgcd : Nat.gcd (n * v.num % sizeCount) v.den = v.den :=
    Nat.eq_of_dvd_of_div_eq_one (Nat.gcd_dvd_right _ _) h
  rw [toSize_scale, Nat.mul_div_cancel' (Nat.gcd_eq_right_iff_dvd.mp hgcd)]

/-- A product that does not wrap is exact. -/
theorem toRat_scale {n : ℕ} {v : RationalSize} (h : n * v.num < sizeCount) :
    (scale n v).toRat = n * v.toRat := by
  unfold toRat scale ofFraction
  dsimp only
  rw [Nat.cast_div_div_div_cancel_right (Nat.gcd_dvd_right _ _) (Nat.gcd_dvd_left _ _),
    Nat.mod_eq_of_lt h, Nat.cast_mul, mul_div_assoc]

theorem cast_toSize_of_den_eq_one {v : RationalSize} (h : v.den = 1) :
    (v.toSize : ℚ) = v.toRat := by
  rw [toSize, toRat, h, Nat.div_one, Nat.cast_one, div_one]

end RationalSize

end Hmpc
