/-
# Hmpc.Lib.BinaryGcd -- greatest common divisors without division

Of two odd numbers the larger one can be replaced by their difference, and the difference by what is
left of it when its power of two is taken out: it becomes smaller, it is odd again, and the greatest
common divisor, which is odd, stays.
-/
import Mathlib.Data.Nat.Prime.Basic
import Hmpc.Lib.BitScan

namespace Hmpc.Lib.BinaryGcd

open Hmpc.Lib.BitScan

/-- Two odd numbers with a greatest common divisor. -/
structure Invariant (g u v : ℕ) : Prop where
  left_odd : u % 2 = 1
  right_odd : v % 2 = 1
  gcd_eq : Nat.gcd u v = g

variable {bits g i j k u v x y : ℕ}

/-- A power of two divides no divisor of an odd number. -/
theorem gcd_two_pow_mul (hy : y % 2 = 1) : Nat.gcd (2 ^ k * x) y = Nat.gcd x y := by
  have hcoprime : Nat.Coprime (2 ^ k) y :=
    (Nat.coprime_two_left.mpr (Nat.odd_iff.mpr hy)).pow_left k
  exact hcoprime.gcd_mul_left_cancel x

namespace Invariant

theorem symm (h : Invariant g u v) : Invariant g v u where
  left_odd := h.right_odd
  right_odd := h.left_odd
  gcd_eq := (Nat.gcd_comm v u).trans h.gcd_eq

/-- A step. -/
theorem next (h : Invariant g u v) (hlt : v < u) (hbits : u < 2 ^ bits)
    (hk : LargestPower bits (u - v) k) : Invariant g ((u - v) / 2 ^ k) v where
  left_odd := hk.odd (by omega) (by omega)
  right_odd := h.right_odd
  gcd_eq := by
    rw [← gcd_two_pow_mul (k := k) h.right_odd, Nat.mul_div_cancel' hk.dvd,
      Nat.gcd_sub_self_left hlt.le, h.gcd_eq]

/-- It makes the larger number smaller. -/
theorem next_lt (h : Invariant g u v) (hlt : v < u) : (u - v) / 2 ^ k < u := by
  have hle := Nat.div_le_self (u - v) (2 ^ k)
  have hodd := h.right_odd
  omega

/-- At the end both numbers are the divisor. -/
theorem eq_gcd (h : Invariant g u u) : u = g := by
  rw [← h.gcd_eq, Nat.gcd_self]

end Invariant

/-- What is left of two numbers when their powers of two are taken out. -/
theorem invariant_start {bits' : ℕ} (hx : 0 < x) (hxbits : x < 2 ^ bits) (hy : 0 < y)
    (hybits : y < 2 ^ bits') (hi : LargestPower bits x i) (hj : LargestPower bits' y j) :
    Invariant (Nat.gcd (x / 2 ^ i) (y / 2 ^ j)) (x / 2 ^ i) (y / 2 ^ j) :=
  ⟨hi.odd hx hxbits, hj.odd hy hybits, rfl⟩

/-- The powers that were taken out have the smaller one in common. -/
theorem gcd_eq_mul_two_pow (hx : 2 ^ i ∣ x) (hy : 2 ^ j ∣ y) (hxodd : x / 2 ^ i % 2 = 1)
    (hyodd : y / 2 ^ j % 2 = 1) :
    Nat.gcd x y = Nat.gcd (x / 2 ^ i) (y / 2 ^ j) * 2 ^ min i j := by
  obtain ⟨u, rfl⟩ := hx
  obtain ⟨v, rfl⟩ := hy
  rw [Nat.mul_div_cancel_left u (Nat.two_pow_pos i)] at hxodd ⊢
  rw [Nat.mul_div_cancel_left v (Nat.two_pow_pos j)] at hyodd ⊢
  rcases Nat.le_total i j with hle | hle
  · obtain ⟨k, rfl⟩ := Nat.exists_eq_add_of_le hle
    rw [min_eq_left hle, pow_add, Nat.mul_assoc, Nat.gcd_mul_left, Nat.gcd_comm,
      gcd_two_pow_mul hxodd, Nat.gcd_comm, Nat.mul_comm]
  · obtain ⟨k, rfl⟩ := Nat.exists_eq_add_of_le hle
    rw [min_eq_right hle, pow_add, Nat.mul_assoc, Nat.gcd_mul_left, gcd_two_pow_mul hyodd,
      Nat.mul_comm]

end Hmpc.Lib.BinaryGcd
