/-
# Hmpc.Lib.BitScan -- the lowest and the highest bit of a number

A number that is given in parts has its lowest bit in the lowest part that is not zero, and its
highest bit in the highest one. A number is a power of two when both are the same bit.
-/
import Mathlib.Data.Nat.Size
import Mathlib.Data.Nat.ModEq
import Mathlib.Tactic.Ring

namespace Hmpc.Lib.BitScan

variable {bits v k e low high : ℕ}

/-! ## The highest bit -/

/-- The width of a number whose highest part is not zero. -/
theorem size_add_mul (hlow : low < 2 ^ k) (hhigh : 0 < high) :
    (low + 2 ^ k * high).size = high.size + k := by
  have hlt := Nat.lt_size_self high
  have hsize := Nat.size_pos.mpr hhigh
  have hge : 2 ^ (high.size - 1) ≤ high := Nat.lt_size.mp (by omega)
  apply Nat.le_antisymm
  · rw [Nat.size_le, pow_add, Nat.mul_comm (2 ^ high.size)]
    calc low + 2 ^ k * high < 2 ^ k * (high + 1) := by rw [Nat.mul_add, Nat.mul_one]; omega
      _ ≤ 2 ^ k * 2 ^ high.size := Nat.mul_le_mul_left _ hlt
  · have hlt' : high.size - 1 + k < (low + 2 ^ k * high).size := by
      rw [Nat.lt_size, pow_add, Nat.mul_comm]
      exact (Nat.mul_le_mul_left _ hge).trans (Nat.le_add_left _ _)
    omega

/-! ## The lowest bit -/

/-- `k` is the largest exponent, up to `bits`, of a power of two that divides `v`. -/
structure LargestPower (bits v k : ℕ) : Prop where
  le : k ≤ bits
  dvd : 2 ^ k ∣ v
  largest : ∀ j ≤ bits, 2 ^ j ∣ v → j ≤ k

theorem LargestPower.zero (bits : ℕ) : LargestPower bits 0 bits where
  le := le_rfl
  dvd := dvd_zero _
  largest _ hj _ := hj

/-- An exponent that cannot be increased. -/
theorem LargestPower.of_not_dvd (h : 2 ^ e ∣ v) (h' : ¬ 2 ^ (e + 1) ∣ v) :
    LargestPower bits v (min e bits) where
  le := min_le_right _ _
  dvd := (pow_dvd_pow 2 (min_le_left _ _)).trans h
  largest j hj hdvd := by
    have hle : j ≤ e := by
      by_contra hlt
      exact h' ((pow_dvd_pow 2 (by omega)).trans hdvd)
    exact le_min hle hj

/-- What is left of a number of the bits after the shift is odd. -/
theorem LargestPower.odd (h : LargestPower bits v k) (hpos : 0 < v) (hlt : v < 2 ^ bits) :
    v / 2 ^ k % 2 = 1 := by
  obtain ⟨m, rfl⟩ := h.dvd
  have hbits : k < bits := by
    rcases Nat.lt_or_eq_of_le h.le with hk | rfl
    · exact hk
    · exact absurd (Nat.le_of_dvd hpos h.dvd) (by omega)
  rw [Nat.mul_div_cancel_left m (Nat.two_pow_pos k)]
  by_contra heven
  obtain ⟨n, rfl⟩ : 2 ∣ m := Nat.dvd_of_mod_eq_zero (by omega)
  have hmore := h.largest (k + 1) hbits ⟨n, by ring⟩
  omega

/-- A higher part behind zeros. -/
theorem dvd_part (h : 2 ^ e ∣ high) : 2 ^ (k + e) ∣ 2 ^ k * high := by
  rw [pow_add]
  exact Nat.mul_dvd_mul_left _ h

theorem not_dvd_part (h : ¬ 2 ^ e ∣ high) : ¬ 2 ^ (k + e) ∣ 2 ^ k * high := by
  rw [pow_add, Nat.mul_dvd_mul_iff_left (Nat.two_pow_pos k)]
  exact h

end Hmpc.Lib.BitScan
