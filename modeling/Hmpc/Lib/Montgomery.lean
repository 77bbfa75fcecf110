/-
# Hmpc.Lib.Montgomery -- division by a power of the base, modulo another number

Multiples of the modulus are added to a number until its lowest digits are zero. What is above them
is then, up to one subtraction of the modulus, the quotient modulo the modulus.
-/
import Mathlib.Data.Int.ModEq
import Mathlib.Tactic.Linarith
import Mathlib.Tactic.LinearCombination
import Mathlib.Tactic.Ring

namespace Hmpc.Lib.Montgomery

variable {B N N' T z m : ℤ} {i r : ℕ}

/-- After `i` steps, multiples of the modulus have cleared `i` digits. -/
structure Reducing (B N T : ℤ) (i : ℕ) (z : ℤ) : Prop where
  multiple : ∃ M, 0 ≤ M ∧ M < B ^ i ∧ z = T + M * N
  dvd : B ^ i ∣ z

theorem Reducing.start (B N T : ℤ) : Reducing B N T 0 T where
  multiple := ⟨0, le_rfl, by simp, by simp⟩
  dvd := by simp

/-- The next multiple clears the next digit. -/
theorem Reducing.step (hB : 0 < B) (hN' : B ∣ N * N' + 1) (h : Reducing B N T i z) (hm₀ : 0 ≤ m)
    (hm : m < B) (hdigit : B ∣ z / B ^ i * N' - m) :
    Reducing B N T (i + 1) (z + m * N * B ^ i) := by
  have hpow : 0 < B ^ i := pow_pos hB i
  obtain ⟨M, hM₀, hM, rfl⟩ := h.multiple
  obtain ⟨q, hq⟩ := h.dvd
  refine ⟨⟨M + m * B ^ i, by positivity, ?_, by ring⟩, ?_⟩
  · calc M + m * B ^ i < B ^ i + m * B ^ i := by linarith
      _ = (m + 1) * B ^ i := by ring
      _ ≤ B * B ^ i := mul_le_mul_of_nonneg_right hm hpow.le
      _ = B ^ (i + 1) := by ring
  · rw [hq, Int.mul_ediv_cancel_left _ hpow.ne'] at hdigit
    obtain ⟨a, ha⟩ := hN'
    obtain ⟨b, hb⟩ := hdigit
    refine ⟨q * a - N * b, ?_⟩
    rw [hq, pow_succ]
    linear_combination B ^ i * q * ha - B ^ i * N * hb

/-- What is left above the cleared digits. -/
theorem Reducing.quotient (hB : 0 < B) (hT₀ : 0 ≤ T) (hT : T < B ^ r * N)
    (h : Reducing B N T r z) :
    0 ≤ z / B ^ r ∧ z / B ^ r < 2 * N ∧ z / B ^ r * B ^ r ≡ T [ZMOD N] := by
  have hpow : 0 < B ^ r := pow_pos hB r
  have hN : 0 < N := pos_of_mul_pos_right (lt_of_le_of_lt hT₀ hT) hpow.le
  obtain ⟨M, hM₀, hM, hz⟩ := h.multiple
  have hcancel : z / B ^ r * B ^ r = z := Int.ediv_mul_cancel h.dvd
  have hz₀ : 0 ≤ z := by
    rw [hz]
    positivity
  refine ⟨Int.ediv_nonneg hz₀ hpow.le, ?_, ?_⟩
  · apply Int.ediv_lt_of_lt_mul hpow
    have hmultiple : M * N < B ^ r * N := mul_lt_mul_of_pos_right hM hN
    linarith
  · rw [hcancel, hz]
    exact (Int.modEq_iff_dvd.mpr ⟨-M, by ring⟩)

/-- One subtraction of the modulus is enough. -/
theorem subtract_once {S : ℤ} (hS₀ : 0 ≤ S) (hS : S < 2 * N) {x : ℤ}
    (hcongr : S * x ≡ T [ZMOD N]) :
    0 ≤ S - (if N ≤ S then N else 0) ∧ S - (if N ≤ S then N else 0) < N ∧
      (S - (if N ≤ S then N else 0)) * x ≡ T [ZMOD N] := by
  split_ifs with hle
  · refine ⟨by omega, by omega, ?_⟩
    refine Int.ModEq.trans ?_ hcongr
    exact Int.modEq_iff_dvd.mpr ⟨x, by ring⟩
  · rw [sub_zero]
    exact ⟨hS₀, by omega, hcongr⟩

end Hmpc.Lib.Montgomery
