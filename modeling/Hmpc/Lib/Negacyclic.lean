/-
# Hmpc.Lib.Negacyclic -- products with powers of `X` modulo `X ^ n + 1`

A polynomial of `n` coefficients is continued to all integers with a change of sign at every
multiple of `n`. Modulo `X ^ n + 1` a factor `X ^ d` moves the continued coefficients by `d`, for
every `d`.
-/
import Mathlib.Algebra.Polynomial.Div
import Mathlib.Algebra.Polynomial.Monic
import Mathlib.Algebra.Ring.Periodic
import Mathlib.Tactic.Ring

namespace Hmpc.Lib.Negacyclic

open Polynomial Function

variable {R : Type*} [CommRing R] {n : ℕ} {x y : ℕ → R} {F : ℤ → R}

/-- The polynomial with the coefficients `x 0`, …, `x (n - 1)`. -/
noncomputable def element (n : ℕ) (x : ℕ → R) : R[X] := ∑ i ∈ Finset.range n, monomial i (x i)

/-- The coefficients continued to all integers. -/
def extend (n : ℕ) (x : ℕ → R) (z : ℤ) : R := (z / n).negOnePow • x (z % n).toNat

theorem element_congr (h : ∀ i < n, x i = y i) : element n x = element n y :=
  Finset.sum_congr rfl fun i hi => by rw [h i (Finset.mem_range.mp hi)]

theorem monic_modulus (hn : 0 < n) : (X ^ n + 1 : R[X]).Monic := monic_X_pow_add_C 1 hn.ne'

theorem degree_element_lt (x : ℕ → R) : (element n x).degree < (n : ℕ) := by
  rw [degree_lt_iff_coeff_zero]
  intro j hj
  simp [element, coeff_monomial, Nat.not_lt.mpr hj]

/-- Nothing is left to reduce. -/
theorem element_modByMonic (hn : 0 < n) (x : ℕ → R) :
    element n x %ₘ (X ^ n + 1) = element n x := by
  nontriviality R
  rw [modByMonic_eq_self_iff (monic_modulus hn)]
  have hdegree : (X ^ n + 1 : R[X]).degree = (n : ℕ) := degree_X_pow_add_C hn 1
  rw [hdegree]
  exact degree_element_lt x

theorem antiperiodic_extend (hn : 0 < n) (x : ℕ → R) : Antiperiodic (extend n x) (n : ℤ) := by
  intro z
  have hn₀ : (n : ℤ) ≠ 0 := by exact_mod_cast hn.ne'
  unfold extend
  rw [Int.add_emod_right, Int.add_ediv_of_dvd_right dvd_rfl, Int.ediv_self hn₀,
    Int.negOnePow_succ, Units.neg_smul]

theorem extend_of_lt {i : ℕ} (hi : i < n) : extend n x i = x i := by
  unfold extend
  rw [Int.ediv_eq_zero_of_lt (by omega) (by exact_mod_cast hi),
    Int.emod_eq_of_lt (by omega) (by exact_mod_cast hi), Int.negOnePow_zero, one_smul,
    Int.toNat_natCast]

/-- A factor `X` moves the coefficients by one; the last one returns with the other sign. -/
theorem dvd_X_mul_sub (hn : 0 < n) (hF : Antiperiodic F (n : ℤ)) :
    (X ^ n + 1 : R[X]) ∣ X * element n (fun i => F i) - element n (fun i => F (i - 1)) := by
  obtain ⟨m, rfl⟩ := Nat.exists_eq_add_of_lt hn
  rw [Nat.zero_add] at hF ⊢
  have hlast : F (((0 : ℕ) : ℤ) - 1) = -F m := by
    have h := hF (((0 : ℕ) : ℤ) - 1)
    rw [show (((0 : ℕ) : ℤ) - 1 + ((m + 1 : ℕ) : ℤ)) = m by push_cast; ring] at h
    rw [h, neg_neg]
  have hmove : X * element (m + 1) (fun i => F i) =
      (∑ i ∈ Finset.range m, monomial (i + 1) (F i)) + monomial (m + 1) (F m) := by
    rw [element, Finset.mul_sum, Finset.sum_range_succ]
    simp only [X_mul_monomial]
  have hshift : element (m + 1) (fun i => F (i - 1)) =
      (∑ i ∈ Finset.range m, monomial (i + 1) (F i)) - C (F m) := by
    rw [element, Finset.sum_range_succ', hlast, monomial_neg, monomial_zero_left, ← sub_eq_add_neg]
    congr 1
    refine Finset.sum_congr rfl fun i _ => ?_
    rw [show (((i + 1 : ℕ) : ℤ) - 1) = i by push_cast; ring]
  refine ⟨C (F m), ?_⟩
  rw [hmove, hshift, ← C_mul_X_pow_eq_monomial]
  ring

/-- A factor `X ^ d` moves them by `d`. -/
theorem dvd_X_pow_mul_sub (hn : 0 < n) (hF : Antiperiodic F (n : ℤ)) (d : ℕ) :
    (X ^ n + 1 : R[X]) ∣ X ^ d * element n (fun i => F i) - element n (fun i => F (i - d)) := by
  induction d with
  | zero => simp
  | succ d ih =>
      have hstep := dvd_X_mul_sub hn (hF.sub_const (d : ℤ))
      have hcast : element n (fun i => F ((i : ℤ) - 1 - d)) =
          element n (fun i => F ((i : ℤ) - ((d + 1 : ℕ) : ℤ))) :=
        element_congr fun i _ => by rw [show (i : ℤ) - 1 - d = i - ((d + 1 : ℕ) : ℤ) by
          push_cast; ring]
      rw [hcast] at hstep
      have hsum := dvd_add (Dvd.dvd.mul_left ih X) hstep
      rwa [show X * (X ^ d * element n (fun i => F i) - element n (fun i => F (i - d))) +
          (X * element n (fun i => F (i - d)) -
            element n (fun i => F ((i : ℤ) - ((d + 1 : ℕ) : ℤ)))) =
          X ^ (d + 1) * element n (fun i => F i) -
            element n (fun i => F ((i : ℤ) - ((d + 1 : ℕ) : ℤ))) by ring] at hsum

/-- **The product with a power of `X`.** Its coefficients are the continued ones, moved. -/
theorem X_pow_mul_element_modByMonic (hn : 0 < n) (x : ℕ → R) (d : ℕ) :
    (X ^ d * element n x) %ₘ (X ^ n + 1) = element n (fun i => extend n x (i - d)) := by
  have hx : element n x = element n (fun i => extend n x i) :=
    element_congr fun i hi => (extend_of_lt hi).symm
  rw [modByMonic_eq_of_dvd_sub (monic_modulus hn)
    (hx ▸ dvd_X_pow_mul_sub hn (antiperiodic_extend hn x) d), element_modByMonic hn]

end Hmpc.Lib.Negacyclic
