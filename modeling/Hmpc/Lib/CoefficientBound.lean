/-
# Hmpc.Lib.CoefficientBound -- how large the coefficients of a polynomial are

Sums and products of polynomials modulo `X ^ n + 1` have coefficients that are not much larger than
those of the operands. In a product each coefficient is a sum of `n` products, some of them with
the other sign (`Bound.mul_modByMonic`).
-/
import Hmpc.Lib.Negacyclic
import Mathlib.Algebra.Order.BigOperators.Group.Finset
import Mathlib.Algebra.Order.Ring.Abs
import Mathlib.Algebra.Polynomial.RingDivision

namespace Hmpc.Lib.Negacyclic

open Polynomial

variable {R : Type*} [CommRing R] [LinearOrder R] [IsStrictOrderedRing R] {n : ℕ} {A B : R}
  {f g : R[X]} {x : ℕ → R}

/-- No coefficient is larger. -/
def Bound (B : R) (f : R[X]) : Prop := ∀ j, |f.coeff j| ≤ B

namespace Bound

omit [IsStrictOrderedRing R] in
theorem mono (h : Bound A f) (hle : A ≤ B) : Bound B f := fun j => (h j).trans hle

theorem add (hf : Bound A f) (hg : Bound B g) : Bound (A + B) (f + g) := by
  intro j
  rw [coeff_add]
  exact (abs_add_le _ _).trans (add_le_add (hf j) (hg j))

theorem sub (hf : Bound A f) (hg : Bound B g) : Bound (A + B) (f - g) := by
  intro j
  rw [coeff_sub]
  exact (abs_sub _ _).trans (add_le_add (hf j) (hg j))

theorem C_mul (hf : Bound B f) (a : R) : Bound (|a| * B) (C a * f) := by
  intro j
  rw [coeff_C_mul, abs_mul]
  exact mul_le_mul_of_nonneg_left (hf j) (abs_nonneg a)

end Bound

omit [LinearOrder R] [IsStrictOrderedRing R] in
theorem coeff_element {j : ℕ} : (element n x).coeff j = if j < n then x j else 0 := by
  simp [element, coeff_monomial]

theorem bound_element (hB : 0 ≤ B) (hx : ∀ j < n, |x j| ≤ B) : Bound B (element n x) := by
  intro j
  rw [coeff_element]
  split
  · exact hx j ‹_›
  · rwa [abs_zero]

omit [IsStrictOrderedRing R] in
/-- The continued coefficients have the same absolute values. -/
theorem abs_extend_le (hn : 0 < n) (hx : ∀ j < n, |x j| ≤ B) (z : ℤ) : |extend n x z| ≤ B := by
  have hlt : (z % n).toNat < n := by
    have hpos : (0 : ℤ) < n := by exact_mod_cast hn
    have := Int.emod_lt_of_pos z hpos
    have := Int.emod_nonneg z hpos.ne'
    omega
  unfold extend
  rcases Int.units_eq_one_or (z / n).negOnePow with hsign | hsign
  · rw [hsign, one_smul]
    exact hx _ hlt
  · rw [hsign, Units.neg_smul, one_smul, abs_neg]
    exact hx _ hlt

omit [LinearOrder R] [IsStrictOrderedRing R] in
theorem eq_element_of_degree_lt (hf : f.degree < (n : ℕ)) : f = element n f.coeff := by
  ext j
  simp only [element, finsetSum_coeff, coeff_monomial, Finset.sum_ite_eq', Finset.mem_range]
  split
  · rfl
  · rename_i hj
    exact (degree_lt_iff_coeff_zero f n).mp hf j (Nat.not_lt.mp hj)

/-- **The coefficients of a product modulo `X ^ n + 1`.** -/
theorem Bound.mul_modByMonic (hn : 0 < n) (hA : 0 ≤ A) (hf : Bound A f) (hg : Bound B g)
    (hfdegree : f.degree < (n : ℕ)) (hgdegree : g.degree < (n : ℕ)) :
    Bound (n * (A * B)) ((f * g) %ₘ (X ^ n + 1)) := by
  have hsum : (f * g) %ₘ (X ^ n + 1) = ∑ d ∈ Finset.range n,
      C (f.coeff d) * element n fun i => extend n g.coeff (i - d) := by
    have hproduct : f * g = ∑ d ∈ Finset.range n, f.coeff d • (X ^ d * element n g.coeff) := by
      conv_lhs => rw [eq_element_of_degree_lt hfdegree, eq_element_of_degree_lt hgdegree]
      rw [element, Finset.sum_mul]
      refine Finset.sum_congr rfl fun d _ => ?_
      rw [← C_mul_X_pow_eq_monomial, smul_eq_C_mul, mul_assoc]
    have hmap : (f * g) %ₘ (X ^ n + 1) = modByMonicHom (X ^ n + 1) (f * g) := rfl
    rw [hmap, hproduct, map_sum]
    refine Finset.sum_congr rfl fun d _ => ?_
    rw [map_smul, smul_eq_C_mul]
    exact congrArg _ (X_pow_mul_element_modByMonic hn g.coeff d)
  intro j
  rw [hsum, finsetSum_coeff]
  calc |∑ d ∈ Finset.range n, (C (f.coeff d) *
          element n fun i => extend n g.coeff (i - d)).coeff j|
      ≤ ∑ d ∈ Finset.range n, |(C (f.coeff d) *
          element n fun i => extend n g.coeff (i - d)).coeff j| := Finset.abs_sum_le_sum_abs _ _
    _ ≤ ∑ _d ∈ Finset.range n, A * B := by
        refine Finset.sum_le_sum fun d _ => ?_
        have hB : 0 ≤ B := (abs_nonneg _).trans (hg 0)
        have hextend (i : ℕ) : |extend n g.coeff (i - d)| ≤ B :=
          abs_extend_le hn (fun i _ => hg i) _
        have helement := bound_element hB (fun i (_ : i < n) => hextend i) j
        rw [coeff_C_mul, abs_mul]
        exact mul_le_mul (hf d) helement (abs_nonneg _) hA
    _ = n * (A * B) := by rw [Finset.sum_const, Finset.card_range, nsmul_eq_mul]

end Hmpc.Lib.Negacyclic
