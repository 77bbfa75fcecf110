/-
# Hmpc.Expr.Slots -- what is computed on transformed polynomials

The slots of a transform are the values of a polynomial at the odd powers of the root, which are
the roots of `X ^ n + 1`. So sums and products of slots are those of the polynomials, and the
inverse transform returns the coefficients modulo `X ^ n + 1`.
-/
import Hmpc.Expr.NumberTheoreticTransform

namespace Hmpc.Expr.NumberTheoreticTransform

open Hmpc.Lib Polynomial

section

variable {R : Type*} [CommRing R] {L m : ℕ} {root : R} {x y : ℕ → R} {f g : ℕ → R[X]}

/-- A tensor holds the values of a polynomial at the odd powers of the root, for `m` of them. -/
def Slots (L m : ℕ) (root : R) (x : ℕ → R) (f : ℕ → R[X]) : Prop :=
  ∀ i < m, ∀ k < 2 ^ L, x (k + i * 2 ^ L) = (f i).eval (root ^ (2 * reverseBits L k + 1))

namespace Slots

theorem add (hx : Slots L m root x f) (hy : Slots L m root y g) :
    Slots L m root (fun k => x k + y k) (fun i => f i + g i) := by
  intro i hi k hk
  show x _ + y _ = (f i + g i).eval _
  rw [hx i hi k hk, hy i hi k hk, eval_add]

theorem sub (hx : Slots L m root x f) (hy : Slots L m root y g) :
    Slots L m root (fun k => x k - y k) (fun i => f i - g i) := by
  intro i hi k hk
  show x _ - y _ = (f i - g i).eval _
  rw [hx i hi k hk, hy i hi k hk, eval_sub]

theorem mul (hx : Slots L m root x f) (hy : Slots L m root y g) :
    Slots L m root (fun k => x k * y k) (fun i => f i * g i) := by
  intro i hi k hk
  show x _ * y _ = (f i * g i).eval _
  rw [hx i hi k hk, hy i hi k hk, eval_mul]

theorem mul_const (hx : Slots L m root x f) (p : R) :
    Slots L m root (fun k => x k * p) (fun i => f i * C p) := by
  intro i hi k hk
  show x _ * p = (f i * C p).eval _
  rw [hx i hi k hk, eval_mul, eval_C]

/-- One polynomial for all. -/
theorem broadcast (hx : Slots L 1 root x f) :
    Slots L m root (fun k => x (k % 2 ^ L)) (fun _ => f 0) := by
  intro i _ k hk
  have hvector := hx 0 one_pos k hk
  rw [Nat.zero_mul, Nat.add_zero] at hvector
  show x ((k + i * 2 ^ L) % 2 ^ L) = (f 0).eval _
  rw [Nat.add_mul_mod_self_right, Nat.mod_eq_of_lt hk, hvector]

theorem congr (hx : Slots L m root x f) (hxy : ∀ k < m * 2 ^ L, y k = x k)
    (hfg : ∀ i < m, ∀ r : ℕ, (g i).eval (root ^ (2 * r + 1)) = (f i).eval (root ^ (2 * r + 1))) :
    Slots L m root y g := by
  intro i hi k hk
  have hposition : k + i * 2 ^ L < m * 2 ^ L :=
    calc k + i * 2 ^ L < 2 ^ L + i * 2 ^ L := Nat.add_lt_add_right hk _
      _ = (i + 1) * 2 ^ L := by ring
      _ ≤ m * 2 ^ L := Nat.mul_le_mul_right _ hi
  rw [hxy _ hposition, hx i hi k hk, hfg i hi]

end Slots

theorem slots_forward (htwo : 2 ≤ L) (hL : L < 32) (hroot : root ^ 2 ^ L = -1)
    {launch : Launch R} (hruns : launch.Runs (2 ^ L) m) (x : ℕ → R) :
    Slots L m root (forward L m root launch x) (polynomial L x) :=
  fun _ hi _ hk => forward_eval htwo hL hroot hruns x hi hk

/-- The remainder has the same values at the roots of `X ^ n + 1`. -/
theorem eval_modByMonic (hroot : root ^ 2 ^ L = -1) (f : R[X]) (r : ℕ) :
    (f %ₘ (X ^ 2 ^ L + 1)).eval (root ^ (2 * r + 1)) = f.eval (root ^ (2 * r + 1)) :=
  eval₂_modByMonic_eq_self_of_root (f := RingHom.id R) (eval_root hroot r)

theorem monic_negacyclic : (X ^ 2 ^ L + 1 : R[X]).Monic :=
  monic_X_pow_add_C 1 (Nat.two_pow_pos L).ne'

theorem degree_negacyclic [Nontrivial R] : (X ^ 2 ^ L + 1 : R[X]).degree = (2 ^ L : ℕ) :=
  degree_X_pow_add_C (Nat.two_pow_pos L) 1

theorem modByMonic_of_degree_lt [Nontrivial R] {f : R[X]} (hf : f.degree < (2 ^ L : ℕ)) :
    f %ₘ (X ^ 2 ^ L + 1) = f :=
  (modByMonic_eq_self_iff monic_negacyclic).mpr (by rwa [degree_negacyclic])

theorem degree_modByMonic_negacyclic_lt [Nontrivial R] (f : R[X]) :
    (f %ₘ (X ^ 2 ^ L + 1)).degree < (2 ^ L : ℕ) := by
  rw [← degree_negacyclic (R := R)]
  exact degree_modByMonic_lt f monic_negacyclic

/-- The inverse transform of slots is the array of coefficients. -/
theorem Slots.inverse_eq [Nontrivial R] (htwo : 2 ≤ L) (hL : L < 32) (hroot : root ^ 2 ^ L = -1)
    {inverted normalization : R} (hinverted : root * inverted = 1)
    (hnormalization : normalization * 2 ^ L = 1) {launch : Launch R}
    (hruns : launch.Runs (2 ^ L) m) (hx : Slots L m root x f) {i j : ℕ} (hi : i < m)
    (hj : j < 2 ^ L) :
    inverse L m inverted normalization launch x (j + i * 2 ^ L) =
      (f i %ₘ (X ^ 2 ^ L + 1)).coeff j := by
  let coefficients : ℕ → R := fun k => (f (k / 2 ^ L) %ₘ (X ^ 2 ^ L + 1)).coeff (k % 2 ^ L)
  have hcoefficients (i j : ℕ) (hj : j < 2 ^ L) :
      coefficients (j + i * 2 ^ L) = (f i %ₘ (X ^ 2 ^ L + 1)).coeff j := by
    show (f ((j + i * 2 ^ L) / 2 ^ L) %ₘ _).coeff ((j + i * 2 ^ L) % 2 ^ L) = _
    rw [Nat.add_mul_div_right _ _ (Nat.two_pow_pos L), Nat.div_eq_of_lt hj, Nat.zero_add,
      Nat.add_mul_mod_self_right, Nat.mod_eq_of_lt hj]
  -- the transform of these coefficients has the slots
  have hslots (k : ℕ) (hk : k < 2 ^ L) :
      x (k + i * 2 ^ L) = forward L m root launch coefficients (k + i * 2 ^ L) := by
    rw [hx i hi k hk, forward_eval htwo hL hroot hruns coefficients hi hk,
      polynomial_coeff (degree_modByMonic_negacyclic_lt _) (hcoefficients i), eval_modByMonic hroot]
  rw [NumberTheoreticTransform.inverse_eq htwo hL hruns x hi hj,
    Ntt.inverseStages_congr (fun _ _ => rfl) hslots le_rfl hj,
    ← NumberTheoreticTransform.inverse_eq htwo hL hruns _ hi hj,
    inverse_forward htwo hL hinverted hnormalization hruns hruns coefficients hi hj,
    hcoefficients i j hj]

/-- A transform is determined by its slots. -/
theorem Slots.eq_forward (htwo : 2 ≤ L) (hL : L < 32) (hroot : root ^ 2 ^ L = -1)
    {launch : Launch R} (hruns : launch.Runs (2 ^ L) m) {z : ℕ → R}
    (hx : Slots L m root x (polynomial L z)) {i k : ℕ} (hi : i < m) (hk : k < 2 ^ L) :
    forward L m root launch z (k + i * 2 ^ L) = x (k + i * 2 ^ L) := by
  rw [forward_eval htwo hL hroot hruns z hi hk, hx i hi k hk]

/-! ## Polynomials of arrays -/

theorem polynomial_add (x y : ℕ → R) (i : ℕ) :
    polynomial L (fun k => x k + y k) i = polynomial L x i + polynomial L y i := by
  unfold polynomial
  rw [← Finset.sum_add_distrib]
  exact Finset.sum_congr rfl fun _ _ => map_add (monomial _) _ _

theorem polynomial_sub (x y : ℕ → R) (i : ℕ) :
    polynomial L (fun k => x k - y k) i = polynomial L x i - polynomial L y i := by
  unfold polynomial
  rw [← Finset.sum_sub_distrib]
  exact Finset.sum_congr rfl fun _ _ => map_sub (monomial _) _ _

theorem polynomial_congr {i : ℕ} (h : ∀ j < 2 ^ L, x (j + i * 2 ^ L) = y (j + i * 2 ^ L)) :
    polynomial L x i = polynomial L y i :=
  Finset.sum_congr rfl fun j hj => by rw [h j (Finset.mem_range.mp hj)]

theorem map_polynomial {S : Type*} [CommRing S] (φ : R →+* S) (x : ℕ → R) (i : ℕ) :
    (polynomial L x i).map φ = polynomial L (fun k => φ (x k)) i := by
  unfold polynomial
  rw [Polynomial.map_sum]
  exact Finset.sum_congr rfl fun _ _ => map_monomial φ

/-- The remainder of an image. -/
theorem map_modByMonic_negacyclic {S : Type*} [CommRing S] (φ : R →+* S) (f : R[X]) :
    (f %ₘ (X ^ 2 ^ L + 1)).map φ = f.map φ %ₘ (X ^ 2 ^ L + 1) := by
  rw [map_modByMonic φ monic_negacyclic, Polynomial.map_add, Polynomial.map_pow, map_X,
    Polynomial.map_one]

theorem degree_polynomial_lt (x : ℕ → R) (i : ℕ) : (polynomial L x i).degree < (2 ^ L : ℕ) := by
  rw [degree_lt_iff_coeff_zero]
  intro j hj
  simp [polynomial, coeff_monomial, Nat.not_lt.mpr hj]

end

end Hmpc.Expr.NumberTheoreticTransform
