/-
# Hmpc.Lib.Ntt -- the stages of a negacyclic number theoretic transform

The forward transform halves the blocks of an array in each stage. What stands in a block is the
remainder of a polynomial by `X ^ m - z` for a power `z` of the root, so that single elements are
in the end the values of the polynomial: `forwardStages_eq`. An inverse stage undoes a forward
stage up to a factor of two, in both orders.
-/
import Mathlib.Algebra.BigOperators.Intervals
import Mathlib.Algebra.BigOperators.Ring.Finset
import Mathlib.Tactic.LinearCombination
import Hmpc.Lib.BitReverse

namespace Hmpc.Lib.Ntt

open Finset

section

variable {R : Type*} [Add R] [Sub R] [Mul R]

/-- A stage on blocks of two halves each; `psi` is the factor of a block. -/
def forwardStage (half : ℕ) (psi : ℕ → R) (d : ℕ → R) (p : ℕ) : R :=
  if p % (2 * half) < half then d p + d (p + half) * psi (p / (2 * half))
  else d (p - half) - d p * psi (p / (2 * half))

/-- The stage back, up to a factor of two. -/
def inverseStage (half : ℕ) (psi : ℕ → R) (d : ℕ → R) (p : ℕ) : R :=
  if p % (2 * half) < half then d p + d (p + half)
  else (d (p - half) - d p) * psi (p / (2 * half))

/-- The first `t` of `n` stages; stage `t` has the factors from `2 ^ t` on. -/
def forwardStages (n : ℕ) (psis : ℕ → R) (d : ℕ → R) : ℕ → ℕ → R
  | 0 => d
  | t + 1 => forwardStage (2 ^ (n - t - 1)) (fun b => psis (2 ^ t + b)) (forwardStages n psis d t)

/-- The first `s` of `n` stages back. -/
def inverseStages (n : ℕ) (psis : ℕ → R) (d : ℕ → R) : ℕ → ℕ → R
  | 0 => d
  | s + 1 => inverseStage (2 ^ s) (fun b => psis (2 ^ (n - s - 1) + b)) (inverseStages n psis d s)

end

/-! ## Blocks and halves -/

section

variable {half p : ℕ}

theorem low_half (hlow : p % (2 * half) < half) :
    (p + half) / (2 * half) = p / (2 * half) ∧ half ≤ (p + half) % (2 * half) ∧
      p / half = 2 * (p / (2 * half)) ∧ p % half = p % (2 * half) := by
  have hparts := Nat.div_add_mod p (2 * half)
  generalize p / (2 * half) = q at hparts ⊢
  generalize p % (2 * half) = r at hparts hlow ⊢
  subst hparts
  have hpos : 0 < half := by omega
  have hsum : 2 * half * q + r + half = (r + half) + 2 * half * q := by omega
  have hsum' : 2 * half * q + r = r + half * (2 * q) := by ring
  refine ⟨?_, ?_, ?_, ?_⟩
  · rw [hsum, Nat.add_mul_div_left _ _ (by omega), Nat.div_eq_of_lt (by omega), Nat.zero_add]
  · rw [hsum, Nat.add_mul_mod_self_left, Nat.mod_eq_of_lt (by omega)]
    omega
  · rw [hsum', Nat.add_mul_div_left _ _ hpos, Nat.div_eq_of_lt hlow, Nat.zero_add]
  · rw [hsum', Nat.add_mul_mod_self_left, Nat.mod_eq_of_lt hlow]

theorem high_half (hpos : 0 < half) (hhigh : ¬ p % (2 * half) < half) :
    half ≤ p ∧ (p - half) / (2 * half) = p / (2 * half) ∧ (p - half) % (2 * half) < half ∧
      p / half = 2 * (p / (2 * half)) + 1 ∧ p % half = p % (2 * half) - half := by
  have hparts := Nat.div_add_mod p (2 * half)
  have hlt := Nat.mod_lt p (show 0 < 2 * half by omega)
  generalize p / (2 * half) = q at hparts ⊢
  generalize p % (2 * half) = r at hparts hlt hhigh ⊢
  subst hparts
  have hsub : 2 * half * q + r - half = (r - half) + 2 * half * q := by omega
  have hsum : 2 * half * q + r = (r - half) + half * (2 * q + 1) := by
    have : half * (2 * q + 1) = 2 * half * q + half := by ring
    omega
  refine ⟨by omega, ?_, ?_, ?_, ?_⟩
  · rw [hsub, Nat.add_mul_div_left _ _ (by omega), Nat.div_eq_of_lt (by omega), Nat.zero_add]
  · rw [hsub, Nat.add_mul_mod_self_left, Nat.mod_eq_of_lt (by omega)]
    omega
  · rw [hsum, Nat.add_mul_div_left _ _ hpos, Nat.div_eq_of_lt (by omega), Nat.zero_add]
  · rw [hsum, Nat.add_mul_mod_self_left, Nat.mod_eq_of_lt (by omega)]

end

/-! ## Stages back and forth -/

section

variable {half p n c : ℕ}

/-- The second place of a butterfly is there as well. -/
theorem low_half_lt (hn : n = 2 * half * c) (hlow : p % (2 * half) < half) (hp : p < n) :
    p + half < n := by
  have hparts := Nat.div_add_mod p (2 * half)
  have hblock : p / (2 * half) < c := by
    rw [Nat.div_lt_iff_lt_mul (by omega), Nat.mul_comm, ← hn]
    exact hp
  have hle : 2 * half * (p / (2 * half) + 1) ≤ 2 * half * c := Nat.mul_le_mul_left _ hblock
  rw [Nat.mul_add, Nat.mul_one] at hle
  omega

end

section

variable {R : Type*} [Add R] [Sub R] [Mul R] {half p : ℕ} {psi d : ℕ → R}

theorem forwardStage_low (h : p % (2 * half) < half) :
    forwardStage half psi d p = d p + d (p + half) * psi (p / (2 * half)) := if_pos h

theorem forwardStage_high (h : ¬ p % (2 * half) < half) :
    forwardStage half psi d p = d (p - half) - d p * psi (p / (2 * half)) := if_neg h

theorem inverseStage_low (h : p % (2 * half) < half) :
    inverseStage half psi d p = d p + d (p + half) := if_pos h

theorem inverseStage_high (h : ¬ p % (2 * half) < half) :
    inverseStage half psi d p = (d (p - half) - d p) * psi (p / (2 * half)) := if_neg h

variable {psi' d' : ℕ → R} {n c : ℕ}

/-- A stage only looks at the array and at the factor of the block. -/
theorem forwardStage_congr (hn : n = 2 * half * c) (hd : ∀ p < n, d p = d' p)
    (hpsi : psi (p / (2 * half)) = psi' (p / (2 * half))) (hp : p < n) :
    forwardStage half psi d p = forwardStage half psi' d' p := by
  unfold forwardStage
  rw [hpsi, hd p hp]
  split
  · rw [hd _ (low_half_lt hn ‹_› hp)]
  · rw [hd (p - half) (by omega)]

theorem inverseStage_congr (hn : n = 2 * half * c) (hd : ∀ p < n, d p = d' p)
    (hpsi : psi (p / (2 * half)) = psi' (p / (2 * half))) (hp : p < n) :
    inverseStage half psi d p = inverseStage half psi' d' p := by
  unfold inverseStage
  rw [hpsi, hd p hp]
  split
  · rw [hd _ (low_half_lt hn ‹_› hp)]
  · rw [hd (p - half) (by omega)]

end

section

variable {R : Type*} [Add R] [Sub R] [Mul R] {n t p : ℕ} {psis psis' d d' : ℕ → R}

theorem two_pow_split (ht : t < n) : 2 ^ n = 2 * 2 ^ (n - t - 1) * 2 ^ t := by
  rw [← pow_succ', ← pow_add, show n - t - 1 + 1 + t = n by omega]

/-- The factors of a stage are in the table. -/
theorem factor_lt (ht : t < n) (hp : p < 2 ^ n) :
    p / (2 * 2 ^ (n - t - 1)) < 2 ^ t ∧ 2 ^ t + p / (2 * 2 ^ (n - t - 1)) < 2 ^ n := by
  have hblock : p / (2 * 2 ^ (n - t - 1)) < 2 ^ t := by
    apply Nat.div_lt_of_lt_mul
    rwa [← two_pow_split ht]
  have hle : 2 ^ (t + 1) ≤ 2 ^ n := Nat.pow_le_pow_right two_pos ht
  rw [pow_succ] at hle
  omega

theorem forwardStages_congr (hpsis : ∀ j < 2 ^ n, psis j = psis' j)
    (hd : ∀ p < 2 ^ n, d p = d' p) (ht : t ≤ n) (hp : p < 2 ^ n) :
    forwardStages n psis d t p = forwardStages n psis' d' t p := by
  induction t generalizing p with
  | zero => exact hd p hp
  | succ t ih =>
      exact forwardStage_congr (two_pow_split ht) (fun p hp => ih (by omega) hp)
        (hpsis _ (factor_lt ht hp).2) hp

theorem inverseStages_congr (hpsis : ∀ j < 2 ^ n, psis j = psis' j)
    (hd : ∀ p < 2 ^ n, d p = d' p) (ht : t ≤ n) (hp : p < 2 ^ n) :
    inverseStages n psis d t p = inverseStages n psis' d' t p := by
  induction t generalizing p with
  | zero => exact hd p hp
  | succ t ih =>
      have hlt : n - t - 1 < n := by omega
      have hsplit := two_pow_split hlt
      have hfactor := factor_lt hlt hp
      rw [show n - (n - t - 1) - 1 = t by omega] at hsplit hfactor
      exact inverseStage_congr hsplit (fun p hp => ih (by omega) hp) (hpsis _ hfactor.2) hp

end

section

variable {R : Type*} [CommRing R]

theorem inverseStage_forwardStage {half : ℕ} (hpos : 0 < half) {psi inv : ℕ → R}
    (hinv : ∀ b, psi b * inv b = 1) (d : ℕ → R) (p : ℕ) :
    inverseStage half inv (forwardStage half psi d) p = 2 * d p := by
  by_cases hlow : p % (2 * half) < half
  · obtain ⟨hdiv, hmod, -, -⟩ := low_half hlow
    rw [inverseStage_low hlow, forwardStage_low hlow, forwardStage_high (Nat.not_lt.mpr hmod),
      hdiv, Nat.add_sub_cancel]
    ring
  · obtain ⟨hle, hdiv, hmod, -, -⟩ := high_half hpos hlow
    rw [inverseStage_high hlow, forwardStage_high hlow, forwardStage_low hmod, hdiv,
      Nat.sub_add_cancel hle]
    linear_combination (2 * d p) * hinv (p / (2 * half))

theorem forwardStage_inverseStage {half : ℕ} (hpos : 0 < half) {psi inv : ℕ → R}
    (hinv : ∀ b, psi b * inv b = 1) (d : ℕ → R) (p : ℕ) :
    forwardStage half psi (inverseStage half inv d) p = 2 * d p := by
  by_cases hlow : p % (2 * half) < half
  · obtain ⟨hdiv, hmod, -, -⟩ := low_half hlow
    rw [forwardStage_low hlow, inverseStage_low hlow, inverseStage_high (Nat.not_lt.mpr hmod),
      hdiv, Nat.add_sub_cancel]
    linear_combination (d p - d (p + half)) * hinv (p / (2 * half))
  · obtain ⟨hle, hdiv, hmod, -, -⟩ := high_half hpos hlow
    rw [forwardStage_high hlow, inverseStage_high hlow, inverseStage_low hmod,
      Nat.sub_add_cancel hle]
    linear_combination (d p - d (p - half)) * hinv (p / (2 * half))

theorem forwardStage_smul (half : ℕ) (psi : ℕ → R) (c : R) (d : ℕ → R) (p : ℕ) :
    forwardStage half psi (fun p => c * d p) p = c * forwardStage half psi d p := by
  unfold forwardStage
  split <;> ring

theorem inverseStage_smul (half : ℕ) (psi : ℕ → R) (c : R) (d : ℕ → R) (p : ℕ) :
    inverseStage half psi (fun p => c * d p) p = c * inverseStage half psi d p := by
  unfold inverseStage
  split <;> ring

/-- After the forward transform, `s` stages back leave `n - s` stages. -/
theorem inverseStages_forwardStages {n : ℕ} {psis inv : ℕ → R} (hinv : ∀ j, psis j * inv j = 1)
    (d : ℕ → R) {s : ℕ} (hs : s ≤ n) (p : ℕ) :
    inverseStages n inv (forwardStages n psis d n) s p =
      2 ^ s * forwardStages n psis d (n - s) p := by
  induction s generalizing p with
  | zero => simp [inverseStages]
  | succ s ih =>
      have hrest := funext fun p => ih (by omega) p
      have hstage : forwardStages n psis d (n - s) =
          forwardStage (2 ^ s) (fun b => psis (2 ^ (n - s - 1) + b))
            (forwardStages n psis d (n - s - 1)) := by
        obtain ⟨t, ht⟩ : ∃ t, n - s = t + 1 := ⟨n - s - 1, by omega⟩
        rw [ht, forwardStages, Nat.add_sub_cancel, show n - t - 1 = s by omega]
      rw [inverseStages, hrest, inverseStage_smul, hstage,
        inverseStage_forwardStage (Nat.two_pow_pos _) (fun b => hinv _), ← Nat.sub_sub]
      ring

/-- After the inverse transform, `t` stages forth leave `n - t` stages. -/
theorem forwardStages_inverseStages {n : ℕ} {psis inv : ℕ → R} (hinv : ∀ j, psis j * inv j = 1)
    (c : R) (d : ℕ → R) {t : ℕ} (ht : t ≤ n) (p : ℕ) :
    forwardStages n psis (fun p => c * inverseStages n inv d n p) t p =
      2 ^ t * c * inverseStages n inv d (n - t) p := by
  induction t generalizing p with
  | zero => simp [forwardStages]
  | succ t ih =>
      have hrest := funext fun p => ih (by omega) p
      have hstage : inverseStages n inv d (n - t) =
          inverseStage (2 ^ (n - t - 1)) (fun b => inv (2 ^ t + b))
            (inverseStages n inv d (n - t - 1)) := by
        obtain ⟨s, hs⟩ : ∃ s, n - t = s + 1 := ⟨n - t - 1, by omega⟩
        rw [hs, inverseStages, Nat.add_sub_cancel, show n - s - 1 = t by omega]
      rw [forwardStages, hrest, forwardStage_smul, hstage,
        forwardStage_inverseStage (Nat.two_pow_pos _) (fun b => hinv _), ← Nat.sub_sub]
      ring

/-! ## What the forward stages compute -/

theorem sum_range_two_mul (f : ℕ → R) (m : ℕ) :
    ∑ j ∈ range (2 * m), f j = ∑ j ∈ range m, (f (2 * j) + f (2 * j + 1)) := by
  induction m with
  | zero => simp
  | succ m ih =>
      rw [show 2 * (m + 1) = 2 * m + 1 + 1 by ring, sum_range_succ, sum_range_succ, ih,
        sum_range_succ, add_assoc]

/-- The power of the root that block `b` stands for after `t` of `n` stages. -/
def blockRoot (n : ℕ) (root : R) (t b : ℕ) : R := root ^ ((2 * reverseBits t b + 1) * 2 ^ (n - t))

section

variable {n t : ℕ} {root : R}

theorem reverseBits_even (t b : ℕ) : reverseBits (t + 1) (2 * b) = reverseBits t b := by
  rw [reverseBits, Nat.mul_mod_right, Nat.mul_div_cancel_left _ two_pos, Nat.zero_mul,
    Nat.zero_add]

/-- The first half of a block stands for a square root of what the block stands for. -/
theorem blockRoot_first_sq (ht : t < n) (b : ℕ) :
    blockRoot n root (t + 1) (2 * b) ^ 2 = blockRoot n root t b := by
  have hpow : 2 ^ (n - t) = 2 ^ (n - (t + 1)) * 2 := by
    rw [← pow_succ, show n - (t + 1) + 1 = n - t by omega]
  unfold blockRoot
  rw [reverseBits_even, ← pow_mul, hpow, Nat.mul_assoc]

/-- The second half stands for the other square root. -/
theorem blockRoot_second (hroot : root ^ 2 ^ n = -1) (ht : t < n) (b : ℕ) :
    blockRoot n root (t + 1) (2 * b + 1) = -blockRoot n root (t + 1) (2 * b) := by
  have hsecond : reverseBits (t + 1) (2 * b + 1) = 2 ^ t + reverseBits t b := by
    rw [reverseBits, show (2 * b + 1) % 2 = 1 by omega, show (2 * b + 1) / 2 = b by omega,
      Nat.one_mul]
  have hpow : 2 ^ n = 2 * 2 ^ t * 2 ^ (n - (t + 1)) := by
    rw [← pow_succ', ← pow_add, show t + 1 + (n - (t + 1)) = n by omega]
  unfold blockRoot
  rw [reverseBits_even, hsecond, show (2 * (2 ^ t + reverseBits t b) + 1) * 2 ^ (n - (t + 1)) =
    2 ^ n + (2 * reverseBits t b + 1) * 2 ^ (n - (t + 1)) by rw [hpow]; ring, pow_add, hroot]
  ring

/-- The factor of a block. -/
theorem pow_reverseBits_stage {b : ℕ} (hb : b < 2 ^ t) (ht : t < n) :
    root ^ reverseBits n (2 ^ t + b) = blockRoot n root (t + 1) (2 * b) := by
  unfold blockRoot
  rw [reverseBits_stage hb ht, reverseBits_even, ← Nat.sub_sub]

/-- After `t` stages a block holds the remainder by `X ^ m - z`, for the length `m` of a block
and what the block stands for. -/
theorem forwardStages_eq (hroot : root ^ 2 ^ n = -1) {psis : ℕ → R}
    (hpsis : ∀ j < 2 ^ n, psis j = root ^ reverseBits n j) (d : ℕ → R) (ht : t ≤ n) {p : ℕ}
    (hp : p < 2 ^ n) :
    forwardStages n psis d t p = ∑ j ∈ range (2 ^ t),
      d (j * 2 ^ (n - t) + p % 2 ^ (n - t)) * blockRoot n root t (p / 2 ^ (n - t)) ^ j := by
  induction t generalizing p with
  | zero =>
      simp [forwardStages, Nat.mod_eq_of_lt hp]
  | succ t ih =>
      have hlength : 2 ^ (n - t) = 2 * 2 ^ (n - (t + 1)) := by
        rw [← pow_succ', show n - (t + 1) + 1 = n - t by omega]
      have hn : 2 ^ n = 2 ^ t * 2 ^ (n - t) := by
        rw [← pow_add, show t + (n - t) = n by omega]
      have hpos : 0 < 2 ^ (n - (t + 1)) := Nat.two_pow_pos _
      rw [forwardStages, Nat.sub_sub]
      generalize hh : 2 ^ (n - (t + 1)) = half at hlength hpos ⊢
      rw [hlength] at ih hn
      have hb : p / (2 * half) < 2 ^ t := by
        rw [Nat.div_lt_iff_lt_mul (by omega), ← hn]
        exact hp
      have hpsi : psis (2 ^ t + p / (2 * half)) =
          blockRoot n root (t + 1) (2 * (p / (2 * half))) := by
        rw [hpsis _ (by
          have : 2 ^ (t + 1) ≤ 2 ^ n := Nat.pow_le_pow_right two_pos ht
          rw [pow_succ] at this
          omega), pow_reverseBits_stage hb ht]
      have hsq := @blockRoot_first_sq _ _ _ _ root ht (p / (2 * half))
      have heven (j : ℕ) : blockRoot n root (t + 1) (2 * (p / (2 * half))) ^ (2 * j) =
          blockRoot n root t (p / (2 * half)) ^ j := by
        rw [pow_mul, hsq]
      -- the terms of even and of odd powers are the two elements of the butterfly
      rw [pow_succ', sum_range_two_mul]
      by_cases hlow : p % (2 * half) < half
      · obtain ⟨hdiv, hmod, hblock, hrest⟩ := low_half hlow
        have hmod' : (p + half) % (2 * half) = p % (2 * half) + half := by
          have h := Nat.div_add_mod (p + half) (2 * half)
          have h' := Nat.div_add_mod p (2 * half)
          rw [hdiv] at h
          omega
        have hp' : p + half < 2 ^ n := low_half_lt (hn.trans (Nat.mul_comm _ _)) hlow hp
        rw [forwardStage_low hlow, ih (by omega) hp, ih (by omega) hp', hdiv, hmod', hblock, hrest,
          hpsi, sum_mul, ← sum_add_distrib]
        refine sum_congr rfl fun j _ => ?_
        rw [pow_succ, heven, show 2 * j * half + p % (2 * half) = j * (2 * half) + p % (2 * half) by
          ring, show (2 * j + 1) * half + p % (2 * half) =
            j * (2 * half) + (p % (2 * half) + half) by ring]
        ring
      · obtain ⟨hle, hdiv, hmod, hblock, hrest⟩ := high_half hpos hlow
        have hmod' : (p - half) % (2 * half) = p % (2 * half) - half := by
          have h := Nat.div_add_mod (p - half) (2 * half)
          have h' := Nat.div_add_mod p (2 * half)
          rw [hdiv] at h
          omega
        rw [forwardStage_high hlow, ih (by omega) hp, ih (by omega) (by omega), hdiv, hmod',
          hblock, hrest, hpsi, sum_mul, ← sum_sub_distrib]
        refine sum_congr rfl fun j _ => ?_
        -- the second half stands for the negated root
        rw [blockRoot_second hroot ht, pow_succ, (even_two_mul j).neg_pow, heven,
          show 2 * j * half + (p % (2 * half) - half) = j * (2 * half) + (p % (2 * half) - half) by
            ring, show (2 * j + 1) * half + (p % (2 * half) - half) =
              j * (2 * half) + p % (2 * half) by
            have : (2 * j + 1) * half = j * (2 * half) + half := by ring
            omega]
        ring

/-- In the end every slot holds a value of the polynomial. -/
theorem forwardStages_values (hroot : root ^ 2 ^ n = -1) {psis : ℕ → R}
    (hpsis : ∀ j < 2 ^ n, psis j = root ^ reverseBits n j) (d : ℕ → R) {k : ℕ} (hk : k < 2 ^ n) :
    forwardStages n psis d n k =
      ∑ j ∈ range (2 ^ n), d j * root ^ (j * (2 * reverseBits n k + 1)) := by
  rw [forwardStages_eq hroot hpsis d le_rfl hk]
  refine sum_congr rfl fun j _ => ?_
  rw [Nat.sub_self, pow_zero, Nat.mod_one, Nat.mul_one, Nat.add_zero, Nat.div_one, blockRoot,
    Nat.sub_self, pow_zero, Nat.mul_one, ← pow_mul, Nat.mul_comm j]

end

end

end Hmpc.Lib.Ntt
