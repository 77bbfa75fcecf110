/-
# Hmpc.Lib.LongDivision -- one digit of a long division

The quotient of the two highest digits of the numerator by the highest digit of the denominator is
never too small, and at most two too large when the highest digit of the denominator is at least
half of the base.
-/
import Mathlib.Algebra.Order.Ring.Nat
import Mathlib.Tactic.Linarith
import Mathlib.Tactic.Ring

namespace Hmpc.Lib.LongDivision

variable {B d numerator denominator : ℕ}

/-- The quotient of the highest digits, which stays below the base. -/
def estimate (B d numerator denominator : ℕ) : ℕ :=
  min (numerator / B ^ d / (denominator / B ^ d)) (B - 1)

/-- The estimate is not too small. -/
theorem le_estimate (hlt : numerator < denominator * B) (hhigh : B ^ d ≤ denominator) (hB : 0 < B) :
    numerator / denominator ≤ estimate B d numerator denominator := by
  have hpow : 0 < B ^ d := Nat.pow_pos hB
  have hdigit : 0 < denominator / B ^ d := Nat.div_pos hhigh hpow
  apply le_min
  · calc numerator / denominator ≤ numerator / (B ^ d * (denominator / B ^ d)) :=
          Nat.div_le_div_left (Nat.mul_div_le _ _) (Nat.mul_pos hpow hdigit)
      _ = numerator / B ^ d / (denominator / B ^ d) := (Nat.div_div_eq_div_mul _ _ _).symm
  · have hquotient : numerator / denominator < B := Nat.div_lt_of_lt_mul hlt
    omega

/-- The estimate is at most two too large. -/
theorem estimate_le (hB : 0 < B) (hhigh : B ^ (d + 1) ≤ 2 * denominator)
    (hpow : B ^ d ≤ denominator) :
    estimate B d numerator denominator ≤ numerator / denominator + 2 := by
  have hpos : 0 < B ^ d := Nat.pow_pos hB
  have hden : 0 < denominator := Nat.lt_of_lt_of_le hpos hpow
  have hle : estimate B d numerator denominator * (denominator / B ^ d) * B ^ d ≤ numerator := by
    calc estimate B d numerator denominator * (denominator / B ^ d) * B ^ d
        ≤ numerator / B ^ d / (denominator / B ^ d) * (denominator / B ^ d) * B ^ d := by
          gcongr
          exact min_le_left _ _
      _ ≤ numerator / B ^ d * B ^ d := by
          gcongr
          exact Nat.div_mul_le_self _ _
      _ ≤ numerator := Nat.div_mul_le_self _ _
  have hbase : estimate B d numerator denominator ≤ B - 1 := min_le_right _ _
  have hquotient : numerator < (numerator / denominator + 1) * denominator :=
    Nat.lt_mul_of_div_lt (Nat.lt_succ_self _) hden
  have hdigit : denominator < (denominator / B ^ d + 1) * B ^ d :=
    Nat.lt_mul_of_div_lt (Nat.lt_succ_self _) hpos
  generalize estimate B d numerator denominator = q at hle hbase ⊢
  generalize numerator / denominator = e at hquotient ⊢
  generalize denominator / B ^ d = h at hle hdigit
  by_contra hcon
  -- then the estimate is off by more than the rest of the denominator explains
  have hthree : (e + 3) * denominator ≤ q * denominator := Nat.mul_le_mul_right _ (by omega)
  have hscaled : q * denominator ≤ q * ((h + 1) * B ^ d) := Nat.mul_le_mul_left _ hdigit.le
  have hrest : q * B ^ d ≤ (B - 1) * B ^ d := Nat.mul_le_mul_right _ hbase
  have hfull : (B - 1) * B ^ d + B ^ d = B ^ (d + 1) := by
    rw [← Nat.succ_mul, Nat.succ_eq_add_one, Nat.sub_add_cancel hB, pow_succ, Nat.mul_comm]
  have hexpand : q * ((h + 1) * B ^ d) = q * h * B ^ d + q * B ^ d := by ring
  have hexpand₃ : (e + 3) * denominator = (e + 1) * denominator + 2 * denominator := by ring
  omega

/-- With at most two corrections the estimate becomes the quotient. -/
theorem correct {q : ℕ} (hle : numerator / denominator ≤ q) (hq : q ≤ numerator / denominator + 2)
    (hden : 0 < denominator) :
    let fix (q : ℕ) := if denominator * q > numerator then q - 1 else q
    fix (fix q) = numerator / denominator := by
  have hiff (q : ℕ) : denominator * q > numerator ↔ numerator / denominator < q := by
    rw [gt_iff_lt, Nat.div_lt_iff_lt_mul hden, Nat.mul_comm]
  intro fix
  simp only [fix, hiff]
  generalize numerator / denominator = e at hle hq ⊢
  split_ifs <;> omega

/-! ## Division in two parts -/

section

variable {P : ℕ}

/-- The lower part of the numerator with the remainder of the upper part in front of it. -/
def rest (P numerator denominator : ℕ) : ℕ :=
  numerator % P + P * (numerator / P % denominator)

theorem rest_add (P numerator denominator : ℕ) :
    rest P numerator denominator + P * (numerator / P / denominator) * denominator =
      numerator := by
  have hupper := Nat.mod_add_div (numerator / P) denominator
  calc rest P numerator denominator + P * (numerator / P / denominator) * denominator
      = numerator % P +
          P * (numerator / P % denominator + denominator * (numerator / P / denominator)) := by
        unfold rest
        ring
    _ = numerator := by rw [hupper, Nat.mod_add_div]

theorem rest_lt (hP : 0 < P) (hden : 0 < denominator) :
    rest P numerator denominator < P * denominator := by
  have hlower : numerator % P < P := Nat.mod_lt _ hP
  have hupper : P * (numerator / P % denominator + 1) ≤ P * denominator :=
    Nat.mul_le_mul_left _ (Nat.mod_lt _ hden)
  rw [Nat.mul_add, Nat.mul_one] at hupper
  unfold rest
  omega

theorem rest_mod (P numerator denominator : ℕ) :
    rest P numerator denominator % denominator = numerator % denominator := by
  conv_rhs => rw [← rest_add P numerator denominator, Nat.add_mul_mod_self_right]

theorem rest_div (hden : 0 < denominator) :
    rest P numerator denominator / denominator + P * (numerator / P / denominator) =
      numerator / denominator := by
  conv_rhs => rw [← rest_add P numerator denominator, Nat.add_mul_div_right _ _ hden]

/-- The lower digits, and the remainder of what is above them, stay the same. -/
theorem rest_below {Q : ℕ} (hQ : Q ∣ P) (hQ₀ : 0 < Q) :
    rest P numerator denominator / Q % denominator = numerator / Q % denominator := by
  obtain ⟨c, rfl⟩ := hQ
  have hsum : numerator = rest (Q * c) numerator denominator +
      Q * (c * (numerator / (Q * c) / denominator) * denominator) := by
    conv_lhs => rw [← rest_add (Q * c) numerator denominator]
    ring
  conv_rhs => rw [hsum, Nat.add_mul_div_left _ _ hQ₀, Nat.add_mul_mod_self_right]

theorem rest_digit {Q : ℕ} (hQ : Q * B ∣ P) (hQ₀ : 0 < Q) :
    rest P numerator denominator / Q % B = numerator / Q % B := by
  obtain ⟨c, rfl⟩ := hQ
  have hsum : numerator = rest (Q * B * c) numerator denominator +
      Q * (c * (numerator / (Q * B * c) / denominator) * denominator * B) := by
    conv_lhs => rw [← rest_add (Q * B * c) numerator denominator]
    ring
  conv_rhs => rw [hsum, Nat.add_mul_div_left _ _ hQ₀, Nat.add_mul_mod_self_right]

end

/-! ## Digit by digit -/

/-- What the schoolbook division divides at digit `k`: the remainder so far, and the digit. -/
def partialNumerator (B numerator denominator k : ℕ) : ℕ :=
  numerator / B ^ (k + 1) % denominator * B + numerator / B ^ k % B

theorem partialNumerator_of_lt {k : ℕ} (hlt : numerator / B ^ (k + 1) < denominator) :
    partialNumerator B numerator denominator k = numerator / B ^ k := by
  unfold partialNumerator
  rw [Nat.mod_eq_of_lt hlt, pow_succ, ← Nat.div_div_eq_div_mul, Nat.mul_comm]
  exact Nat.div_add_mod _ _

/-- Below the lower part the schoolbook division is the same. -/
theorem partialNumerator_rest {k l : ℕ} (hB : 0 < B) (hk : k < l) :
    partialNumerator B (rest (B ^ l) numerator denominator) denominator k =
      partialNumerator B numerator denominator k := by
  unfold partialNumerator
  rw [rest_below (pow_dvd_pow B hk) (Nat.pow_pos hB),
    rest_digit (by rw [← pow_succ]; exact pow_dvd_pow B hk) (Nat.pow_pos hB)]

/-- A step above the lowest digit divides a number that is not longer than the denominator, and
not below it. -/
def Carries (B d numerator denominator : ℕ) : Prop :=
  ∃ k, 0 < k ∧ denominator ≤ partialNumerator B numerator denominator k ∧
    partialNumerator B numerator denominator k < B ^ (d + 1)

section

variable {k l : ℕ}

/-- There is nothing to divide above the digits of the numerator. -/
theorem partialNumerator_lt (hB : 0 < B) (hhigh : B ^ d ≤ denominator)
    (hlt : numerator < B ^ (k + d)) : partialNumerator B numerator denominator k < denominator := by
  have hbelow : numerator / B ^ k < denominator := by
    apply lt_of_lt_of_le _ hhigh
    apply Nat.div_lt_of_lt_mul
    rwa [← pow_add]
  have habove : numerator / B ^ (k + 1) < denominator := by
    apply lt_of_le_of_lt _ hbelow
    exact Nat.div_le_div_left (Nat.pow_le_pow_right hB (Nat.le_succ k)) (Nat.pow_pos hB)
  rw [partialNumerator_of_lt habove]
  exact hbelow

/-- The digits of the numerator decide. -/
theorem carries_iff_exists_lt (hB : 0 < B) (hden : 0 < denominator) (hlt : numerator < B ^ l) :
    Carries B d numerator denominator ↔
      ∃ k < l, 0 < k ∧ denominator ≤ partialNumerator B numerator denominator k ∧
        partialNumerator B numerator denominator k < B ^ (d + 1) := by
  constructor
  · rintro ⟨k, hk, hle, hroom⟩
    refine ⟨k, ?_, hk, hle, hroom⟩
    by_contra hkl
    have hzero (n : ℕ) (hn : l ≤ n) : numerator / B ^ n = 0 :=
      Nat.div_eq_of_lt (hlt.trans_le (Nat.pow_le_pow_right hB hn))
    rw [partialNumerator, hzero k (by omega), hzero (k + 1) (by omega), Nat.zero_mod,
      Nat.zero_mod, Nat.zero_mul] at hle
    omega
  · rintro ⟨k, -, hk⟩
    exact ⟨k, hk⟩

theorem not_carries_of_lt (hB : 0 < B) (hhigh : B ^ d ≤ denominator)
    (hlt : numerator < B ^ (d + 1)) : ¬ Carries B d numerator denominator := by
  rintro ⟨k, hk, hle, -⟩
  have hpow : B ^ (d + 1) ≤ B ^ (k + d) := Nat.pow_le_pow_right hB (by omega)
  exact absurd hle (Nat.not_le.mpr (partialNumerator_lt hB hhigh (hlt.trans_le hpow)))

/-- The highest step, and the steps of the rest. -/
theorem carries_iff (hB : 0 < B) (hhigh : B ^ d ≤ denominator)
    (hlow : B ^ (l + d + 1) ≤ numerator) (hlt : numerator < B ^ (l + d + 2)) :
    Carries B d numerator denominator ↔
      denominator * B ≤ numerator / B ^ l ∨
        Carries B d (rest (B ^ l) numerator denominator) denominator := by
  have hden₀ : 0 < denominator := lt_of_lt_of_le (Nat.pow_pos hB) hhigh
  have habove : numerator / B ^ (l + 2) < denominator := by
    apply lt_of_lt_of_le _ hhigh
    apply Nat.div_lt_of_lt_mul
    rwa [← pow_add, show l + 2 + d = l + d + 2 by omega]
  have htop := partialNumerator_of_lt (k := l + 1) habove
  have hshort : numerator / B ^ (l + 1) < B ^ (d + 1) := by
    apply Nat.div_lt_of_lt_mul
    rwa [← pow_add, show l + 1 + (d + 1) = l + d + 2 by omega]
  have hcarry : denominator * B ≤ numerator / B ^ l ↔ denominator ≤ numerator / B ^ (l + 1) := by
    rw [pow_succ, ← Nat.div_div_eq_div_mul, Nat.le_div_iff_mul_le hB]
  have hrest : rest (B ^ l) numerator denominator < B ^ l * denominator :=
    rest_lt (Nat.pow_pos hB) hden₀
  rw [hcarry]
  constructor
  · rintro ⟨k, hk, hle, hfits⟩
    by_contra hcon
    push Not at hcon
    obtain ⟨hbelow, hnone⟩ := hcon
    rcases Nat.lt_trichotomy k l with hkl | rfl | hkl
    · apply hnone
      refine ⟨k, hk, ?_, ?_⟩ <;> rwa [partialNumerator_rest hB hkl]
    · -- without a carry above it, this step divides a number with one digit more
      rw [partialNumerator_of_lt hbelow] at hfits
      have hlong : B ^ (d + 1) ≤ numerator / B ^ k := by
        rw [Nat.le_div_iff_mul_le (Nat.pow_pos hB), ← pow_add]
        rwa [show d + 1 + k = k + d + 1 by omega]
      omega
    · rcases Nat.lt_or_ge (l + 1) k with hlarge | hsmall
      · have hpow : B ^ (l + d + 2) ≤ B ^ (k + d) := Nat.pow_le_pow_right hB (by omega)
        have := partialNumerator_lt hB hhigh (hlt.trans_le hpow)
        omega
      · obtain rfl : k = l + 1 := by omega
        omega
  · rintro (hle | ⟨k, hk, hle, hfits⟩)
    · exact ⟨l + 1, by omega, by rwa [htop], by rwa [htop]⟩
    · have hkl : k < l := by
        by_contra hcon
        have hlarge : l ≤ k := by omega
        have hdigit : rest (B ^ l) numerator denominator / B ^ k < denominator := by
          apply Nat.div_lt_of_lt_mul
          exact hrest.trans_le (Nat.mul_le_mul_right _ (Nat.pow_le_pow_right hB hlarge))
        have hnext : rest (B ^ l) numerator denominator / B ^ (k + 1) < denominator := by
          apply lt_of_le_of_lt _ hdigit
          exact Nat.div_le_div_left (Nat.pow_le_pow_right hB (Nat.le_succ k)) (Nat.pow_pos hB)
        rw [partialNumerator_of_lt hnext] at hle
        omega
      refine ⟨k, hk, ?_, ?_⟩ <;> rwa [← partialNumerator_rest hB hkl]

end

end Hmpc.Lib.LongDivision
