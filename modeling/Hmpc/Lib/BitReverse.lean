/-
# Hmpc.Lib.BitReverse -- a number with its bits in reverse order

`reverseBits n k` reverses the lowest `n` bits of `k`. Taking the lowest bit off turns it into the
highest one, and the other way round; so reversing twice changes nothing, and an index with leading
zeros is reversed like one without them.
-/
import Mathlib.Algebra.Order.Ring.Nat
import Mathlib.Tactic.Ring

namespace Hmpc.Lib

/-- The lowest `n` bits in reverse order. -/
def reverseBits : ℕ → ℕ → ℕ
  | 0, _ => 0
  | n + 1, k => k % 2 * 2 ^ n + reverseBits n (k / 2)

theorem reverseBits_lt (n k : ℕ) : reverseBits n k < 2 ^ n := by
  induction n generalizing k with
  | zero => exact one_pos
  | succ n ih =>
      have hrest := ih (k / 2)
      have hbit : k % 2 * 2 ^ n ≤ 1 * 2 ^ n := Nat.mul_le_mul_right _ (by omega)
      rw [reverseBits, pow_succ]
      omega

@[simp] theorem reverseBits_zero (n : ℕ) : reverseBits n 0 = 0 := by
  induction n with
  | zero => rfl
  | succ n ih => rw [reverseBits, Nat.zero_mod, Nat.zero_mul, Nat.zero_div, ih]

/-- The highest bit becomes the lowest one. -/
theorem reverseBits_high (n : ℕ) {bit low : ℕ} (hbit : bit < 2) (hlow : low < 2 ^ n) :
    reverseBits (n + 1) (bit * 2 ^ n + low) = 2 * reverseBits n low + bit := by
  induction n generalizing low with
  | zero =>
      have hzero : low = 0 := by simpa using hlow
      subst hzero
      simp [reverseBits, Nat.mod_eq_of_lt hbit]
  | succ n ih =>
      have hparts : bit * 2 ^ (n + 1) + low = 2 * (bit * 2 ^ n) + low := by ring
      have hmod : (bit * 2 ^ (n + 1) + low) % 2 = low % 2 := by omega
      have hdiv : (bit * 2 ^ (n + 1) + low) / 2 = bit * 2 ^ n + low / 2 := by omega
      have hlow' : low / 2 < 2 ^ n := by
        rw [pow_succ] at hlow
        omega
      rw [reverseBits, hmod, hdiv, ih hlow', reverseBits]
      ring

theorem reverseBits_reverseBits (n k : ℕ) : reverseBits n (reverseBits n k) = k % 2 ^ n := by
  induction n generalizing k with
  | zero => simp [reverseBits, Nat.mod_one]
  | succ n ih =>
      have hk : reverseBits (n + 1) k = k % 2 * 2 ^ n + reverseBits n (k / 2) := rfl
      rw [hk, reverseBits_high n (Nat.mod_lt _ two_pos) (reverseBits_lt n _), ih, pow_succ',
        Nat.mod_mul]
      omega

theorem reverseBits_self {n k : ℕ} (hk : k < 2 ^ n) : reverseBits n (reverseBits n k) = k := by
  rw [reverseBits_reverseBits, Nat.mod_eq_of_lt hk]

/-- Only zero has no bits. -/
theorem reverseBits_eq_zero_iff {n k : ℕ} (hk : k < 2 ^ n) : reverseBits n k = 0 ↔ k = 0 := by
  constructor
  · intro hzero
    rw [← reverseBits_self hk, hzero, reverseBits_zero]
  · intro hzero
    rw [hzero, reverseBits_zero]

/-- Leading zeros become factors of two. -/
theorem reverseBits_add (n d : ℕ) {k : ℕ} (hk : k < 2 ^ n) :
    reverseBits (n + d) k = 2 ^ d * reverseBits n k := by
  induction d with
  | zero => simp
  | succ d ih =>
      have hlt : k < 2 ^ (n + d) :=
        lt_of_lt_of_le hk (Nat.pow_le_pow_right two_pos (Nat.le_add_right n d))
      have hhigh := reverseBits_high (n + d) two_pos hlt
      rw [Nat.zero_mul, Nat.zero_add, Nat.add_zero, ih] at hhigh
      rw [← Nat.add_assoc, hhigh, pow_succ]
      ring

/-- The index of a root in the order of its stage. -/
theorem reverseBits_stage {t n b : ℕ} (hb : b < 2 ^ t) (ht : t < n) :
    reverseBits n (2 ^ t + b) = (2 * reverseBits t b + 1) * 2 ^ (n - t - 1) := by
  have hlt : 2 ^ t + b < 2 ^ (t + 1) := by
    rw [pow_succ]
    omega
  have hadd := reverseBits_add (t + 1) (n - t - 1) hlt
  have hhigh := reverseBits_high t one_lt_two hb
  rw [Nat.one_mul] at hhigh
  rw [show t + 1 + (n - t - 1) = n by omega, hhigh] at hadd
  rw [hadd, Nat.mul_comm]

theorem reverseBits_one {n : ℕ} (hn : 0 < n) : reverseBits n 1 = 2 ^ (n - 1) := by
  have hstage := reverseBits_stage (t := 0) (n := n) (b := 0) (by simp) hn
  simpa [reverseBits] using hstage

theorem testBit_reverseBits (n k i : ℕ) :
    (reverseBits n k).testBit i = (decide (i < n) && k.testBit (n - 1 - i)) := by
  induction n generalizing k i with
  | zero => simp [reverseBits]
  | succ n ih =>
      have hrest := reverseBits_lt n (k / 2)
      rw [reverseBits, Nat.mul_comm, Nat.testBit_two_pow_mul_add _ hrest]
      by_cases hi : i < n
      · rw [if_pos hi, ih, Nat.testBit_div_two]
        simp only [hi, decide_true, Bool.true_and, Nat.lt_succ_of_lt hi,
          show n + 1 - 1 - i = n - 1 - i + 1 by omega]
      · rw [if_neg hi]
        by_cases heq : i = n
        · subst heq
          simp [Nat.testBit_zero]
        · obtain ⟨d, hd⟩ := Nat.exists_eq_add_of_lt (show n < i by omega)
          have hne : ¬ i < n + 1 := by omega
          rw [show i - n = d + 1 by omega, Nat.testBit_succ]
          simp [hne, show k % 2 / 2 = 0 by omega]

end Hmpc.Lib
