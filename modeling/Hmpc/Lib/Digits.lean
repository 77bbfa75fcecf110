/-
# Hmpc.Lib.Digits -- the words of an integer in two's complement

Digit `i` of an integer `z` is bits `w * i` to `w * i + w - 1` of its infinite two's complement:
`z / (2 ^ w) ^ i` modulo `2 ^ w`. Every limb-wise loop computes digits of some integer from digits
of its operands; what connects one index to the next is a statement about `z / (2 ^ w) ^ i`, of
which carries and borrows are the case of sums and differences.
-/
import Mathlib.Algebra.Order.Ring.Int
import Mathlib.Tactic.Linarith
import Mathlib.Tactic.LinearCombination
import Hmpc.Lib.Limbs

namespace Hmpc.Lib.Digits

open Hmpc.Lib.Limbs

variable {w : ℕ}

/-- Bits `w * i` to `w * i + w - 1` of the two's complement of `z`. -/
def digit (w : ℕ) (z : ℤ) (i : ℕ) : BitVec w := BitVec.ofInt w (z / (2 ^ w) ^ i)

theorem base_pos (w : ℕ) : (0 : ℤ) < 2 ^ w := by positivity

theorem pow_base_pos (w i : ℕ) : (0 : ℤ) < (2 ^ w) ^ i := by positivity

theorem toNat_ofInt (z : ℤ) : ((BitVec.ofInt w z).toNat : ℤ) = z % 2 ^ w := by
  rw [BitVec.toNat_ofInt]
  push_cast
  exact Int.toNat_of_nonneg (Int.emod_nonneg _ (base_pos w).ne')

theorem toNat_digit (z : ℤ) (i : ℕ) :
    ((digit w z i).toNat : ℤ) = z / (2 ^ w) ^ i % 2 ^ w := toNat_ofInt _

theorem toNat_lt_int (x : BitVec w) : (x.toNat : ℤ) < 2 ^ w := by
  exact_mod_cast x.isLt

/-- A word with the value of a digit is the digit. -/
theorem eq_digit {x : BitVec w} {z : ℤ} {i : ℕ}
    (h : (x.toNat : ℤ) = z / (2 ^ w) ^ i % 2 ^ w) : x = digit w z i := by
  apply BitVec.eq_of_toNat_eq
  have hd := toNat_digit (w := w) z i
  omega

theorem ediv_succ (z : ℤ) (i : ℕ) : z / (2 ^ w) ^ (i + 1) = z / (2 ^ w) ^ i / 2 ^ w := by
  rw [pow_succ, Int.ediv_ediv_of_nonneg (pow_base_pos w i).le]

/-- What is above digit `i`, from what is above the digit below it. -/
theorem ediv_eq (z : ℤ) (i : ℕ) :
    z / (2 ^ w) ^ i = (digit w z i).toNat + 2 ^ w * (z / (2 ^ w) ^ (i + 1)) := by
  rw [ediv_succ, toNat_digit]
  exact (Int.emod_add_mul_ediv _ _).symm

@[simp] theorem digit_zero (i : ℕ) : digit w 0 i = 0 := by
  simp [digit]

/-- `-1` has all bits set. -/
theorem neg_one_ediv (i : ℕ) : (-1 : ℤ) / (2 ^ w) ^ i = -1 := by
  have h : (-1 : ℤ) = -1 * (2 ^ w) ^ i + ((2 ^ w) ^ i - 1) := by ring
  rw [h, Int.add_comm, Int.add_mul_ediv_right _ _ (pow_base_pos w i).ne',
    Int.ediv_eq_zero_of_lt]
  · ring
  · have := pow_base_pos w i
    omega
  · have := pow_base_pos w i
    omega

theorem digit_neg_one (i : ℕ) : digit w (-1) i = BitVec.allOnes w := by
  rw [digit, neg_one_ediv, BitVec.ofInt_neg, ← BitVec.neg_one_eq_allOnes]
  rfl

/-- The complement of an integer has the complements of its digits. -/
theorem ediv_not (z : ℤ) (i : ℕ) : (-1 - z) / (2 ^ w) ^ i = -1 - z / (2 ^ w) ^ i := by
  have hpos := pow_base_pos w i
  have hdiv := Int.emod_add_mul_ediv z ((2 ^ w) ^ i)
  have hmod := Int.emod_lt_of_pos z hpos
  have hnonneg := Int.emod_nonneg z hpos.ne'
  have h : -1 - z = ((2 ^ w) ^ i - 1 - z % (2 ^ w) ^ i) +
      (-1 - z / (2 ^ w) ^ i) * (2 ^ w) ^ i := by
    linear_combination hdiv
  rw [h, Int.add_mul_ediv_right _ _ hpos.ne', Int.ediv_eq_zero_of_lt (by omega) (by omega)]
  ring

theorem digit_not (z : ℤ) (i : ℕ) : digit w (-1 - z) i = ~~~digit w z i := by
  symm
  apply eq_digit
  rw [ediv_not, BitVec.toNat_not]
  have hlt := toNat_lt_int (digit w z i)
  have hd := toNat_digit (w := w) z i
  have hsplit := Int.emod_add_mul_ediv (z / (2 ^ w) ^ i) (2 ^ w)
  have h : -1 - z / (2 ^ w) ^ i = (2 ^ w - 1 - (digit w z i).toNat) +
      2 ^ w * (-1 - z / (2 ^ w) ^ i / 2 ^ w) := by
    linear_combination hsplit + hd
  rw [h, Int.add_mul_emod_self_left, Int.emod_eq_of_lt (by omega) (by omega)]
  have hle : 1 ≤ 2 ^ w := Nat.one_le_two_pow
  have hlt' := (digit w z i).isLt
  push_cast [Nat.sub_sub, show (digit w z i).toNat + 1 ≤ 2 ^ w from hlt',
    show 1 + (digit w z i).toNat ≤ 2 ^ w by omega]
  ring

/-! ## Sums and differences -/

/-- A word and what is above it are a digit and the digits above. -/
theorem digit_step {z q : ℤ} {i : ℕ} {s : BitVec w} (hz : z / (2 ^ w) ^ i = s.toNat + 2 ^ w * q) :
    s = digit w z i ∧ z / (2 ^ w) ^ (i + 1) = q := by
  have hlt := toNat_lt_int s
  constructor
  · apply eq_digit
    rw [hz, Int.add_mul_emod_self_left, Int.emod_eq_of_lt (by omega) hlt]
  · rw [ediv_succ z, hz, Int.add_mul_ediv_left _ _ (base_pos w).ne',
      Int.ediv_eq_zero_of_lt (by omega) hlt, Int.zero_add]

/-- What one step of an addition does, when `c` came from below and `c'` goes up. -/
theorem add_step {x y z c c' : ℤ} {i : ℕ} {s : BitVec w}
    (hc : z / (2 ^ w) ^ i = x / (2 ^ w) ^ i + y / (2 ^ w) ^ i + c)
    (hs : (s.toNat : ℤ) + 2 ^ w * c' = (digit w x i).toNat + (digit w y i).toNat + c) :
    s = digit w z i ∧
      z / (2 ^ w) ^ (i + 1) = x / (2 ^ w) ^ (i + 1) + y / (2 ^ w) ^ (i + 1) + c' := by
  apply digit_step
  rw [hc, ediv_eq x i, ediv_eq y i]
  linear_combination -hs

/-- The carry below the first digit. -/
theorem add_start (x y c : ℤ) :
    (x + y + c) / (2 ^ w) ^ 0 = x / (2 ^ w) ^ 0 + y / (2 ^ w) ^ 0 + c := by simp

/-- What one step of a subtraction does, when `b` was borrowed from it and it borrows `b'`. -/
theorem sub_step {x y z b b' : ℤ} {i : ℕ} {s : BitVec w}
    (hb : z / (2 ^ w) ^ i = x / (2 ^ w) ^ i - y / (2 ^ w) ^ i - b)
    (hs : (s.toNat : ℤ) - 2 ^ w * b' = (digit w x i).toNat - (digit w y i).toNat - b) :
    s = digit w z i ∧
      z / (2 ^ w) ^ (i + 1) = x / (2 ^ w) ^ (i + 1) - y / (2 ^ w) ^ (i + 1) - b' := by
  apply digit_step
  rw [hb, ediv_eq x i, ediv_eq y i]
  linear_combination -hs

theorem sub_start (x y b : ℤ) :
    (x - y - b) / (2 ^ w) ^ 0 = x / (2 ^ w) ^ 0 - y / (2 ^ w) ^ 0 - b := by simp

/-! ## Rows of a product -/

/-- What one step of adding `x * y` to `s`, from digit `k` on, does: `c` came from below and `c'`
goes up. -/
theorem mul_step {s x y z c : ℤ} {k j : ℕ}
    (hc : z / (2 ^ w) ^ k = s / (2 ^ w) ^ k + y * (x / (2 ^ w) ^ j) + c) {l : BitVec w} {c' : ℤ}
    (hl : (l.toNat : ℤ) + 2 ^ w * c' = (digit w x j).toNat * y + (digit w s k).toNat + c) :
    l = digit w z k ∧
      z / (2 ^ w) ^ (k + 1) = s / (2 ^ w) ^ (k + 1) + y * (x / (2 ^ w) ^ (j + 1)) + c' := by
  apply digit_step
  rw [hc, ediv_eq s k, ediv_eq x j]
  linear_combination -hl

/-! ## Shifts -/

/-- The `w` bits from bit `w * q + t` on, from two adjacent digits. -/
theorem toNat_funnel {z : ℤ} {q t : ℕ} (ht : t ≤ w) :
    (((digit w z q >>> t) ||| (digit w z (q + 1) <<< (w - t))).toNat : ℤ) =
      z / 2 ^ (w * q + t) % 2 ^ w := by
  have hbase : (2 : ℕ) ^ w = 2 ^ t * 2 ^ (w - t) := by rw [← pow_add]; congr 1; omega
  have hlow : (digit w z q).toNat / 2 ^ t < 2 ^ (w - t) := by
    rw [Nat.div_lt_iff_lt_mul (by positivity), Nat.mul_comm, ← hbase]
    exact (digit w z q).isLt
  have hhigh : (digit w z (q + 1)).toNat * 2 ^ (w - t) % 2 ^ w =
      ((digit w z (q + 1)).toNat % 2 ^ t) <<< (w - t) := by
    rw [Nat.shiftLeft_eq, hbase, Nat.mul_mod_mul_right]
  -- the shifted digits do not overlap, so the disjunction is a sum
  have hor : ((digit w z q >>> t) ||| (digit w z (q + 1) <<< (w - t))).toNat =
      (digit w z (q + 1)).toNat % 2 ^ t * 2 ^ (w - t) + (digit w z q).toNat / 2 ^ t := by
    rw [BitVec.toNat_or, BitVec.toNat_ushiftRight, BitVec.toNat_shiftLeft, Nat.shiftLeft_eq,
      hhigh, Nat.shiftRight_eq_div_pow, Nat.or_comm, ← Nat.shiftLeft_add_eq_or_of_lt hlow,
      Nat.shiftLeft_eq]
  rw [hor]
  have hpow : (2 : ℤ) ^ (w * q + t) = (2 ^ w) ^ q * 2 ^ t := by rw [pow_add, pow_mul]
  have hq : (0 : ℤ) ≤ (2 ^ w) ^ q := (pow_base_pos w q).le
  have hbase' : (2 : ℤ) ^ w = 2 ^ t * 2 ^ (w - t) := by exact_mod_cast hbase
  rw [hpow, ← Int.ediv_ediv_of_nonneg hq, ediv_eq z q, ediv_eq z (q + 1)]
  push_cast
  generalize hd : ((digit w z q).toNat : ℤ) = d
  generalize he : ((digit w z (q + 1)).toNat : ℤ) = e
  generalize z / (2 ^ w) ^ (q + 1 + 1) = r
  have hsplit : d + 2 ^ w * (e + 2 ^ w * r) =
      d + 2 ^ t * (2 ^ (w - t) * (e + 2 ^ w * r)) := by rw [hbase']; ring
  rw [hsplit, Int.add_mul_ediv_left _ _ (by positivity)]
  have he' := Int.emod_add_mul_ediv e (2 ^ t)
  -- what is above the bits that are taken is a multiple of the base
  have hall : d / 2 ^ t + 2 ^ (w - t) * (e + 2 ^ w * r) =
      (e % 2 ^ t * 2 ^ (w - t) + d / 2 ^ t) + 2 ^ w * (e / 2 ^ t + 2 ^ (w - t) * r) := by
    rw [hbase'] at *
    linear_combination -(2 ^ (w - t) : ℤ) * he'
  have hlow₀ : 0 ≤ d / 2 ^ t := Int.ediv_nonneg (by omega) (by positivity)
  have hlow' : d / 2 ^ t < 2 ^ (w - t) := by
    rw [← hd]
    exact_mod_cast hlow
  have hmod₀ := Int.emod_nonneg e (show (2 ^ t : ℤ) ≠ 0 by positivity)
  have hmod := Int.emod_lt_of_pos e (show (0 : ℤ) < 2 ^ t by positivity)
  have hmul₀ : 0 ≤ e % 2 ^ t * 2 ^ (w - t) := mul_nonneg hmod₀ (by positivity)
  have hmul : (e % 2 ^ t + 1) * 2 ^ (w - t) ≤ 2 ^ t * 2 ^ (w - t) :=
    mul_le_mul_of_nonneg_right (by omega) (by positivity)
  rw [← hbase'] at hmul
  rw [hall, Int.add_mul_emod_self_left]
  exact (Int.emod_eq_of_lt (by linarith) (by linarith)).symm

theorem ediv_two_pow (z : ℤ) (q t i : ℕ) :
    z / 2 ^ (w * q + t) / (2 ^ w) ^ i = z / 2 ^ (w * (q + i) + t) := by
  rw [Int.ediv_ediv_of_nonneg (by positivity), ← pow_mul, ← pow_add]
  congr 2
  ring

theorem mul_two_pow_ediv (z : ℤ) (q t j : ℕ) :
    z * 2 ^ (w * q + t) / (2 ^ w) ^ (q + j) = z * 2 ^ t / (2 ^ w) ^ j := by
  have hpow : z * 2 ^ (w * q + t) = (2 ^ w) ^ q * (z * 2 ^ t) := by rw [pow_add, pow_mul]; ring
  rw [hpow, pow_add, Int.mul_ediv_mul_of_pos _ _ (pow_base_pos w q)]

/-- A digit of the quotient by a power of two. -/
theorem digit_shiftRight {t : ℕ} (ht : t ≤ w) (z : ℤ) (q i : ℕ) :
    digit w (z / 2 ^ (w * q + t)) i =
      (digit w z (q + i) >>> t) ||| (digit w z (q + i + 1) <<< (w - t)) := by
  symm
  apply eq_digit
  rw [toNat_funnel ht, ediv_two_pow]

/-- The digits of the product with a power of two: none below the shift, -/
theorem digit_shiftLeft_below (z : ℤ) {q i : ℕ} (t : ℕ) (h : i < q) :
    digit w (z * 2 ^ (w * q + t)) i = 0 := by
  symm
  apply eq_digit
  obtain ⟨j, rfl⟩ : ∃ j, q = i + (j + 1) := ⟨q - i - 1, by omega⟩
  have hpow : z * 2 ^ (w * (i + (j + 1)) + t) = (2 ^ w) ^ i * (2 ^ w * (2 ^ (w * j + t) * z)) := by
    rw [← pow_mul]
    ring
  rw [hpow, Int.mul_ediv_cancel_left _ (pow_base_pos w i).ne', Int.mul_emod_right]
  rfl

/-- the low bits of the first digit at the shift, -/
theorem digit_shiftLeft_start (z : ℤ) (q t : ℕ) :
    digit w (z * 2 ^ (w * q + t)) q = digit w z 0 <<< t := by
  symm
  apply eq_digit
  have hediv := mul_two_pow_ediv (w := w) z q t 0
  have hd := toNat_digit (w := w) z 0
  rw [Nat.add_zero] at hediv
  rw [pow_zero, Int.ediv_one] at hd hediv
  rw [hediv, BitVec.toNat_shiftLeft, Nat.shiftLeft_eq]
  push_cast
  rw [hd, Int.mul_emod, Int.emod_emod, ← Int.mul_emod]

/-- and two adjacent digits above it. -/
theorem digit_shiftLeft_above {t : ℕ} (ht : t ≤ w) (z : ℤ) (q j : ℕ) :
    digit w (z * 2 ^ (w * q + t)) (q + (j + 1)) =
      (digit w z j >>> (w - t)) ||| (digit w z (j + 1) <<< t) := by
  symm
  apply eq_digit
  have hfunnel := toNat_funnel (z := z) (q := j) (show w - t ≤ w by omega)
  rw [Nat.sub_sub_self ht] at hfunnel
  have hpow : ((2 : ℤ) ^ w) ^ (j + 1) = 2 ^ (w * j + (w - t)) * 2 ^ t := by
    rw [← pow_mul, ← pow_add]
    congr 1
    rw [Nat.mul_add]
    omega
  rw [hfunnel, mul_two_pow_ediv, hpow, Int.mul_ediv_mul_of_pos_left _ _ (by positivity)]

/-! ## Lists of digits -/

/-- The word at an index, zero beyond the end, is the digit of the value. -/
theorem digit_value (l : List (BitVec w)) (i : ℕ) : digit w (value l) i = l.getD i 0 := by
  symm
  apply eq_digit
  induction l generalizing i with
  | nil => simp
  | cons x l ih =>
      have hx := toNat_lt_int x
      cases i with
      | zero =>
          rw [value_cons]
          push_cast
          rw [pow_zero, Int.ediv_one, Int.add_mul_emod_self_left, Int.emod_eq_of_lt (by omega) hx]
          rfl
      | succ i =>
          rw [List.getD_cons_succ, ih i, value_cons, pow_succ',
            ← Int.ediv_ediv_of_nonneg (base_pos w).le]
          push_cast
          rw [Int.add_mul_ediv_left _ _ (base_pos w).ne', Int.ediv_eq_zero_of_lt (by omega) hx,
            Int.zero_add]

/-- Another word at one index. -/
theorem value_set {l : List (BitVec w)} {i : ℕ} (hi : i < l.length) (v : BitVec w) :
    value (l.set i v) + (2 ^ w) ^ i * (l.getD i 0).toNat = value l + (2 ^ w) ^ i * v.toNat := by
  induction l generalizing i with
  | nil => exact absurd hi (Nat.not_lt_zero i)
  | cons x l ih =>
      cases i with
      | zero =>
          rw [List.set_cons_zero, List.getD_cons_zero, value_cons, value_cons]
          ring
      | succ i =>
          have hrest := ih (Nat.lt_of_succ_lt_succ hi)
          rw [List.set_cons_succ, List.getD_cons_succ, value_cons, value_cons, pow_succ]
          linear_combination 2 ^ w * hrest

/-- The word at an index, as a number. -/
theorem toNat_getD (l : List (BitVec w)) (i : ℕ) :
    (l.getD i 0).toNat = value l / (2 ^ w) ^ i % 2 ^ w := by
  have hdigit := toNat_digit (w := w) (value l) i
  rw [digit_value] at hdigit
  exact_mod_cast hdigit

/-- A word that is added above all bits of a number. -/
theorem value_set_or {l : List (BitVec w)} {j : ℕ} {v : BitVec w} (hlt : value l < 2 ^ j)
    (hj : j / w < l.length) (hv : v.toNat * 2 ^ (j % w) < 2 ^ w) :
    value (l.set (j / w) (l.getD (j / w) 0 ||| v <<< (j % w))) = value l + v.toNat * 2 ^ j := by
  have hset := value_set hj (l.getD (j / w) 0 ||| v <<< (j % w))
  have hpow : 2 ^ j = (2 ^ w) ^ (j / w) * 2 ^ (j % w) := by
    rw [← pow_mul, ← pow_add, Nat.div_add_mod]
  have hlow : (l.getD (j / w) 0).toNat < 2 ^ (j % w) := by
    rw [toNat_getD]
    apply (Nat.mod_le _ _).trans_lt
    rwa [Nat.div_lt_iff_lt_mul (by positivity), Nat.mul_comm, ← hpow]
  have hor : (l.getD (j / w) 0 ||| v <<< (j % w)).toNat =
      (l.getD (j / w) 0).toNat + v.toNat * 2 ^ (j % w) := by
    rw [BitVec.toNat_or, BitVec.toNat_shiftLeft, Nat.shiftLeft_eq, Nat.mod_eq_of_lt hv,
      ← Nat.shiftLeft_eq, Nat.or_comm, ← Nat.shiftLeft_add_eq_or_of_lt hlow, Nat.add_comm]
  rw [hor, Nat.mul_add] at hset
  rw [hpow]
  linarith

/-- The first `n` digits. -/
def digits (w n : ℕ) (z : ℤ) : List (BitVec w) := (List.range n).map (digit w z)

@[simp] theorem length_digits (n : ℕ) (z : ℤ) : (digits w n z).length = n := by simp [digits]

theorem digits_succ (n : ℕ) (z : ℤ) : digits w (n + 1) z = digits w n z ++ [digit w z n] := by
  rw [digits, List.range_succ, List.map_append]
  rfl

theorem emod_succ (z : ℤ) (n : ℕ) :
    z % (2 ^ w) ^ (n + 1) = z % (2 ^ w) ^ n + (2 ^ w) ^ n * (digit w z n).toNat := by
  have h₁ := Int.emod_add_mul_ediv z ((2 ^ w) ^ n)
  have h₂ := Int.emod_add_mul_ediv z ((2 ^ w) ^ (n + 1))
  rw [ediv_eq z n] at h₁
  have hpow : ((2 : ℤ) ^ w) ^ (n + 1) = (2 ^ w) ^ n * 2 ^ w := pow_succ _ n
  linear_combination h₂ - h₁ - z / (2 ^ w) ^ (n + 1) * hpow

theorem value_digits (n : ℕ) (z : ℤ) : (value (digits w n z) : ℤ) = z % (2 ^ w) ^ n := by
  induction n with
  | zero => simp [digits]
  | succ n ih =>
      rw [digits_succ, value_append, length_digits, emod_succ]
      push_cast
      rw [ih, value_cons, value_nil]
      push_cast
      ring

/-! ## Integers with the same digits -/

/-- What is above the low digits of a number. -/
theorem emod_add_mul_ediv (z t : ℤ) (m : ℕ) :
    (z % (2 ^ w) ^ m + (2 ^ w) ^ m * t) / (2 ^ w) ^ m = t := by
  have hpos := pow_base_pos w m
  rw [Int.add_mul_ediv_left _ _ hpos.ne', Int.ediv_eq_zero_of_lt (Int.emod_nonneg z hpos.ne')
    (Int.emod_lt_of_pos z hpos), Int.zero_add]

/-- A digit only depends on the integer modulo a power of the base above it. -/
theorem digit_congr {z z' : ℤ} {i : ℕ} (h : z % (2 ^ w) ^ (i + 1) = z' % (2 ^ w) ^ (i + 1)) :
    digit w z i = digit w z' i := by
  have hquot (z : ℤ) : z % (2 ^ w) ^ (i + 1) / (2 ^ w) ^ i = (digit w z i).toNat := by
    rw [emod_succ, emod_add_mul_ediv]
  apply BitVec.eq_of_toNat_eq
  have := congrArg (· / ((2 : ℤ) ^ w) ^ i) h
  simp only [hquot] at this
  exact_mod_cast this

/-- Digits below a number of bits only depend on the integer modulo that power of two. -/
theorem digit_congr_of_emod {z z' : ℤ} {bits i : ℕ} (h : z % 2 ^ bits = z' % 2 ^ bits)
    (hi : w * (i + 1) ≤ bits) : digit w z i = digit w z' i := by
  apply digit_congr
  have hdvd : ((2 : ℤ) ^ w) ^ (i + 1) ∣ 2 ^ bits := by
    rw [← pow_mul]
    exact pow_dvd_pow 2 hi
  rw [← Int.emod_emod_of_dvd z hdvd, h, Int.emod_emod_of_dvd z' hdvd]

theorem digit_emod_add_mul_of_lt (z t : ℤ) {m i : ℕ} (hi : i < m) :
    digit w (z % (2 ^ w) ^ m + (2 ^ w) ^ m * t) i = digit w z i := by
  refine digit_congr_of_emod ?_ (Nat.mul_le_mul_left w hi)
  rw [pow_mul, Int.add_mul_emod_self_left, Int.emod_emod]

theorem digit_emod_add_mul (z t : ℤ) (m k : ℕ) :
    digit w (z % (2 ^ w) ^ m + (2 ^ w) ^ m * t) (m + k) = digit w t k := by
  rw [digit, pow_add, ← Int.ediv_ediv_of_nonneg (pow_base_pos w m).le, emod_add_mul_ediv]
  rfl

theorem emod_congr {z z' : ℤ} {n : ℕ} (h : ∀ i < n, digit w z i = digit w z' i) :
    z % (2 ^ w) ^ n = z' % (2 ^ w) ^ n := by
  rw [← value_digits, ← value_digits]
  congr 2
  exact List.map_congr_left fun i hi => h i (List.mem_range.mp hi)

/-- Some digits and the low bits of the next one. -/
theorem emod_bits (z : ℤ) (m : ℕ) {r : ℕ} (hr : r ≤ w) :
    z % 2 ^ (w * m + r) = z % (2 ^ w) ^ m + (2 ^ w) ^ m * ((digit w z m).toNat % 2 ^ r) := by
  have hbase : (2 : ℤ) ^ w = 2 ^ r * 2 ^ (w - r) := by rw [← pow_add]; congr 1; omega
  have hpow : (2 : ℤ) ^ (w * m + r) = (2 ^ w) ^ m * 2 ^ r := by rw [pow_add, pow_mul]
  have hz := Int.emod_add_mul_ediv z ((2 ^ w) ^ m)
  have hd := Int.emod_add_mul_ediv ((digit w z m).toNat : ℤ) (2 ^ r)
  rw [ediv_eq z m] at hz
  have hsplit : z = (z % (2 ^ w) ^ m + (2 ^ w) ^ m * ((digit w z m).toNat % 2 ^ r)) +
      2 ^ (w * m + r) * ((digit w z m).toNat / 2 ^ r +
        2 ^ (w - r) * (z / (2 ^ w) ^ (m + 1))) := by
    rw [hpow]
    linear_combination -hz - (2 ^ w) ^ m * hd +
      (2 ^ w) ^ m * (z / (2 ^ w) ^ (m + 1)) * hbase
  have hpos := pow_base_pos w m
  have hlow := Int.emod_nonneg z hpos.ne'
  have hlt := Int.emod_lt_of_pos z hpos
  have hbit := Int.emod_nonneg ((digit w z m).toNat : ℤ) (show (2 ^ r : ℤ) ≠ 0 by positivity)
  have hbitlt := Int.emod_lt_of_pos ((digit w z m).toNat : ℤ) (show (0 : ℤ) < 2 ^ r by positivity)
  have hmul : (2 ^ w) ^ m * ((digit w z m).toNat % 2 ^ r + 1 : ℤ) ≤ (2 ^ w) ^ m * 2 ^ r :=
    mul_le_mul_of_nonneg_left (by omega) hpos.le
  have hmul₀ : 0 ≤ (2 ^ w) ^ m * ((digit w z m).toNat % 2 ^ r : ℤ) := mul_nonneg hpos.le hbit
  have hmod := congrArg (· % (2 : ℤ) ^ (w * m + r)) hsplit
  simp only [Int.add_mul_emod_self_left] at hmod
  rw [hmod, Int.emod_eq_of_lt (by linarith)]
  rw [hpow]
  linarith

theorem ediv_of_lt {z : ℤ} {i n : ℕ} (h₀ : 0 ≤ z) (h : z < (2 ^ w) ^ n) (hi : n ≤ i) :
    z / (2 ^ w) ^ i = 0 := by
  have hle : ((2 : ℤ) ^ w) ^ n ≤ (2 ^ w) ^ i := pow_le_pow_right₀ (by
    have := base_pos w
    omega) hi
  exact Int.ediv_eq_zero_of_lt h₀ (by linarith)

theorem digit_of_lt {z : ℤ} {i n : ℕ} (h₀ : 0 ≤ z) (h : z < (2 ^ w) ^ n) (hi : n ≤ i) :
    digit w z i = 0 := by
  rw [digit, ediv_of_lt h₀ h hi]
  rfl

theorem ediv_of_neg {z : ℤ} {i : ℕ} (h₀ : z < 0) (h : -(2 ^ w) ^ i ≤ z) : z / (2 ^ w) ^ i = -1 := by
  have hpos := pow_base_pos w i
  have hz : z = (z + (2 ^ w) ^ i) + (2 ^ w) ^ i * (-1) := by ring
  rw [hz, Int.add_mul_ediv_left _ _ hpos.ne', Int.ediv_eq_zero_of_lt (by linarith) (by linarith)]
  rfl

theorem digit_of_neg {z : ℤ} {i n : ℕ} (h₀ : z < 0) (h : -(2 ^ w) ^ n ≤ z) (hi : n ≤ i) :
    digit w z i = BitVec.allOnes w := by
  have hle : ((2 : ℤ) ^ w) ^ n ≤ (2 ^ w) ^ i := pow_le_pow_right₀ (by
    have := base_pos w
    omega) hi
  rw [digit, ediv_of_neg h₀ (by linarith), ← digit_neg_one (w := w) 0, digit, neg_one_ediv]

/-! ## Powers of two -/

theorem getLsbD_digit (n i j : ℕ) :
    (digit w n i).getLsbD j = (decide (j < w) && n.testBit (w * i + j)) := by
  have hdigit : digit w n i = BitVec.ofNat w (n / 2 ^ (w * i)) := by
    apply BitVec.eq_of_toNat_eq
    have htoNat := toNat_digit (w := w) n i
    rw [BitVec.toNat_ofNat, pow_mul]
    exact_mod_cast htoNat
  rw [hdigit, BitVec.getLsbD_ofNat, Nat.testBit_div_two_pow, Nat.add_comm]

/-- A digit is made of smaller ones. -/
theorem digit_cut {q j : ℕ} (hj : j < q) (n i : ℕ) :
    (digit (w * q) n i >>> (w * j)).setWidth w = digit w n (i * q + j) := by
  apply BitVec.eq_of_getLsbD_eq
  intro b hb
  have hplace : w * q * i + (w * j + b) = w * (i * q + j) + b := by ring
  have hin : w * j + b < w * q := by nlinarith
  rw [BitVec.getLsbD_setWidth, BitVec.getLsbD_ushiftRight, getLsbD_digit, getLsbD_digit, hplace]
  simp [hb, hin]

/-- A digit shifted to its place in a larger one. -/
theorem getLsbD_place (q n i j b : ℕ) :
    ((digit w n (i * q + j)).setWidth (w * q) <<< (j * w)).getLsbD b =
      (decide (j * w ≤ b ∧ b < (j + 1) * w) && (digit (w * q) n i).getLsbD b) := by
  rw [BitVec.getLsbD_shiftLeft, BitVec.getLsbD_setWidth, getLsbD_digit, getLsbD_digit]
  by_cases hlow : j * w ≤ b
  · have hplace : w * (i * q + j) + (b - j * w) = w * q * i + b := by
      obtain ⟨c, rfl⟩ := Nat.exists_eq_add_of_le hlow
      rw [Nat.add_sub_cancel_left]
      ring
    have hup : b - j * w < w ↔ b < (j + 1) * w := by
      rw [Nat.add_one_mul]
      omega
    rw [hplace]
    by_cases hb : b < w * q
    · have hb' : b - j * w < w * q := by omega
      simp [hlow, hup, hb, hb']
    · simp [hb]
  · simp [hlow, Nat.not_le.mp hlow]

end Hmpc.Lib.Digits
