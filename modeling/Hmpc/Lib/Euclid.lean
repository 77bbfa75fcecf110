/-
# Hmpc.Lib.Euclid -- Euclid's algorithm with coefficients that have no sign

The coefficients of two successive remainders have opposite signs, which change in every step. So
it is enough to keep their magnitudes and the parity of the steps, and both magnitudes only grow:
what they grow to is a divisor of the other operand.
-/
import Mathlib.Algebra.Order.Ring.Int
import Mathlib.Tactic.Linarith
import Mathlib.Tactic.LinearCombination
import Mathlib.Tactic.Ring

namespace Hmpc.Lib.Euclid

structure State where
  oldR : ℕ
  r : ℕ
  oldS : ℕ
  s : ℕ
  oldT : ℕ
  t : ℕ
  iteration : Bool

namespace State

def start (left right : ℕ) : State := ⟨left, right, 1, 0, 0, 1, false⟩

/-- A division step. -/
def next (σ : State) : State :=
  let q := σ.oldR / σ.r
  ⟨σ.r, σ.oldR % σ.r, σ.s, σ.oldS + q * σ.s, σ.t, σ.oldT + q * σ.t, !σ.iteration⟩

/-- The sign of the coefficient of the left operand in the older remainder. -/
def sign (σ : State) : ℤ := if σ.iteration then -1 else 1

/-- What the coefficients mean, and how large they are. -/
structure Invariant (left right : ℕ) (σ : State) : Prop where
  oldR_eq : (σ.oldR : ℤ) = σ.sign * (σ.oldS * left - σ.oldT * right)
  r_eq : (σ.r : ℤ) = σ.sign * (σ.t * right - σ.s * left)
  right_eq : σ.oldR * σ.s + σ.r * σ.oldS = right
  left_eq : σ.oldR * σ.t + σ.r * σ.oldT = left
  s_le : σ.s ≤ right
  oldS_le : σ.oldS ≤ right
  t_le : σ.t ≤ left
  oldT_le : σ.oldT ≤ left
  gcd_eq : Nat.gcd σ.oldR σ.r = Nat.gcd left right

variable {left right : ℕ} {σ : State}

theorem invariant_start (hleft : 0 < left) (hright : 0 < right) :
    Invariant left right (start left right) where
  oldR_eq := by simp [start, sign]
  r_eq := by simp [start, sign]
  right_eq := by simp [start]
  left_eq := by simp [start]
  s_le := Nat.zero_le _
  oldS_le := hright
  t_le := hleft
  oldT_le := Nat.zero_le _
  gcd_eq := rfl

theorem sign_next : σ.next.sign = -σ.sign := by
  cases h : σ.iteration <;> simp [next, sign, h]

theorem Invariant.next (h : σ.Invariant left right) (hr : 0 < σ.r) :
    σ.next.Invariant left right := by
  have hparts : σ.oldR % σ.r + σ.r * (σ.oldR / σ.r) = σ.oldR := Nat.mod_add_div _ _
  have hparts' : ((σ.oldR % σ.r : ℕ) : ℤ) = σ.oldR - σ.r * (σ.oldR / σ.r : ℕ) := by
    rw [eq_sub_iff_add_eq]
    -- the new coefficients change sides, and with them the sign
    exact_mod_cast hparts
  have hright : σ.r * (σ.oldS + σ.oldR / σ.r * σ.s) + σ.oldR % σ.r * σ.s = right := by
    rw [← h.right_eq]
    nth_rewrite 3 [← hparts]
    ring
  have hleft : σ.r * (σ.oldT + σ.oldR / σ.r * σ.t) + σ.oldR % σ.r * σ.t = left := by
    rw [← h.left_eq]
    nth_rewrite 3 [← hparts]
    ring
  have holdR := h.oldR_eq
  have hr' := h.r_eq
  exact
    { oldR_eq := by
        rw [sign_next]
        show (σ.r : ℤ) = -σ.sign * (σ.s * left - σ.t * right)
        rw [hr']
        ring
      r_eq := by
        rw [sign_next]
        show ((σ.oldR % σ.r : ℕ) : ℤ) = -σ.sign *
          ((σ.oldT + σ.oldR / σ.r * σ.t : ℕ) * right - (σ.oldS + σ.oldR / σ.r * σ.s : ℕ) * left)
        rw [hparts']
        push_cast
        linear_combination holdR - (σ.oldR / σ.r : ℤ) * hr'
      right_eq := hright
      left_eq := hleft
      s_le := (Nat.le_mul_of_pos_left _ hr).trans (Nat.le_of_add_right_le hright.le)
      oldS_le := h.s_le
      t_le := (Nat.le_mul_of_pos_left _ hr).trans (Nat.le_of_add_right_le hleft.le)
      oldT_le := h.t_le
      gcd_eq := by
        show Nat.gcd σ.r (σ.oldR % σ.r) = Nat.gcd left right
        rw [← h.gcd_eq, Nat.gcd_comm σ.r, ← Nat.gcd_rec, Nat.gcd_comm] }

/-- At the end the older remainder is the greatest common divisor. -/
theorem Invariant.oldR_gcd (h : σ.Invariant left right) (hr : σ.r = 0) :
    σ.oldR = Nat.gcd left right := by
  rw [← h.gcd_eq, hr, Nat.gcd_zero_right]

/-- The coefficient of the left operand, made positive. -/
def leftCoefficient (right : ℕ) (σ : State) : ℕ :=
  if σ.iteration then right - σ.oldS else σ.oldS

theorem Invariant.leftCoefficient_le (h : σ.Invariant left right) :
    σ.leftCoefficient right ≤ right := by
  have holdS := h.oldS_le
  unfold leftCoefficient
  split_ifs <;> omega

theorem Invariant.leftCoefficient_mul (h : σ.Invariant left right) :
    (right : ℤ) ∣ σ.leftCoefficient right * left - σ.oldR := by
  have holdR := h.oldR_eq
  unfold leftCoefficient
  split_ifs with hodd
  · rw [sign, if_pos hodd] at holdR
    rw [Nat.cast_sub h.oldS_le, holdR]
    exact ⟨left - σ.oldT, by ring⟩
  · rw [sign, if_neg hodd] at holdR
    rw [holdR]
    exact ⟨σ.oldT, by ring⟩

/-- The coefficient of the right operand, made positive. -/
def rightCoefficient (left : ℕ) (σ : State) : ℕ :=
  if σ.iteration then σ.oldT else left - σ.oldT

theorem Invariant.rightCoefficient_le (h : σ.Invariant left right) :
    σ.rightCoefficient left ≤ left := by
  have holdT := h.oldT_le
  unfold rightCoefficient
  split_ifs <;> omega

theorem Invariant.rightCoefficient_mul (h : σ.Invariant left right) :
    (left : ℤ) ∣ σ.rightCoefficient left * right - σ.oldR := by
  have holdR := h.oldR_eq
  unfold rightCoefficient
  split_ifs with hodd
  · rw [sign, if_pos hodd] at holdR
    rw [holdR]
    exact ⟨σ.oldS, by ring⟩
  · rw [sign, if_neg hodd] at holdR
    rw [Nat.cast_sub h.oldT_le, holdR]
    exact ⟨right - σ.oldS, by ring⟩

/-- The states of a run. -/
inductive Reached (left right : ℕ) : State → Prop
  | start : Reached left right (start left right)
  | next {σ : State} (h : Reached left right σ) (hr : 0 < σ.r) : Reached left right σ.next

theorem Reached.invariant (hleft : 0 < left) (hright : 0 < right) (h : Reached left right σ) :
    σ.Invariant left right := by
  induction h with
  | start => exact invariant_start hleft hright
  | next _ hr ih => exact ih.next hr

end State

end Hmpc.Lib.Euclid
