/-
# Hmpc.Core.GreatestCommonDivisor -- Euclid's algorithm at compile time

The extended algorithm of `hmpc::core::num`, on numbers like the division it uses. All of its
arrays have the bits of the wider operand, so every step has to show that nothing is cut off.
-/
import Hmpc.Core.Divide
import Hmpc.Lib.Euclid

namespace Hmpc.Core

open Hmpc.Lib.Euclid

namespace Compiletime

/-- The loop of `extended_euclidean`, with a bound on its steps. The remainder is written over
`old_r`, before the two are swapped. -/
def extendedEuclideanLoop (w width : ℕ) : ℕ → State → Option State
  | 0, _ => none
  | steps + 1, σ =>
    if σ.r = 0 then some σ
    else do
      let array := compiletimeArray width
      let (q, oldR) ← divide w array array σ.oldR σ.r
      let oldS := array.kept w (σ.oldS + array.kept w (q * σ.s : ℕ) : ℕ)
      let oldT := array.kept w (σ.oldT + array.kept w (q * σ.t : ℕ) : ℕ)
      extendedEuclideanLoop w width steps
        ⟨σ.r, oldR, σ.s, oldS, σ.t, oldT, !σ.iteration⟩

/-- `extended_euclidean(result, left_result, right_result, left, right)`, for operands of
`leftBits` and `rightBits` bits. -/
def extendedEuclidean (w : ℕ) (result leftResult rightResult : SpanType) (leftBits rightBits : ℕ)
    (left right : ℕ) : Option (ℕ × ℕ × ℕ) := do
  let width := max leftBits rightBits
  let array := compiletimeArray width
  let oldR := array.kept w left
  let r := array.kept w right
  let σ ← extendedEuclideanLoop w width (r + 1) ⟨oldR, r, 1, 0, 0, 1, false⟩
  let oldS := if σ.iteration then array.kept w ((right : ℤ) - σ.oldS) else σ.oldS
  let oldT := if σ.iteration then σ.oldT else array.kept w ((left : ℤ) - σ.oldT)
  return (result.kept w σ.oldR, leftResult.kept w oldS, rightResult.kept w oldT)

/-- `compiletime_nullspan` -/
def nullType : SpanType := ⟨0, .unsigned, .unnormal⟩

/-- `invert_modulo(value, modulus)`, for operands of `bits` and `modulusBits` bits -/
def invertModulo (w : ℕ) (normalization : Normalization) (bits modulusBits value modulus : ℕ) :
    Option ℕ := do
  let (greatestCommonDivisor, inverse, _) ← extendedEuclidean w
    ⟨max bits modulusBits, .unsigned, normalization⟩ ⟨modulusBits, .unsigned, normalization⟩
    nullType bits modulusBits value modulus
  if greatestCommonDivisor = 1 then some inverse else none

example : invertModulo 8 .normal 16 9 40961 256 = some 1 := by decide +kernel

example : invertModulo 8 .normal 16 9 40963 256 = some 171 := by decide +kernel

section

variable {w : ℕ} [NeZero w] {width left right : ℕ} {σ : State}

/-- A step of the loop is a division step. -/
theorem extendedEuclideanLoop_succ (h : σ.Invariant left right) (hr : 0 < σ.r)
    (holdR : σ.oldR < 2 ^ width) (hrwidth : σ.r < 2 ^ width) (hleft : left < 2 ^ width)
    (hright : right < 2 ^ width) (steps : ℕ) :
    extendedEuclideanLoop w width (steps + 1) σ = extendedEuclideanLoop w width steps σ.next := by
  have hnext := h.next hr
  have hs := hnext.s_le
  have ht := hnext.t_le
  have hdivide := @divide_eq w _ _ _ (compiletimeArray width)
    (compiletimeArray width) hr ((Nat.div_le_self _ _).trans_lt holdR)
    ((Nat.mod_lt σ.oldR hr).trans hrwidth)
  have hkept {x : ℕ} (hx : x < 2 ^ width) : (compiletimeArray width).kept w x = x := kept_of_lt hx
  unfold State.next at hs ht ⊢
  dsimp only at hs ht ⊢
  rw [extendedEuclideanLoop, if_neg hr.ne']
  simp only [hdivide, Option.bind_eq_bind, Option.bind_some]
  rw [hkept (by omega : σ.oldR / σ.r * σ.s < 2 ^ width), hkept (hs.trans_lt hright),
    hkept (by omega : σ.oldR / σ.r * σ.t < 2 ^ width), hkept (ht.trans_lt hleft)]

/-- The loop ends with the greatest common divisor. -/
theorem extendedEuclideanLoop_eq (hleft : left < 2 ^ width) (hright : right < 2 ^ width)
    {steps : ℕ} (hsteps : σ.r < steps) (holdR : σ.oldR < 2 ^ width) (hr : σ.r < 2 ^ width)
    (h : σ.Invariant left right) :
    ∃ σ', extendedEuclideanLoop w width steps σ = some σ' ∧ σ'.Invariant left right ∧
      σ'.r = 0 := by
  induction steps generalizing σ with
  | zero => omega
  | succ steps ih =>
      rcases Nat.eq_zero_or_pos σ.r with hzero | hpos
      · refine ⟨σ, ?_, h, hzero⟩
        rw [extendedEuclideanLoop, if_pos hzero]
      · have hlt : σ.next.r < σ.r := Nat.mod_lt _ hpos
        rw [extendedEuclideanLoop_succ h hpos holdR hr hleft hright]
        exact ih (by omega) hr (hlt.trans hr) (h.next hpos)

/-- **The extended algorithm.** It returns the greatest common divisor and a coefficient of the
left operand that is not above the right one. -/
theorem extendedEuclidean_eq {result leftResult rightResult : SpanType} {leftBits rightBits : ℕ}
    (hleft₀ : 0 < left) (hright₀ : 0 < right) (hleft : left < 2 ^ leftBits)
    (hright : right < 2 ^ rightBits) :
    ∃ coefficient ≤ right, ∃ other,
      extendedEuclidean w result leftResult rightResult leftBits rightBits left right =
        some (result.kept w (Nat.gcd left right : ℕ), leftResult.kept w coefficient, other) ∧
      (right : ℤ) ∣ coefficient * left - Nat.gcd left right := by
  generalize hwidth : max leftBits rightBits = width
  have hl : left < 2 ^ width :=
    hleft.trans_le (Nat.pow_le_pow_right two_pos (by omega))
  have hr : right < 2 ^ width :=
    hright.trans_le (Nat.pow_le_pow_right two_pos (by omega))
  have hkept {x : ℕ} (hx : x < 2 ^ width) : (compiletimeArray width).kept w x = x := kept_of_lt hx
  obtain ⟨σ, hloop, hinvariant, hend⟩ := extendedEuclideanLoop_eq (w := w) hl hr
    (Nat.lt_succ_self right) hl hr (State.invariant_start hleft₀ hright₀)
  have hle := hinvariant.leftCoefficient_le
  have hmul := hinvariant.leftCoefficient_mul
  rw [hinvariant.oldR_gcd hend] at hmul
  -- in every other iteration the coefficient is negative, and is returned as a difference
  have hcoefficient : (if σ.iteration then (compiletimeArray width).kept w ((right : ℤ) - σ.oldS)
      else σ.oldS) = σ.leftCoefficient right := by
    unfold State.leftCoefficient
    split_ifs
    · rw [← Nat.cast_sub hinvariant.oldS_le, hkept ((Nat.sub_le _ _).trans_lt hr)]
    · rfl
  refine ⟨σ.leftCoefficient right, hle, rightResult.kept w (if σ.iteration then σ.oldT
    else (compiletimeArray width).kept w ((left : ℤ) - σ.oldT) : ℕ), ?_, hmul⟩
  rw [extendedEuclidean]
  simp only [hwidth, hkept hl, hkept hr]
  have hstart : (⟨left, right, 1, 0, 0, 1, false⟩ : State) = State.start left right := rfl
  rw [hstart, hloop]
  simp only [Option.bind_eq_bind, Option.bind_some, hcoefficient, hinvariant.oldR_gcd hend]
  rfl

theorem invertModulo_eq {normalization : Normalization} {bits modulusBits value modulus : ℕ}
    (hvalue₀ : 0 < value) (hmodulus₀ : 0 < modulus) (hvalue : value < 2 ^ bits)
    (hmodulus : modulus < 2 ^ modulusBits) (hcoprime : Nat.Coprime value modulus) :
    ∃ inverse ≤ modulus,
      invertModulo w normalization bits modulusBits value modulus = some inverse ∧
      (modulus : ℤ) ∣ inverse * value - 1 := by
  obtain ⟨inverse, hle, other, heq, hdvd⟩ := @extendedEuclidean_eq w _ _ _
    ⟨max bits modulusBits, .unsigned, normalization⟩
    ⟨modulusBits, .unsigned, normalization⟩ nullType _ _ hvalue₀
    hmodulus₀ hvalue hmodulus
  have hgcd : Nat.gcd value modulus = 1 := hcoprime
  have hwidth : 1 < 2 ^ max bits modulusBits := by
    apply Nat.one_lt_two_pow
    intro hzero
    have hbits : bits = 0 := by omega
    rw [hbits, pow_zero] at hvalue
    omega
  rw [hgcd, kept_of_lt hwidth, kept_of_lt (hle.trans_lt hmodulus)] at heq
  refine ⟨inverse, hle, ?_, ?_⟩
  · rw [invertModulo, heq]
    rfl
  · rwa [hgcd, Nat.cast_one] at hdvd

end

end Compiletime

end Hmpc.Core
