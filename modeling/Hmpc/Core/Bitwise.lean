/-
# Hmpc.Core.Bitwise -- bitwise functions on spans

`bit_and`, `bit_or` and `bit_xor` of spans are the functions on limbs, index by index.
-/
import Hmpc.Core.Num

namespace Hmpc.Core

open Hmpc.Lib.Loops Hmpc.Lib.Limbs Hmpc.Lib.Digits MaybeConstant SpanType

variable {w : ℕ}

/-- `bit_xor(left, right)` -/
def bitXor (left right : MaybeConstant (BitVec w)) : MaybeConstant (BitVec w) :=
  if left.isConstant && right.isConstant then constant (left.value ^^^ right.value)
  else if left.isConstant then
    if left.value = 0 then right
    else if left.value = BitVec.allOnes w then runtime (~~~right.value)
    else runtime (left.value ^^^ right.value)
  else if right.isConstant then
    if right.value = 0 then left
    else if right.value = BitVec.allOnes w then runtime (~~~left.value)
    else runtime (left.value ^^^ right.value)
  else runtime (left.value ^^^ right.value)

@[simp] theorem value_bitXor (left right : MaybeConstant (BitVec w)) :
    (bitXor left right).value = left.value ^^^ right.value := by
  unfold bitXor
  split_ifs with h₁ h₂ h₃ h₄ h₅ h₆ h₇
  · rfl
  · simp [h₃]
  · rw [h₄, BitVec.allOnes_xor]
    rfl
  · rfl
  · simp [h₆]
  · rw [h₇, BitVec.xor_allOnes]
    rfl
  · rfl
  · rfl

namespace Num

/-! ## Functions on limbs of one index -/

/-- The loop of `bit_and`, `bit_or` and `bit_xor`. -/
def bitwise (function : MaybeConstant (BitVec w) → MaybeConstant (BitVec w) →
    MaybeConstant (BitVec w)) (t : SpanType) (left right : Source w) (result : List (BitVec w)) :
    List (BitVec w) :=
  scanRange (t.limbSize w) (fun i l =>
    t.write i (function ((left l).read i) ((right l).read i)).value t.normalType l) result

/-- `bit_and(result, left, right)` -/
def bitAnd (t : SpanType) (left right : Source w) (result : List (BitVec w)) : List (BitVec w) :=
  bitwise Core.bitAnd t left right result

/-- `bit_or(result, left, right)` -/
def bitOr (t : SpanType) (left right : Source w) (result : List (BitVec w)) : List (BitVec w) :=
  bitwise Core.bitOr t left right result

/-- `bit_xor(result, left, right)` -/
def bitXor (t : SpanType) (left right : Source w) (result : List (BitVec w)) : List (BitVec w) :=
  scanRange (t.limbSize w) (fun i l =>
    t.write i (((left l).read i).value ^^^ ((right l).read i).value) t.normalType l) result

@[simp] theorem length_bitwise (function : MaybeConstant (BitVec w) → MaybeConstant (BitVec w) →
    MaybeConstant (BitVec w)) (t : SpanType) (left right : Source w) (result : List (BitVec w)) :
    (bitwise function t left right result).length = result.length :=
  scanRange_keeps (fun _ _ => t.length_write _ _ _ _) _ result

/-- What depends on the values of limbs alone. -/
theorem bitXor_eq_bitwise (t : SpanType) (left right : Source w) (result : List (BitVec w)) :
    bitXor t left right result = bitwise Core.bitXor t left right result := by
  unfold bitXor bitwise
  simp only [value_bitXor]

@[simp] theorem length_bitXor (t : SpanType) (left right : Source w) (result : List (BitVec w)) :
    (bitXor t left right result).length = result.length := by
  rw [bitXor_eq_bitwise]
  exact length_bitwise _ t left right result

/-- A limb of the result, whose operands are not part of it. -/
theorem getD_bitXor (t : SpanType) (left right : Span w) {result : List (BitVec w)}
    (hlen : result.length = t.limbSize w) {i : ℕ} (hi : i < t.limbSize w) :
    (bitXor t left.source right.source result).getD i 0 =
      t.stored i ((left.read i).value ^^^ (right.read i).value) t.normalType := by
  have hscan : (bitXor t left.source right.source result).length = t.limbSize w ∧
      ∀ j < t.limbSize w, (bitXor t left.source right.source result).getD j 0 =
        t.stored j ((left.read j).value ^^^ (right.read j).value) t.normalType := by
    apply scanRange_induction (P := fun n (l : List (BitVec w)) => l.length = t.limbSize w ∧
      ∀ j < n, l.getD j 0 =
        t.stored j ((left.read j).value ^^^ (right.read j).value) t.normalType)
    · exact ⟨hlen, nofun⟩
    · rintro n hn l ⟨hl, hwritten⟩
      refine ⟨(t.length_write _ _ _ _).trans hl, fun j hj => ?_⟩
      unfold SpanType.write
      rw [getD_set]
      split_ifs with h
      · rw [← h.1]
        rfl
      · exact hwritten j (by omega)
  exact hscan.2 i hi

/-- A bit of a digit. -/
theorem getLsbD_digit (z i : ℕ) {j : ℕ} (hj : j < w) :
    (digit w z i).getLsbD j = z.testBit (w * i + j) := by
  have hdigit : (digit w z i).toNat = z / 2 ^ (w * i) % 2 ^ w := by
    rw [pow_mul]
    exact_mod_cast toNat_digit (w := w) z i
  rw [BitVec.getLsbD, hdigit, Nat.testBit_mod_two_pow, decide_eq_true hj, Bool.true_and,
    Nat.testBit_div_two_pow, Nat.add_comm]

section

variable {t : SpanType} {left right : Source w} {result : List (BitVec w)} {x y : ℕ}
  (hlen : result.length = t.limbSize w) (hx : left.Reads result (t.limbSize w) x)
  (hy : right.Reads result (t.limbSize w) y)
include hlen hx hy

/-- A function on limbs that is one on the digits of numbers. -/
theorem bitwise_eq {function : MaybeConstant (BitVec w) → MaybeConstant (BitVec w) →
    MaybeConstant (BitVec w)} {z : ℕ}
    (hz : ∀ i a b, a.value = digit w x i → b.value = digit w y i →
      (function a b).value = digit w z i) :
    bitwise function t left right result = t.image w z := by
  have hscan : t.Filled result z (t.limbSize w) (bitwise function t left right result) := by
    apply scanRange_induction (P := fun i (l : List (BitVec w)) => t.Filled result z i l)
    · exact Filled.start t _ _
    · intro i hi l hfilled
      exact hfilled.step (hlen ▸ hi) (hz i _ _ (hfilled.read hx hi) (hfilled.read hy hi))
  exact hscan.done hlen

theorem bitAnd_eq : bitAnd t left right result = t.image w (x &&& y : ℕ) := by
  apply bitwise_eq hlen hx hy
  intro i a b ha hb
  rw [value_bitAnd, ha, hb]
  apply BitVec.eq_of_getLsbD_eq
  intro j hj
  simp only [BitVec.getLsbD_and, getLsbD_digit _ _ hj, Nat.testBit_and]

theorem bitOr_eq : bitOr t left right result = t.image w (x ||| y : ℕ) := by
  apply bitwise_eq hlen hx hy
  intro i a b ha hb
  rw [value_bitOr, ha, hb]
  apply BitVec.eq_of_getLsbD_eq
  intro j hj
  simp only [BitVec.getLsbD_or, getLsbD_digit _ _ hj, Nat.testBit_or]

theorem bitXor_eq : bitXor t left right result = t.image w (x ^^^ y : ℕ) := by
  rw [bitXor_eq_bitwise]
  apply bitwise_eq hlen hx hy
  intro i a b ha hb
  rw [value_bitXor, ha, hb]
  apply BitVec.eq_of_getLsbD_eq
  intro j hj
  simp only [BitVec.getLsbD_xor, getLsbD_digit _ _ hj, Nat.testBit_xor]

end

end Num

end Hmpc.Core
