/-
# Hmpc.Core.Bits -- bits of limbs: masks, signs, comparisons, shifts and selection

`mask_inside` and `mask_outside` keep the low or the high bits of a limb, `extract_bit` reads one,
and `extend_sign` sets the high bits of a negative limb; it leaves those of a limb without sign
alone. As in `Hmpc.Core.Uint`, comparisons have branches for constants.
-/
import Hmpc.Core.Uint

namespace Hmpc.Core

open MaybeConstant

variable {w : ℕ}

/-! ## Masks -/

/-- The limb with the low `bit` bits set. -/
def lowMask (w bit : ℕ) : BitVec w := ((1 : BitVec w) <<< bit) - 1

/-- `mask_inside<Bit>` -/
def maskInside (bit : ℕ) (value : BitVec w) : BitVec w :=
  if bit = 0 then 0 else if bit = w then value else value &&& lowMask w bit

/-- `mask_outside<Bit>` -/
def maskOutside (bit : ℕ) (value : BitVec w) : BitVec w :=
  if bit = 0 then value else if bit = w then 0 else value &&& ~~~lowMask w bit

theorem toNat_lowMask {bit : ℕ} (h : bit < w) : (lowMask w bit).toNat = 2 ^ bit - 1 := by
  have hlt : 2 ^ bit < 2 ^ w := Nat.pow_lt_pow_right (by omega) h
  have hone : (1 : BitVec w).toNat = 1 := BitVec.toNat_one (by omega)
  have hshift : ((1 : BitVec w) <<< bit).toNat = 2 ^ bit := by
    rw [BitVec.toNat_shiftLeft, hone, Nat.shiftLeft_eq, Nat.one_mul, Nat.mod_eq_of_lt hlt]
  have hpos : 0 < 2 ^ bit := Nat.two_pow_pos bit
  rw [lowMask, BitVec.toNat_sub_of_le, hshift, hone]
  rw [BitVec.le_def, hshift, hone]
  omega

theorem toNat_maskInside {bit : ℕ} (h : bit ≤ w) (value : BitVec w) :
    (maskInside bit value).toNat = value.toNat % 2 ^ bit := by
  unfold maskInside
  split_ifs with h₀ h₁
  · simp [h₀, Nat.mod_one]
  · rw [h₁, Nat.mod_eq_of_lt value.isLt]
  · rw [BitVec.toNat_and, toNat_lowMask (by omega), Nat.and_two_pow_sub_one_eq_mod]

theorem getLsbD_lowMask {bit : ℕ} (h : bit < w) (j : ℕ) :
    (lowMask w bit).getLsbD j = decide (j < bit) := by
  rw [BitVec.getLsbD, toNat_lowMask h, Nat.testBit_two_pow_sub_one]

theorem getLsbD_maskInside {bit : ℕ} (h : bit ≤ w) (value : BitVec w) {j : ℕ} (hj : j < w) :
    (maskInside bit value).getLsbD j = (decide (j < bit) && value.getLsbD j) := by
  unfold maskInside
  split_ifs with h₀ h₁
  · simp [h₀]
  · simp [h₁, hj]
  · rw [BitVec.getLsbD_and, getLsbD_lowMask (by omega), Bool.and_comm]

theorem getLsbD_maskOutside {bit : ℕ} (h : bit ≤ w) (value : BitVec w) {j : ℕ} (hj : j < w) :
    (maskOutside bit value).getLsbD j = (decide (bit ≤ j) && value.getLsbD j) := by
  unfold maskOutside
  split_ifs with h₀ h₁
  · simp [h₀]
  · simp [h₁, hj]
  · rw [BitVec.getLsbD_and, BitVec.getLsbD_not, getLsbD_lowMask (by omega), Bool.and_comm]
    by_cases hlt : j < bit
    · simp [hlt, Nat.not_le.mpr hlt]
    · simp [hlt, Nat.le_of_not_lt hlt, hj]

/-! ## Signs -/

/-- `extract_bit<Bit>` -/
def extractBit (bit : ℕ) (value : BitVec w) : Bit :=
  if bit = 0 then value.setWidth 1 else bitOf (value &&& ((1 : BitVec w) <<< bit) ≠ 0)

theorem extractBit_eq {bit : ℕ} (h : bit < w) (value : BitVec w) :
    extractBit bit value = BitVec.ofBool (value.getLsbD bit) := by
  unfold extractBit
  split_ifs with h₀
  · apply BitVec.eq_of_getLsbD_eq
    intro j hj
    obtain rfl : j = 0 := by omega
    simp [h₀]
  · have hand : value &&& ((1 : BitVec w) <<< bit) =
        if value.getLsbD bit then BitVec.twoPow w bit else 0 := BitVec.and_twoPow value bit
    have hne : BitVec.twoPow w bit ≠ 0 := by
      rw [Ne, ← BitVec.toNat_inj, BitVec.toNat_twoPow_of_lt h]
      exact (Nat.two_pow_pos bit).ne'
    by_cases hbit : value.getLsbD bit = true
    · rw [hbit, bitOf_eq_one_iff.mpr (by rwa [hand, if_pos hbit])]
      rfl
    · rw [Bool.not_eq_true] at hbit
      have hnone : ¬(value &&& ((1 : BitVec w) <<< bit) ≠ 0) := by
        rw [hand, hbit]
        exact fun h => h rfl
      rw [hbit, bitOf_eq_zero_iff.mpr hnone]
      rfl

/-- `extend_sign<Bit>(value, sign_mask)`: the high bits of the mask are added. -/
def extendSign (bit : ℕ) (value signMask : BitVec w) : BitVec w :=
  if bit = 0 then signMask else if bit = w then value else maskOutside bit signMask ||| value

/-- Without a sign nothing is added, and nothing is removed. -/
theorem extendSign_zero {bit : ℕ} (hpos : 0 < bit) (value : BitVec w) :
    extendSign bit value 0 = value := by
  unfold extendSign maskOutside
  split_ifs
  · omega
  · rfl
  · simp

/-- With a sign all high bits are set. -/
theorem toNat_extendSign_allOnes {bit : ℕ} (hpos : 0 < bit) (h : bit ≤ w) (value : BitVec w) :
    (extendSign bit value (BitVec.allOnes w)).toNat =
      value.toNat % 2 ^ bit + (2 ^ w - 2 ^ bit) := by
  -- the low bits of the value and the high ones of the sign do not overlap, so they add up
  have hsplit : extendSign bit value (BitVec.allOnes w) =
      maskInside bit value + (BitVec.allOnes w <<< bit) := by
    rw [BitVec.add_eq_or_of_and_eq_zero]
    · apply BitVec.eq_of_getLsbD_eq
      intro j hj
      rw [BitVec.getLsbD_or, getLsbD_maskInside h _ hj, BitVec.getLsbD_shiftLeft]
      unfold extendSign
      split_ifs with h₀ h₁
      · omega
      · simp [h₁, hj]
      · rw [BitVec.getLsbD_or, getLsbD_maskOutside h _ hj]
        by_cases hlt : j < bit
        · simp [hlt, Nat.not_le.mpr hlt, hj]
        · simp [hlt, Nat.le_of_not_lt hlt, hj]
          omega
    · apply BitVec.eq_of_getLsbD_eq
      intro j hj
      rw [BitVec.getLsbD_and, getLsbD_maskInside h _ hj, BitVec.getLsbD_shiftLeft]
      by_cases hlt : j < bit
      · simp [hlt]
      · simp [hlt]
  have hpow : 2 ^ w = 2 ^ bit * 2 ^ (w - bit) := by rw [← pow_add]; congr 1; omega
  have hones : (BitVec.allOnes w <<< bit).toNat = 2 ^ w - 2 ^ bit := by
    have hle : 1 ≤ 2 ^ (w - bit) := Nat.one_le_two_pow
    have hmul : (2 ^ w - 1) * 2 ^ bit = (2 ^ w - 2 ^ bit) + 2 ^ w * (2 ^ bit - 1) := by
      have h1 : 1 ≤ 2 ^ bit := Nat.one_le_two_pow
      have h2 : 2 ^ bit ≤ 2 ^ w := Nat.pow_le_pow_right (by omega) h
      zify [h1, h2, Nat.one_le_two_pow (n := w)]
      ring
    rw [BitVec.toNat_shiftLeft, BitVec.toNat_allOnes, Nat.shiftLeft_eq, hmul,
      Nat.add_mul_mod_self_left, Nat.mod_eq_of_lt]
    have : 0 < 2 ^ bit := Nat.two_pow_pos bit
    have : 0 < 2 ^ w := Nat.two_pow_pos w
    omega
  have hle : 2 ^ bit ≤ 2 ^ w := Nat.pow_le_pow_right (by omega) h
  have hmod := Nat.mod_lt value.toNat (Nat.two_pow_pos bit)
  rw [hsplit, BitVec.toNat_add, toNat_maskInside h, hones, Nat.mod_eq_of_lt (by omega)]

/-- `is_normal<Bit>(value)` -/
def isNormal (bit : ℕ) (value : BitVec w) : Bool :=
  if bit = w then true else maskInside bit value == value

/-- `is_normal<Bit>(value, sign_mask)` -/
def isNormalSigned (bit : ℕ) (value signMask : BitVec w) : Bool :=
  if bit = w then true else maskOutside bit value == maskOutside bit signMask

theorem isNormal_iff {bit : ℕ} (h : bit ≤ w) (value : BitVec w) :
    isNormal bit value = true ↔ value.toNat < 2 ^ bit := by
  unfold isNormal
  split_ifs with hw
  · simp [hw, value.isLt]
  · rw [beq_iff_eq]
    constructor
    · intro heq
      rw [← heq, toNat_maskInside h]
      exact Nat.mod_lt _ (Nat.two_pow_pos bit)
    · intro hlt
      apply BitVec.eq_of_toNat_eq
      rw [toNat_maskInside h, Nat.mod_eq_of_lt hlt]

/-- Without a sign mask both are the same. -/
theorem isNormalSigned_zero {bit : ℕ} (h : bit ≤ w) (value : BitVec w) :
    isNormalSigned bit value 0 = isNormal bit value := by
  unfold isNormal isNormalSigned
  split_ifs
  · rfl
  · rw [Bool.eq_iff_iff, beq_iff_eq, beq_iff_eq]
    -- either way the bits from `bit` on are clear
    constructor <;> intro heq <;> apply BitVec.eq_of_getLsbD_eq <;> intro j hj
    · have hbit := congrArg (fun v : BitVec w => v.getLsbD j) heq
      simp only [getLsbD_maskOutside h _ hj] at hbit
      rw [getLsbD_maskInside h _ hj]
      by_cases hjr : j < bit
      · simp [hjr]
      · simp [Nat.le_of_not_lt hjr] at hbit
        simp [hbit]
    · rw [getLsbD_maskOutside h _ hj, getLsbD_maskOutside h _ hj, ← heq,
        getLsbD_maskInside h _ hj]
      by_cases hjr : bit ≤ j
      · simp [Nat.not_lt.mpr hjr]
      · simp [hjr]

/-! ## Comparison -/

/-- `equal_to(left, right)` -/
def equalTo (left right : MaybeConstant (BitVec w)) : MaybeConstant Bit :=
  ⟨bitOf (left.value = right.value), left.isConstant && right.isConstant⟩

/-- `not_equal_to(left, right)` -/
def notEqualTo (left right : MaybeConstant (BitVec w)) : MaybeConstant Bit :=
  ⟨bitOf (left.value ≠ right.value), left.isConstant && right.isConstant⟩

/-- `less(left, right)`: nothing is below zero, and the largest limb is below nothing. -/
def less (left right : MaybeConstant (BitVec w)) : MaybeConstant Bit :=
  if left.isConstant && right.isConstant then constant (bitOf (left.value < right.value))
  else if left.isConstant then
    if left.value = BitVec.allOnes w then constant 0 else runtime (bitOf (left.value < right.value))
  else if right.isConstant then
    if right.value = 0 then constant 0 else runtime (bitOf (left.value < right.value))
  else runtime (bitOf (left.value < right.value))

/-- `greater(left, right)` -/
def greater (left right : MaybeConstant (BitVec w)) : MaybeConstant Bit :=
  if left.isConstant && right.isConstant then constant (bitOf (left.value > right.value))
  else if left.isConstant then
    if left.value = 0 then constant 0 else runtime (bitOf (left.value > right.value))
  else if right.isConstant then
    if right.value = BitVec.allOnes w then constant 0
    else runtime (bitOf (left.value > right.value))
  else runtime (bitOf (left.value > right.value))

/-- `less_equal(left, right)` -/
def lessEqual (left right : MaybeConstant (BitVec w)) : MaybeConstant Bit :=
  if left.isConstant && right.isConstant then constant (bitOf (left.value ≤ right.value))
  else if left.isConstant then
    if left.value = 0 then constant 1 else runtime (bitOf (left.value ≤ right.value))
  else if right.isConstant then
    if right.value = BitVec.allOnes w then constant 1
    else runtime (bitOf (left.value ≤ right.value))
  else runtime (bitOf (left.value ≤ right.value))

/-- `greater_equal(left, right)` -/
def greaterEqual (left right : MaybeConstant (BitVec w)) : MaybeConstant Bit :=
  if left.isConstant && right.isConstant then constant (bitOf (left.value ≥ right.value))
  else if left.isConstant then
    if left.value = BitVec.allOnes w then constant 1
    else runtime (bitOf (left.value ≥ right.value))
  else if right.isConstant then
    if right.value = 0 then constant 1 else runtime (bitOf (left.value ≥ right.value))
  else runtime (bitOf (left.value ≥ right.value))

theorem le_allOnes (x : BitVec w) : x ≤ BitVec.allOnes w := by
  rw [BitVec.le_def, BitVec.toNat_allOnes]
  exact Nat.le_sub_one_of_lt x.isLt

theorem zero_le_word (x : BitVec w) : 0 ≤ x := by
  simp [BitVec.le_def]

theorem not_allOnes_lt (x : BitVec w) : ¬BitVec.allOnes w < x :=
  BitVec.not_lt.mpr (le_allOnes x)

@[simp] theorem value_equalTo (left right : MaybeConstant (BitVec w)) :
    (equalTo left right).value = bitOf (left.value = right.value) := rfl

@[simp] theorem value_notEqualTo (left right : MaybeConstant (BitVec w)) :
    (notEqualTo left right).value = bitOf (left.value ≠ right.value) := rfl

@[simp] theorem value_less (left right : MaybeConstant (BitVec w)) :
    (less left right).value = bitOf (left.value < right.value) := by
  unfold less
  split_ifs with h₁ h₂ h₃ h₄ h₅
  · rfl
  · exact (bitOf_eq_zero_iff.mpr (h₃ ▸ not_allOnes_lt _)).symm
  · rfl
  · exact (bitOf_eq_zero_iff.mpr (h₅ ▸ BitVec.not_lt_zero)).symm
  · rfl
  · rfl

@[simp] theorem value_greater (left right : MaybeConstant (BitVec w)) :
    (greater left right).value = bitOf (left.value > right.value) := by
  unfold greater
  split_ifs with h₁ h₂ h₃ h₄ h₅
  · rfl
  · exact (bitOf_eq_zero_iff.mpr (h₃ ▸ BitVec.not_lt_zero)).symm
  · rfl
  · exact (bitOf_eq_zero_iff.mpr (h₅ ▸ not_allOnes_lt _)).symm
  · rfl
  · rfl

@[simp] theorem value_lessEqual (left right : MaybeConstant (BitVec w)) :
    (lessEqual left right).value = bitOf (left.value ≤ right.value) := by
  unfold lessEqual
  split_ifs with h₁ h₂ h₃ h₄ h₅
  · rfl
  · exact (bitOf_eq_one_iff.mpr (h₃ ▸ zero_le_word _)).symm
  · rfl
  · exact (bitOf_eq_one_iff.mpr (h₅ ▸ le_allOnes _)).symm
  · rfl
  · rfl

@[simp] theorem value_greaterEqual (left right : MaybeConstant (BitVec w)) :
    (greaterEqual left right).value = bitOf (left.value ≥ right.value) := by
  unfold greaterEqual
  split_ifs with h₁ h₂ h₃ h₄ h₅
  · rfl
  · exact (bitOf_eq_one_iff.mpr (h₃ ▸ le_allOnes _)).symm
  · rfl
  · exact (bitOf_eq_one_iff.mpr (h₅ ▸ zero_le_word _)).symm
  · rfl
  · rfl

/-! ## Bitwise functions, shifts, selection -/

/-- `bit_not(value)` -/
def bitNot (value : MaybeConstant (BitVec w)) : MaybeConstant (BitVec w) :=
  ⟨~~~value.value, value.isConstant⟩

/-- `bit_and(left, right)` -/
def bitAnd (left right : MaybeConstant (BitVec w)) : MaybeConstant (BitVec w) :=
  if left.isConstant && right.isConstant then constant (left.value &&& right.value)
  else if left.isConstant then
    if left.value = 0 then constant 0
    else if left.value = BitVec.allOnes w then right
    else runtime (left.value &&& right.value)
  else if right.isConstant then
    if right.value = 0 then constant 0
    else if right.value = BitVec.allOnes w then left
    else runtime (left.value &&& right.value)
  else runtime (left.value &&& right.value)

@[simp] theorem value_bitNot (value : MaybeConstant (BitVec w)) :
    (bitNot value).value = ~~~value.value := rfl

@[simp] theorem value_bitAnd (left right : MaybeConstant (BitVec w)) :
    (bitAnd left right).value = left.value &&& right.value := by
  unfold bitAnd
  split_ifs with h₁ h₂ h₃ h₄ h₅ h₆ h₇
  · rfl
  · simp [h₃]
  · simp [h₄]
  · rfl
  · simp [h₆]
  · simp [h₇]
  · rfl
  · rfl

/-- `combined_shift_left(lower, upper, shift)` -/
def combinedShiftLeft (lower upper : MaybeConstant (BitVec w)) (shift : ℕ) :
    MaybeConstant (BitVec w) :=
  bitOr ⟨upper.value <<< shift, upper.isConstant⟩ ⟨lower.value >>> (w - shift), lower.isConstant⟩

/-- `combined_shift_right(lower, upper, shift)` -/
def combinedShiftRight (lower upper : MaybeConstant (BitVec w)) (shift : ℕ) :
    MaybeConstant (BitVec w) :=
  bitOr ⟨upper.value <<< (w - shift), upper.isConstant⟩ ⟨lower.value >>> shift, lower.isConstant⟩

@[simp] theorem value_combinedShiftLeft (lower upper : MaybeConstant (BitVec w)) (shift : ℕ) :
    (combinedShiftLeft lower upper shift).value =
      upper.value <<< shift ||| lower.value >>> (w - shift) := value_bitOr _ _

@[simp] theorem value_combinedShiftRight (lower upper : MaybeConstant (BitVec w)) (shift : ℕ) :
    (combinedShiftRight lower upper shift).value =
      upper.value <<< (w - shift) ||| lower.value >>> shift := value_bitOr _ _

/-- The branch of `select` without `sycl::select`. -/
def maskedSelect (falseValue trueValue : BitVec w) (choice : Bit) : BitVec w :=
  falseValue ^^^ (maskFrom w choice &&& (falseValue ^^^ trueValue))

/-- `select(false_value, true_value, choice)` -/
def select (falseValue trueValue : MaybeConstant (BitVec w)) (choice : MaybeConstant Bit) :
    MaybeConstant (BitVec w) :=
  if choice.isConstant then if choice.value = 1 then trueValue else falseValue
  else if falseValue.isConstant && trueValue.isConstant && falseValue.value == trueValue.value then
    falseValue
  else runtime (maskedSelect falseValue.value trueValue.value choice.value)

theorem maskedSelect_eq [NeZero w] (falseValue trueValue : BitVec w) (choice : Bit) :
    maskedSelect falseValue trueValue choice = if choice = 1 then trueValue else falseValue := by
  unfold maskedSelect
  rcases bit_eq choice with rfl | rfl
  · rw [maskFrom_zero, if_neg (by decide)]
    simp
  · rw [maskFrom_one, BitVec.allOnes_and, ← BitVec.xor_assoc, BitVec.xor_self, BitVec.zero_xor,
      if_pos rfl]

@[simp] theorem value_select [NeZero w] (falseValue trueValue : MaybeConstant (BitVec w))
    (choice : MaybeConstant Bit) :
    (select falseValue trueValue choice).value =
      if choice.value = 1 then trueValue.value else falseValue.value := by
  unfold select
  split_ifs with h₁ h₂ h₃ h₄ h₄
  · rfl
  · rfl
  · simp only [Bool.and_eq_true, beq_iff_eq] at h₃
    exact h₃.2
  · rfl
  · rw [value_runtime, maskedSelect_eq, if_pos h₄]
  · rw [value_runtime, maskedSelect_eq, if_neg h₄]

end Hmpc.Core
