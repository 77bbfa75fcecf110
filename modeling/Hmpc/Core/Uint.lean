/-
# Hmpc.Core.Uint -- operations on limbs: `hmpc::core::uint` and the free functions on it

A limb is an unsigned word; `uint<bool>` is the one of a single bit. The functions of a limb have
branches for operands that are compile-time constants (`hmpc::constant`), in which they save work
and may return constants again; `MaybeConstant` is a value together with that bit of its type. All
branches of a function compute one value, which the lemma after it states.
-/
import Mathlib.Tactic.Ring
import Mathlib.Tactic.Linarith

namespace Hmpc.Core

/-- `hmpc::bit` -/
abbrev Bit := BitVec 1

/-- `maybe_constant_of<T>`: a value, and whether its type is `hmpc::constant`. -/
structure MaybeConstant (α : Type) where
  value : α
  isConstant : Bool

namespace MaybeConstant

variable {α : Type}

def constant (value : α) : MaybeConstant α := ⟨value, true⟩
def runtime (value : α) : MaybeConstant α := ⟨value, false⟩

@[simp] theorem value_constant (a : α) : (constant a).value = a := rfl
@[simp] theorem value_runtime (a : α) : (runtime a).value = a := rfl

end MaybeConstant

open MaybeConstant

variable {w : ℕ}

/-! ## `limb_traits` -/

instance neZeroLimb : NeZero 32 := ⟨by decide⟩

def valueFrom (w : ℕ) (bit : Bit) : BitVec w := bit.setWidth w

/-- All bits set to the given one. -/
def maskFrom (w : ℕ) (bit : Bit) : BitVec w := -valueFrom w bit

def zero (w : ℕ) : MaybeConstant (BitVec w) := constant 0

/-- A limb from a bit; a constant stays one. -/
def limbFrom (w : ℕ) (bit : MaybeConstant Bit) : MaybeConstant (BitVec w) :=
  ⟨valueFrom w bit.value, bit.isConstant⟩

@[simp] theorem value_zero : (zero w).value = 0 := rfl
@[simp] theorem value_limbFrom (bit : MaybeConstant Bit) :
    (limbFrom w bit).value = valueFrom w bit.value := rfl

theorem bit_eq (b : Bit) : b = 0 ∨ b = 1 := by
  revert b
  decide

theorem toNat_bit_le (b : Bit) : b.toNat ≤ 1 := by
  have := b.isLt
  omega

theorem toNat_valueFrom [NeZero w] (b : Bit) : (valueFrom w b).toNat = b.toNat := by
  have hw : 2 ≤ 2 ^ w := Nat.le_self_pow (NeZero.ne w) 2
  rw [valueFrom, BitVec.toNat_setWidth, Nat.mod_eq_of_lt]
  have := b.isLt
  omega

@[simp] theorem maskFrom_zero : maskFrom w 0 = 0 := by
  simp [maskFrom, valueFrom]

@[simp] theorem maskFrom_one [NeZero w] : maskFrom w 1 = BitVec.allOnes w := by
  have hone : valueFrom w 1 = 1#w := by
    apply BitVec.eq_of_toNat_eq
    rw [toNat_valueFrom]
    exact (BitVec.toNat_one (Nat.pos_of_ne_zero (NeZero.ne w))).symm
  rw [maskFrom, hone, BitVec.neg_one_eq_allOnes]

/-- A comparison as a bit. -/
abbrev bitOf (p : Prop) [Decidable p] : Bit := BitVec.ofBool (decide p)

theorem toNat_bitOf (p : Prop) [Decidable p] : (bitOf p).toNat = if p then 1 else 0 := by
  by_cases hp : p <;> simp [bitOf, hp]

theorem bitOf_eq_one_iff {p : Prop} [Decidable p] : bitOf p = 1 ↔ p := by
  by_cases hp : p <;> simp [bitOf, hp]

theorem bitOf_eq_zero_iff {p : Prop} [Decidable p] : bitOf p = 0 ↔ ¬p := by
  by_cases hp : p <;> simp [bitOf, hp]

/-! ## Addition -/

structure AddResult (w : ℕ) where
  sum : MaybeConstant (BitVec w)
  carry : MaybeConstant Bit

/-- `add(left, right)` -/
def add (left right : MaybeConstant (BitVec w)) : MaybeConstant (BitVec w) :=
  if left.isConstant && right.isConstant then constant (left.value + right.value)
  else if left.isConstant then
    if left.value = 0 then right else runtime (left.value + right.value)
  else if right.isConstant then
    if right.value = 0 then left else runtime (left.value + right.value)
  else runtime (left.value + right.value)

@[simp] theorem value_add (left right : MaybeConstant (BitVec w)) :
    (add left right).value = left.value + right.value := by
  unfold add
  split_ifs with h₁ h₂ h₃ h₄ h₅
  · rfl
  · simp [h₃]
  · rfl
  · simp [h₅]
  · rfl
  · rfl

/-- The macro `HMPC_ADD` of `extended_add(left, right)`. -/
def addWithCarry (left right : BitVec w) : AddResult w :=
  let tmp := left + right
  ⟨runtime tmp, runtime (bitOf (left > tmp))⟩

/-- `extended_add(left, right)` -/
def extendedAdd (left right : MaybeConstant (BitVec w)) : AddResult w :=
  if left.isConstant && right.isConstant then
    let tmp := left.value + right.value
    ⟨constant tmp, constant (bitOf (left.value > tmp))⟩
  else if left.isConstant then
    if left.value = 0 then ⟨right, constant 0⟩ else addWithCarry left.value right.value
  else if right.isConstant then
    if right.value = 0 then ⟨left, constant 0⟩ else addWithCarry left.value right.value
  else addWithCarry left.value right.value

/-- What the sum and the carry of two numbers say. -/
def AddResult.Adds (r : AddResult w) (x : ℕ) : Prop :=
  r.sum.value.toNat + 2 ^ w * r.carry.value.toNat = x

theorem toNat_add_carry (x y : BitVec w) :
    (x + y).toNat + 2 ^ w * (bitOf (x > x + y)).toNat = x.toNat + y.toNat := by
  have hx := x.isLt
  have hy := y.isLt
  simp only [toNat_bitOf, gt_iff_lt, BitVec.lt_def, BitVec.toNat_add]
  rcases Nat.lt_or_ge (x.toNat + y.toNat) (2 ^ w) with h | h
  · rw [Nat.mod_eq_of_lt h, if_neg (by omega)]
    omega
  · rw [Nat.mod_eq_sub_mod h, Nat.mod_eq_of_lt (by omega), if_pos (by omega)]
    omega

theorem adds_extendedAdd (left right : MaybeConstant (BitVec w)) :
    (extendedAdd left right).Adds (left.value.toNat + right.value.toNat) := by
  unfold extendedAdd AddResult.Adds
  split_ifs with h₁ h₂ h₃ h₄ h₅
  · exact toNat_add_carry _ _
  · simp [h₃]
  · exact toNat_add_carry _ _
  · simp [h₅]
  · exact toNat_add_carry _ _
  · exact toNat_add_carry _ _

/-- `bit_or` of two carries of which one is zero at least. -/
def bitOr (left right : MaybeConstant (BitVec w)) : MaybeConstant (BitVec w) :=
  if left.isConstant && right.isConstant then constant (left.value ||| right.value)
  else if left.isConstant then
    if left.value = 0 then right
    else if left.value = BitVec.allOnes w then constant (BitVec.allOnes w)
    else runtime (left.value ||| right.value)
  else if right.isConstant then
    if right.value = 0 then left
    else if right.value = BitVec.allOnes w then constant (BitVec.allOnes w)
    else runtime (left.value ||| right.value)
  else runtime (left.value ||| right.value)

@[simp] theorem value_bitOr (left right : MaybeConstant (BitVec w)) :
    (bitOr left right).value = left.value ||| right.value := by
  unfold bitOr
  split_ifs with h₁ h₂ h₃ h₄ h₅ h₆ h₇
  · rfl
  · simp [h₃]
  · simp [h₄]
  · rfl
  · simp [h₆]
  · simp [h₇]
  · rfl
  · rfl

theorem toNat_or_bit {a b : Bit} (h : a.toNat + b.toNat ≤ 1) :
    (a ||| b).toNat = a.toNat + b.toNat := by
  rcases bit_eq a with rfl | rfl <;> rcases bit_eq b with rfl | rfl <;> simp_all

/-- The macro `HMPC_ADD` of `extended_add(left, right, carry)`. -/
def addWithCarries (left right : BitVec w) (carry : Bit) : AddResult w :=
  let tmpLeft := left + valueFrom w carry
  let tmpRight := right + tmpLeft
  ⟨runtime tmpRight, runtime (bitOf (left > tmpLeft) ||| bitOf (right > tmpRight))⟩

/-- `extended_add(left, right)` after `extended_add(first, second)`. -/
def extendedAddTwice (first second third : MaybeConstant (BitVec w)) : AddResult w :=
  let tmp := extendedAdd first second
  let result := extendedAdd tmp.sum third
  ⟨result.sum, bitOr tmp.carry result.carry⟩

/-- `extended_add(left, right, carry)` -/
def extendedAddCarry (left right : MaybeConstant (BitVec w)) (carry : MaybeConstant Bit) :
    AddResult w :=
  if left.isConstant && right.isConstant && carry.isConstant then
    let tmpLeft := left.value + valueFrom w carry.value
    let tmpRight := right.value + tmpLeft
    ⟨constant tmpRight, constant (bitOf (left.value > tmpLeft) ||| bitOf (right.value > tmpRight))⟩
  else if left.isConstant && right.isConstant then extendedAddTwice left right (limbFrom w carry)
  else if left.isConstant && carry.isConstant then extendedAddTwice left (limbFrom w carry) right
  else if right.isConstant && carry.isConstant then extendedAddTwice right (limbFrom w carry) left
  else if left.isConstant then
    if left.value = 0 then extendedAdd right (limbFrom w carry)
    else addWithCarries left.value right.value carry.value
  else if right.isConstant then
    if right.value = 0 then extendedAdd left (limbFrom w carry)
    else addWithCarries left.value right.value carry.value
  else if carry.isConstant then
    if carry.value = 0 then extendedAdd right left
    else addWithCarries left.value right.value carry.value
  else addWithCarries left.value right.value carry.value

theorem adds_extendedAddTwice (first second third : MaybeConstant (BitVec w))
    (h : first.value.toNat + second.value.toNat + third.value.toNat < 2 ^ w * 2) :
    (extendedAddTwice first second third).Adds
      (first.value.toNat + second.value.toNat + third.value.toNat) := by
  have h₁ : _ + _ = _ := adds_extendedAdd first second
  have h₂ : _ + _ = _ := adds_extendedAdd (extendedAdd first second).sum third
  unfold extendedAddTwice AddResult.Adds
  have hcarry : (extendedAdd first second).carry.value.toNat +
      (extendedAdd (extendedAdd first second).sum third).carry.value.toNat < 2 := by
    apply Nat.lt_of_mul_lt_mul_left (a := 2 ^ w)
    rw [Nat.mul_add]
    omega
  dsimp only
  rw [value_bitOr, toNat_or_bit (by omega), Nat.mul_add]
  omega

theorem toNat_add_carries [NeZero w] (left right : BitVec w) (carry : Bit) :
    (addWithCarries left right carry).Adds (left.toNat + right.toNat + carry.toNat) := by
  have h₁ := toNat_add_carry left (valueFrom w carry)
  have h₂ := toNat_add_carry right (left + valueFrom w carry)
  have hc := toNat_valueFrom (w := w) carry
  have hl := left.isLt
  have hr := right.isLt
  have hle := toNat_bit_le carry
  unfold addWithCarries AddResult.Adds
  have hcarry : (bitOf (left > left + valueFrom w carry)).toNat +
      (bitOf (right > right + (left + valueFrom w carry))).toNat < 2 := by
    apply Nat.lt_of_mul_lt_mul_left (a := 2 ^ w)
    rw [Nat.mul_add]
    omega
  dsimp only [value_runtime]
  rw [toNat_or_bit (by omega), Nat.mul_add]
  omega

theorem adds_extendedAddCarry [NeZero w] (left right : MaybeConstant (BitVec w))
    (carry : MaybeConstant Bit) :
    (extendedAddCarry left right carry).Adds
      (left.value.toNat + right.value.toNat + carry.value.toNat) := by
  have hl := left.value.isLt
  have hr := right.value.isLt
  have hle := toNat_bit_le carry.value
  have hc := toNat_valueFrom (w := w) carry.value
  have hgeneral := toNat_add_carries left.value right.value carry.value
  unfold extendedAddCarry
  -- one case for each choice of constants; two constants are added first, a zero is left out
  split_ifs with h₁ h₂ h₃ h₄ h₅ h₆ h₇ h₈ h₉ h₁₀
  · exact hgeneral
  · have h := adds_extendedAddTwice left right (limbFrom w carry)
    rw [value_limbFrom, hc] at h
    exact h (by omega)
  · have h := adds_extendedAddTwice left (limbFrom w carry) right
    rw [value_limbFrom, hc] at h
    rw [Nat.add_right_comm]
    exact h (by omega)
  · have h := adds_extendedAddTwice right (limbFrom w carry) left
    rw [value_limbFrom, hc] at h
    rw [Nat.add_assoc, Nat.add_comm]
    exact h (by omega)
  · have h := adds_extendedAdd right (limbFrom w carry)
    rw [value_limbFrom, hc] at h
    simpa [h₆] using h
  · exact hgeneral
  · have h := adds_extendedAdd left (limbFrom w carry)
    rw [value_limbFrom, hc] at h
    simpa [h₈] using h
  · exact hgeneral
  · have h := adds_extendedAdd right left
    rw [Nat.add_comm] at h
    simpa [h₁₀] using h
  · exact hgeneral
  · exact hgeneral

/-! ## Subtraction -/

structure SubResult (w : ℕ) where
  difference : MaybeConstant (BitVec w)
  borrow : MaybeConstant Bit

/-- The difference and the borrow of `x - y`. -/
def SubResult.Subtracts (r : SubResult w) (x y : ℕ) : Prop :=
  r.difference.value.toNat + y = x + 2 ^ w * r.borrow.value.toNat

/-- The macro `HMPC_SUBTRACT` of `subtract(left, right)`. -/
def subtractWithBorrow (left right : BitVec w) : SubResult w :=
  let tmp := left - right
  ⟨runtime tmp, runtime (bitOf (left < tmp))⟩

/-- `subtract(left, right)` -/
def subtract (left right : MaybeConstant (BitVec w)) : SubResult w :=
  if left.isConstant && right.isConstant then
    let tmp := left.value - right.value
    ⟨constant tmp, constant (bitOf (left.value < tmp))⟩
  else if right.isConstant then
    if right.value = 0 then ⟨left, constant 0⟩ else subtractWithBorrow left.value right.value
  else subtractWithBorrow left.value right.value

theorem toNat_sub_borrow (x y : BitVec w) :
    (x - y).toNat + y.toNat = x.toNat + 2 ^ w * (bitOf (x < x - y)).toNat := by
  have hx := x.isLt
  have hy := y.isLt
  simp only [toNat_bitOf, BitVec.lt_def, BitVec.toNat_sub]
  rcases Nat.lt_or_ge x.toNat y.toNat with h | h
  · rw [Nat.mod_eq_of_lt (by omega), if_pos (by omega)]
    omega
  · rw [show 2 ^ w - y.toNat + x.toNat = x.toNat - y.toNat + 2 ^ w by omega,
      Nat.add_mod_right, Nat.mod_eq_of_lt (by omega), if_neg (by omega)]
    omega

theorem subtracts_subtract (left right : MaybeConstant (BitVec w)) :
    (subtract left right).Subtracts left.value.toNat right.value.toNat := by
  unfold subtract SubResult.Subtracts
  split_ifs with h₁ h₂ h₃
  · exact toNat_sub_borrow _ _
  · simp [h₃]
  · exact toNat_sub_borrow _ _
  · exact toNat_sub_borrow _ _

/-- The macro `HMPC_SUBTRACT` of `subtract(left, right, borrow)`. -/
def subtractWithBorrows (left right : BitVec w) (borrow : Bit) : SubResult w :=
  let tmpRight := right + valueFrom w borrow
  let tmpLeft := left - tmpRight
  ⟨runtime tmpLeft, runtime (bitOf (left < tmpLeft) ||| bitOf (right > tmpRight))⟩

/-- `subtract(left, right, borrow)` -/
def subtractBorrow (left right : MaybeConstant (BitVec w)) (borrow : MaybeConstant Bit) :
    SubResult w :=
  if left.isConstant && right.isConstant && borrow.isConstant then
    let tmpRight := right.value + valueFrom w borrow.value
    let tmpLeft := left.value - tmpRight
    ⟨constant tmpLeft, constant (bitOf (left.value < tmpLeft) ||| bitOf (right.value > tmpRight))⟩
  else if left.isConstant && right.isConstant then
    let tmp := subtract left right
    let result := subtract tmp.difference (limbFrom w borrow)
    ⟨result.difference, bitOr tmp.borrow result.borrow⟩
  else if left.isConstant && borrow.isConstant then
    if borrow.value = 1 then
      if left.value > 0 then subtract (constant (left.value - valueFrom w borrow.value)) right
      else ⟨runtime (BitVec.allOnes w - right.value), constant 1⟩
    else subtract left right
  else if right.isConstant && borrow.isConstant then
    if borrow.value = 1 then
      if right.value = BitVec.allOnes w then ⟨left, constant 1⟩
      else subtract left (constant (right.value + valueFrom w borrow.value))
    else subtract left right
  else if right.isConstant then
    if right.value = 0 then subtract left (limbFrom w borrow)
    else subtractWithBorrows left.value right.value borrow.value
  else if borrow.isConstant then
    if borrow.value = 0 then subtract left right
    else subtractWithBorrows left.value right.value borrow.value
  else subtractWithBorrows left.value right.value borrow.value

theorem toNat_sub_borrows [NeZero w] (left right : BitVec w) (borrow : Bit) :
    (subtractWithBorrows left right borrow).Subtracts left.toNat
      (right.toNat + borrow.toNat) := by
  have h₁ := toNat_add_carry right (valueFrom w borrow)
  have h₂ := toNat_sub_borrow left (right + valueFrom w borrow)
  have hb := toNat_valueFrom (w := w) borrow
  have hl := left.isLt
  have hr := right.isLt
  have hle := toNat_bit_le borrow
  have hd := (left - (right + valueFrom w borrow)).isLt
  unfold subtractWithBorrows SubResult.Subtracts
  have hborrow : (bitOf (left < left - (right + valueFrom w borrow))).toNat +
      (bitOf (right > right + valueFrom w borrow)).toNat < 2 := by
    apply Nat.lt_of_mul_lt_mul_left (a := 2 ^ w)
    rw [Nat.mul_add]
    omega
  dsimp only [value_runtime]
  rw [toNat_or_bit (by omega), Nat.mul_add]
  omega

theorem subtracts_subtractBorrow [NeZero w] (left right : MaybeConstant (BitVec w))
    (borrow : MaybeConstant Bit) :
    (subtractBorrow left right borrow).Subtracts left.value.toNat
      (right.value.toNat + borrow.value.toNat) := by
  have hl := left.value.isLt
  have hr := right.value.isLt
  have hle := toNat_bit_le borrow.value
  have hb := toNat_valueFrom (w := w) borrow.value
  have hgeneral := toNat_sub_borrows left.value right.value borrow.value
  have hplain (h : borrow.value = 0) : (subtract left right).Subtracts left.value.toNat
      (right.value.toNat + borrow.value.toNat) := by
    simpa [h] using subtracts_subtract left right
  have hpos : 0 < 2 ^ w := Nat.two_pow_pos w
  unfold subtractBorrow
  split_ifs with h₁ h₂ h₃ h₄ h₅ h₆ h₇ h₈ h₉ h₁₀ h₁₁ h₁₂
  · exact hgeneral
  · have h₁ : _ + _ = _ := subtracts_subtract left right
    have h₂ : _ + _ = _ := subtracts_subtract (subtract left right).difference (limbFrom w borrow)
    rw [value_limbFrom, hb] at h₂
    unfold SubResult.Subtracts
    have hborrow : (subtract left right).borrow.value.toNat +
        (subtract (subtract left right).difference (limbFrom w borrow)).borrow.value.toNat < 2 := by
      apply Nat.lt_of_mul_lt_mul_left (a := 2 ^ w)
      rw [Nat.mul_add]
      omega
    dsimp only
    rw [value_bitOr, toNat_or_bit (by omega), Nat.mul_add]
    omega
  · -- the borrow is taken from the constant
    have h := subtracts_subtract (constant (left.value - valueFrom w borrow.value)) right
    unfold SubResult.Subtracts at h ⊢
    have hpos : 0 < left.value.toNat := by simpa [BitVec.lt_def] using h₅
    rw [value_constant, BitVec.toNat_sub_of_le (by rw [BitVec.le_def, hb, h₄]; exact hpos), hb,
      h₄] at h
    rw [h₄]
    simp only [BitVec.reduceToNat] at h ⊢
    omega
  · have hzero : left.value.toNat = 0 := by simpa [BitVec.lt_def] using h₅
    unfold SubResult.Subtracts
    rw [value_runtime, value_constant, BitVec.allOnes_sub_eq_not, BitVec.toNat_not, hzero, h₄]
    simp only [BitVec.reduceToNat]
    omega
  · exact hplain ((bit_eq _).resolve_right h₄)
  · unfold SubResult.Subtracts
    rw [value_constant, h₈, h₇, BitVec.toNat_allOnes]
    simp only [BitVec.reduceToNat]
    omega
  · -- the borrow is added to the constant, which is not the largest
    have h := subtracts_subtract left (constant (right.value + valueFrom w borrow.value))
    unfold SubResult.Subtracts at h ⊢
    have hne : right.value.toNat ≠ 2 ^ w - 1 := by
      rw [← BitVec.toNat_allOnes]
      exact fun hall => h₈ (BitVec.eq_of_toNat_eq hall)
    rw [value_constant, BitVec.toNat_add, hb, Nat.mod_eq_of_lt (by omega)] at h
    exact h
  · exact hplain ((bit_eq _).resolve_right h₇)
  · have h := subtracts_subtract left (limbFrom w borrow)
    rw [value_limbFrom, hb] at h
    simpa [h₁₀] using h
  · exact hgeneral
  · exact hplain h₁₂
  · exact hgeneral
  · exact hgeneral

/-! ## Multiplication -/

structure MultiplyResult (w : ℕ) where
  lower : MaybeConstant (BitVec w)
  upper : MaybeConstant (BitVec w)

/-- Both words of a product. -/
def MultiplyResult.Equals (r : MultiplyResult w) (x : ℕ) : Prop :=
  r.lower.value.toNat + 2 ^ w * r.upper.value.toNat = x

/-- `multiply(left, right)` -/
def multiply (left right : MaybeConstant (BitVec w)) : MaybeConstant (BitVec w) :=
  if left.isConstant && right.isConstant then constant (left.value * right.value)
  else if left.isConstant then
    if left.value = 0 then zero w
    else if left.value = 1 then right
    else runtime (left.value * right.value)
  else if right.isConstant then
    if right.value = 0 then zero w
    else if right.value = 1 then left
    else runtime (left.value * right.value)
  else runtime (left.value * right.value)

@[simp] theorem value_multiply (left right : MaybeConstant (BitVec w)) :
    (multiply left right).value = left.value * right.value := by
  unfold multiply
  split_ifs with h₁ h₂ h₃ h₄ h₅ h₆ h₇
  · rfl
  · simp [h₃]
  · simp [h₄]
  · rfl
  · simp [h₆]
  · simp [h₇]
  · rfl
  · rfl

/-- `sycl::mul_hi`, and what the compile-time branch takes from the product in the wider type. -/
def mulHi (left right : BitVec w) : BitVec w :=
  BitVec.ofNat w (left.toNat * right.toNat / 2 ^ w)

/-- The macro `HMPC_MULTIPLY`. -/
def multiplyBoth (left right : BitVec w) : MultiplyResult w :=
  ⟨runtime (left * right), runtime (mulHi left right)⟩

/-- `extended_multiply(left, right)` -/
def extendedMultiply (left right : MaybeConstant (BitVec w)) : MultiplyResult w :=
  if left.isConstant && right.isConstant then
    ⟨constant (left.value * right.value), constant (mulHi left.value right.value)⟩
  else if left.isConstant then
    if left.value = 0 then ⟨zero w, zero w⟩
    else if left.value = 1 then ⟨right, zero w⟩
    else multiplyBoth left.value right.value
  else if right.isConstant then
    if right.value = 0 then ⟨zero w, zero w⟩
    else if right.value = 1 then ⟨left, zero w⟩
    else multiplyBoth left.value right.value
  else multiplyBoth left.value right.value

theorem toNat_mul_both (x y : BitVec w) :
    (x * y).toNat + 2 ^ w * (mulHi x y).toNat = x.toNat * y.toNat := by
  have hlt : x.toNat * y.toNat / 2 ^ w < 2 ^ w := by
    apply Nat.div_lt_of_lt_mul
    exact Nat.mul_lt_mul'' x.isLt y.isLt
  rw [mulHi, BitVec.toNat_mul, BitVec.toNat_ofNat, Nat.mod_eq_of_lt hlt]
  exact Nat.mod_add_div _ _

theorem toNat_one_word [NeZero w] : (1 : BitVec w).toNat = 1 :=
  BitVec.toNat_one (Nat.pos_of_ne_zero (NeZero.ne w))

theorem equals_extendedMultiply [NeZero w] (left right : MaybeConstant (BitVec w)) :
    (extendedMultiply left right).Equals (left.value.toNat * right.value.toNat) := by
  unfold extendedMultiply MultiplyResult.Equals
  split_ifs with h₁ h₂ h₃ h₄ h₅ h₆ h₇
  · exact toNat_mul_both _ _
  · simp [h₃]
  · rw [h₄, toNat_one_word]
    simp
  · exact toNat_mul_both _ _
  · simp [h₆]
  · rw [h₇, toNat_one_word]
    simp
  · exact toNat_mul_both _ _
  · exact toNat_mul_both _ _

/-- What `extended_multiply_add` does after the product. -/
def MultiplyResult.addSummands (product : MultiplyResult w)
    (summand otherSummand : MaybeConstant (BitVec w)) : MultiplyResult w :=
  let sum₀ := extendedAdd product.lower summand
  let sum₁ := extendedAdd sum₀.sum otherSummand
  ⟨sum₁.sum, add (add product.upper (limbFrom w sum₀.carry)) (limbFrom w sum₁.carry)⟩

/-- `extended_multiply_add(left, right, summand, other_summand)` -/
def extendedMultiplyAdd (left right summand otherSummand : MaybeConstant (BitVec w)) :
    MultiplyResult w :=
  let product := extendedMultiply left right
  let sum₀ := extendedAdd product.lower summand
  let sum₁ := extendedAdd sum₀.sum otherSummand
  ⟨sum₁.sum, add (add product.upper (limbFrom w sum₀.carry)) (limbFrom w sum₁.carry)⟩

/-- Two summands fit: `(B - 1) * (B - 1) + 2 * (B - 1) = B * B - 1`. -/
theorem MultiplyResult.Equals.addSummands [NeZero w] {product : MultiplyResult w}
    {left right : BitVec w} (h : product.Equals (left.toNat * right.toNat))
    (summand otherSummand : MaybeConstant (BitVec w)) :
    (product.addSummands summand otherSummand).Equals
      (left.toNat * right.toNat + summand.value.toNat + otherSummand.value.toNat) := by
  have hproduct : _ + _ = _ := h
  have hsum₀ : _ + _ = _ := adds_extendedAdd product.lower summand
  have hsum₁ : _ + _ = _ := adds_extendedAdd (extendedAdd product.lower summand).sum otherSummand
  have hl : left.toNat ≤ 2 ^ w - 1 := Nat.le_sub_one_of_lt left.isLt
  have hr : right.toNat ≤ 2 ^ w - 1 := Nat.le_sub_one_of_lt right.isLt
  have hs := summand.value.isLt
  have ho := otherSummand.value.isLt
  have hmul : left.toNat * right.toNat ≤ (2 ^ w - 1) * (2 ^ w - 1) := Nat.mul_le_mul hl hr
  have hpos : 0 < 2 ^ w := Nat.two_pow_pos w
  -- the bound that leaves room for both carries in the upper limb
  have hsquare : (2 ^ w - 1) * (2 ^ w - 1) + 2 * (2 ^ w - 1) + 1 = 2 ^ w * 2 ^ w := by
    obtain ⟨n, hn⟩ : ∃ n, 2 ^ w = n + 1 := ⟨2 ^ w - 1, by omega⟩
    rw [hn, Nat.add_sub_cancel]
    ring
  unfold MultiplyResult.addSummands MultiplyResult.Equals
  dsimp only
  generalize (extendedAdd product.lower summand) = sum₀ at *
  generalize (extendedAdd sum₀.sum otherSummand) = sum₁ at *
  have htotal : 2 ^ w * (product.upper.value.toNat + sum₀.carry.value.toNat +
      sum₁.carry.value.toNat) < 2 ^ w * 2 ^ w := by
    rw [Nat.mul_add, Nat.mul_add]
    omega
  have hupper := Nat.lt_of_mul_lt_mul_left htotal
  rw [value_add, value_add, value_limbFrom, value_limbFrom, BitVec.toNat_add, BitVec.toNat_add,
    toNat_valueFrom, toNat_valueFrom, Nat.mod_add_mod, Nat.mod_eq_of_lt hupper, Nat.mul_add,
    Nat.mul_add]
  omega

theorem equals_extendedMultiplyAdd [NeZero w]
    (left right summand otherSummand : MaybeConstant (BitVec w)) :
    (extendedMultiplyAdd left right summand otherSummand).Equals
      (left.value.toNat * right.value.toNat + summand.value.toNat + otherSummand.value.toNat) :=
  (equals_extendedMultiply left right).addSummands summand otherSummand

/-- `multiply_add(left, right, summand, other_summand)` -/
def multiplyAdd (left right summand otherSummand : MaybeConstant (BitVec w)) :
    MaybeConstant (BitVec w) :=
  add (multiply left right) (add summand otherSummand)

@[simp] theorem value_multiplyAdd (left right summand otherSummand : MaybeConstant (BitVec w)) :
    (multiplyAdd left right summand otherSummand).value =
      left.value * right.value + (summand.value + otherSummand.value) := by
  simp [multiplyAdd]

/-- Without its upper half it is the lower half. -/
theorem multiplyAdd_eq_lower [NeZero w]
    (left right summand otherSummand : MaybeConstant (BitVec w)) :
    (multiplyAdd left right summand otherSummand).value =
      (extendedMultiplyAdd left right summand otherSummand).lower.value := by
  have h : _ + _ = _ := equals_extendedMultiplyAdd left right summand otherSummand
  apply BitVec.eq_of_toNat_eq
  have hmod := congrArg (· % 2 ^ w) h
  simp only [Nat.add_mul_mod_self_left, Nat.mod_eq_of_lt (BitVec.isLt _)] at hmod
  rw [hmod, value_multiplyAdd, BitVec.toNat_add, BitVec.toNat_mul, BitVec.toNat_add]
  simp [Nat.add_assoc]

end Hmpc.Core
