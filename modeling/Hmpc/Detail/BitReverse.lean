/-
# Hmpc.Detail.BitReverse -- `bit_reverse` of a 32-bit number

The number of bits is a power of two, and groups of bits of half the size are exchanged in each
step, or it is rounded up to one and the result is shifted back. `toNat_bitReverse` is that the
bits come out in reverse order.
-/
import Mathlib.Algebra.Order.Group.Nat
import Mathlib.Data.Nat.Log
import Hmpc.Lib.BitReverse

namespace Hmpc.Detail

open Hmpc.Lib

/-- The step `((value >> shift) & mask) | ((value & mask) << shift)`. -/
def exchange (shift : ℕ) (mask value : BitVec 32) : BitVec 32 :=
  ((value >>> shift) &&& mask) ||| ((value &&& mask) <<< shift)

/-- The step `(value >> shift) | ((value & mask) << shift)`. -/
def exchangeLast (shift : ℕ) (mask value : BitVec 32) : BitVec 32 :=
  (value >>> shift) ||| ((value &&& mask) <<< shift)

/-- `bit_reverse` of 2, 4, 8, 16 and 32 bits. -/
def bitReverse2 (value : BitVec 32) : BitVec 32 := exchangeLast 1 0x1 value

def bitReverse4 (value : BitVec 32) : BitVec 32 :=
  let value := exchange 1 0x5 value
  exchangeLast 2 0x3 value

def bitReverse8 (value : BitVec 32) : BitVec 32 :=
  let value := exchange 1 0x55 value
  let value := exchange 2 0x33 value
  exchangeLast 4 0xf value

def bitReverse16 (value : BitVec 32) : BitVec 32 :=
  let value := exchange 1 0x5555 value
  let value := exchange 2 0x3333 value
  let value := exchange 4 0xf0f value
  exchangeLast 8 0xff value

def bitReverse32 (value : BitVec 32) : BitVec 32 :=
  let value := exchange 1 0x55555555 value
  let value := exchange 2 0x33333333 value
  let value := exchange 4 0x0f0f0f0f value
  let value := exchange 8 0x00ff00ff value
  (value >>> 16) ||| (value <<< 16)

/-- `bit_reverse`; there is one for 2 bits to 32 bits. -/
def bitReverse (value : BitVec 32) (n : ℕ) : BitVec 32 :=
  match 2 ^ Nat.clog 2 n with
  | 2 => bitReverse2 value >>> (2 - n)
  | 4 => bitReverse4 value >>> (4 - n)
  | 8 => bitReverse8 value >>> (8 - n)
  | 16 => bitReverse16 value >>> (16 - n)
  | 32 => bitReverse32 value >>> (32 - n)
  | _ => value

/-! ## The bits of a step -/

/-- Where a bit comes from when groups of `s` bits are exchanged. -/
def partner (s i : ℕ) : ℕ := if i / s % 2 = 0 then i + s else i - s

/-- No bits from `n` on. -/
def Below (n : ℕ) (value : BitVec 32) : Prop := ∀ i, n ≤ i → value.getLsbD i = false

/-- The mask of every other group of `s` bits among the lowest `n`. -/
def Masks (n s : ℕ) (mask : BitVec 32) : Prop :=
  ∀ i < 32, mask.getLsbD i = (decide (i < n) && decide (i / s % 2 = 0))

instance (n s : ℕ) (mask : BitVec 32) : Decidable (Masks n s mask) :=
  inferInstanceAs (Decidable (∀ i < 32, _))

theorem getLsbD_exchange {n s c : ℕ} {mask : BitVec 32} (value : BitVec 32) (hs : 0 < s)
    (hn : n = 2 * c * s) (hmask : Masks n s mask) {i : ℕ} (hi : i < 32) :
    (exchange s mask value).getLsbD i = (decide (i < n) && value.getLsbD (partner s i)) := by
  have hback : s ≤ i → (i - s) / s = i / s - 1 := by
    intro hle
    have h := Nat.sub_mul_div i s 1
    rwa [Nat.mul_one] at h
  have hdiv : i / s = 0 ↔ i < s := by
    rw [Nat.div_eq_zero_iff]
    omega
  have hin : i < n ↔ i / s < 2 * c := by
    rw [hn, Nat.div_lt_iff_lt_mul hs]
  have hbackin : s ≤ i → (i - s < n ↔ i / s - 1 < 2 * c) := by
    intro hle
    rw [← hback hle, hn, Nat.div_lt_iff_lt_mul hs]
  unfold exchange partner
  rw [BitVec.getLsbD_or, BitVec.getLsbD_and, BitVec.getLsbD_ushiftRight, BitVec.getLsbD_shiftLeft,
    BitVec.getLsbD_and, hmask i hi, hmask (i - s) (by omega), Nat.add_comm s i]
  by_cases heven : i / s % 2 = 0
  · -- the bit comes from the group above
    rw [if_pos heven]
    by_cases hlt : i < s
    · simp [hlt, heven, Bool.and_comm]
    · have hne := mt hdiv.mp hlt
      have hodd : ¬ (i - s) / s % 2 = 0 := by
        rw [hback (by omega)]
        generalize i / s = q at heven hne ⊢
        omega
      simp [heven, hodd, Bool.and_comm]
  · rw [if_neg heven]
    have hle : s ≤ i := by
      by_contra hlt
      rw [hdiv.mpr (by omega)] at heven
      exact heven rfl
    have hback' : (i - s) / s % 2 = 0 := by
      rw [hback hle]
      generalize i / s = q at heven ⊢
      omega
    have hin' : decide (i - s < n) = decide (i < n) := by
      rw [decide_eq_decide, hbackin hle, hin]
      generalize i / s = q at heven ⊢
      omega
    simp [heven, hback', hin', hi, Nat.not_lt.mpr hle, Bool.and_comm]

theorem below_exchange {n s c : ℕ} {mask value : BitVec 32} (hs : 0 < s) (hn : n = 2 * c * s)
    (hmask : Masks n s mask) : Below n (exchange s mask value) := by
  intro i hni
  by_cases hi : i < 32
  · rw [getLsbD_exchange value hs hn hmask hi]
    simp [Nat.not_lt.mpr hni]
  · exact BitVec.getLsbD_of_ge _ _ (Nat.le_of_not_lt hi)

/-- The last step has only one group to exchange. -/
theorem exchangeLast_eq {n s : ℕ} {mask value : BitVec 32} (hs : 0 < s) (hn : n = 2 * s)
    (hmask : Masks n s mask) (hvalue : Below n value) :
    exchangeLast s mask value = exchange s mask value := by
  unfold exchangeLast exchange
  congr 1
  apply BitVec.eq_of_getLsbD_eq
  intro i hi
  rw [BitVec.getLsbD_and, BitVec.getLsbD_ushiftRight, hmask i hi]
  by_cases hlt : i < s
  · have hdiv : i / s = 0 := Nat.div_eq_of_lt hlt
    simp [hdiv, show i < n by omega]
  · rw [hvalue (s + i) (by omega)]
    rfl

/-! ## All steps -/

/-- The lowest `n` bits come out in reverse order. -/
def Reverses (n : ℕ) (f : BitVec 32 → BitVec 32) : Prop :=
  ∀ value, Below n value → Below n (f value) ∧
    ∀ i < n, (f value).getLsbD i = value.getLsbD (n - 1 - i)

section

variable {n s c : ℕ} {mask value : BitVec 32}

theorem getLsbD_exchange_lt (hs : 0 < s) (hn : n = 2 * c * s) (hmask : Masks n s mask)
    (hwidth : n ≤ 32) {i : ℕ} (hi : i < n) :
    (exchange s mask value).getLsbD i = value.getLsbD (partner s i) := by
  rw [getLsbD_exchange value hs hn hmask (by omega), decide_eq_true hi, Bool.true_and]

theorem below_exchangeLast (hs : 0 < s) (hn : n = 2 * s) (hmask : Masks n s mask)
    (hvalue : Below n value) : Below n (exchangeLast s mask value) := by
  rw [exchangeLast_eq hs hn hmask hvalue]
  exact below_exchange (c := 1) hs (by omega) hmask

theorem getLsbD_exchangeLast (hs : 0 < s) (hn : n = 2 * s) (hmask : Masks n s mask)
    (hvalue : Below n value) (hwidth : n ≤ 32) {i : ℕ} (hi : i < n) :
    (exchangeLast s mask value).getLsbD i = value.getLsbD (partner s i) := by
  rw [exchangeLast_eq hs hn hmask hvalue]
  exact getLsbD_exchange_lt (c := 1) hs (by omega) hmask hwidth hi

end

theorem reverses_bitReverse2 : Reverses 2 bitReverse2 := by
  intro value hvalue
  have hmask : Masks 2 1 0x1 := by decide
  refine ⟨below_exchangeLast one_pos rfl hmask hvalue, ?_⟩
  intro i hi
  have hpartner : ∀ i < 2, partner 1 i = 2 - 1 - i := by decide
  rw [bitReverse2, getLsbD_exchangeLast one_pos rfl hmask hvalue (by omega) hi, hpartner i hi]

theorem reverses_bitReverse4 : Reverses 4 bitReverse4 := by
  intro value _
  have h₁ : Masks 4 1 0x5 := by decide
  have h₂ : Masks 4 2 0x3 := by decide
  have hbelow := @below_exchange _ _ 2 _ value one_pos rfl h₁
  refine ⟨below_exchangeLast two_pos rfl h₂ hbelow, ?_⟩
  intro i hi
  have hpartner : ∀ i < 4, partner 2 i < 4 ∧ partner 1 (partner 2 i) = 4 - 1 - i := by decide
  obtain ⟨hlt, heq⟩ := hpartner i hi
  rw [bitReverse4, getLsbD_exchangeLast two_pos rfl h₂ hbelow (by omega) hi,
    getLsbD_exchange_lt (c := 2) one_pos rfl h₁ (by omega) hlt, heq]

theorem reverses_bitReverse8 : Reverses 8 bitReverse8 := by
  intro value _
  have h₁ : Masks 8 1 0x55 := by decide
  have h₂ : Masks 8 2 0x33 := by decide
  have h₄ : Masks 8 4 0xf := by decide
  have hbelow := @below_exchange _ _ 2 _ (exchange 1 0x55 value) two_pos rfl h₂
  refine ⟨below_exchangeLast four_pos rfl h₄ hbelow, ?_⟩
  intro i hi
  have hpartner : ∀ i < 8, partner 4 i < 8 ∧ partner 2 (partner 4 i) < 8 ∧
      partner 1 (partner 2 (partner 4 i)) = 8 - 1 - i := by decide
  obtain ⟨hlt, hlt', heq⟩ := hpartner i hi
  rw [bitReverse8, getLsbD_exchangeLast four_pos rfl h₄ hbelow (by omega) hi,
    getLsbD_exchange_lt (c := 2) two_pos rfl h₂ (by omega) hlt,
    getLsbD_exchange_lt (c := 4) one_pos rfl h₁ (by omega) hlt', heq]

theorem reverses_bitReverse16 : Reverses 16 bitReverse16 := by
  intro value _
  have h₁ : Masks 16 1 0x5555 := by decide
  have h₂ : Masks 16 2 0x3333 := by decide
  have h₄ : Masks 16 4 0xf0f := by decide
  have h₈ : Masks 16 8 0xff := by decide
  have hbelow := @below_exchange _ _ 2 _
    (exchange 2 0x3333 (exchange 1 0x5555 value)) four_pos rfl h₄
  refine ⟨below_exchangeLast (by omega) rfl h₈ hbelow, ?_⟩
  intro i hi
  have hpartner : ∀ i < 16, partner 8 i < 16 ∧ partner 4 (partner 8 i) < 16 ∧
      partner 2 (partner 4 (partner 8 i)) < 16 ∧
      partner 1 (partner 2 (partner 4 (partner 8 i))) = 16 - 1 - i := by decide
  obtain ⟨hlt, hlt', hlt'', heq⟩ := hpartner i hi
  rw [bitReverse16, getLsbD_exchangeLast (by omega) rfl h₈ hbelow (by omega) hi,
    getLsbD_exchange_lt (c := 2) four_pos rfl h₄ (by omega) hlt,
    getLsbD_exchange_lt (c := 4) two_pos rfl h₂ (by omega) hlt',
    getLsbD_exchange_lt (c := 8) one_pos rfl h₁ (by omega) hlt'', heq]

theorem reverses_bitReverse32 : Reverses 32 bitReverse32 := by
  intro value _
  have h₁ : Masks 32 1 0x55555555 := by decide
  have h₂ : Masks 32 2 0x33333333 := by decide
  have h₄ : Masks 32 4 0x0f0f0f0f := by decide
  have h₈ : Masks 32 8 0x00ff00ff := by decide
  refine ⟨fun i hi => BitVec.getLsbD_of_ge _ _ hi, ?_⟩
  intro i hi
  have hpartner : ∀ i < 32, partner 16 i < 32 ∧ partner 8 (partner 16 i) < 32 ∧
      partner 4 (partner 8 (partner 16 i)) < 32 ∧
      partner 2 (partner 4 (partner 8 (partner 16 i))) < 32 ∧
      partner 1 (partner 2 (partner 4 (partner 8 (partner 16 i)))) = 32 - 1 - i := by decide
  obtain ⟨hlt, hlt₈, hlt₄, hlt₂, heq⟩ := hpartner i hi
  -- the last step moves whole halves
  have hhalves (v : BitVec 32) : ((v >>> 16) ||| (v <<< 16)).getLsbD i =
      v.getLsbD (partner 16 i) := by
    rw [BitVec.getLsbD_or, BitVec.getLsbD_ushiftRight, BitVec.getLsbD_shiftLeft]
    unfold partner
    by_cases hlow : i < 16
    · simp [hlow, show i / 16 % 2 = 0 by omega, Nat.add_comm]
    · rw [v.getLsbD_of_ge (16 + i) (by omega)]
      simp [hlow, hi, show ¬ i / 16 % 2 = 0 by omega]
  rw [bitReverse32, hhalves, getLsbD_exchange_lt (c := 2) (by omega) rfl h₈ (by omega) hlt,
    getLsbD_exchange_lt (c := 4) four_pos rfl h₄ (by omega) hlt₈,
    getLsbD_exchange_lt (c := 8) two_pos rfl h₂ (by omega) hlt₄,
    getLsbD_exchange_lt (c := 16) one_pos rfl h₁ (by omega) hlt₂, heq]

/-- Fewer bits: reverse more of them, and shift the zeros out. -/
theorem Reverses.shift {m n : ℕ} {f : BitVec 32 → BitVec 32} (h : Reverses m f) (hnm : n ≤ m)
    {value : BitVec 32} (hvalue : value.toNat < 2 ^ n) :
    (f value >>> (m - n)).toNat = reverseBits n value.toNat := by
  have hbelow : Below m value := by
    intro i hi
    apply Nat.testBit_lt_two_pow
    exact lt_of_lt_of_le hvalue (Nat.pow_le_pow_right two_pos (hnm.trans hi))
  obtain ⟨hzero, hbits⟩ := h value hbelow
  apply Nat.eq_of_testBit_eq
  intro i
  rw [testBit_reverseBits]
  show (f value >>> (m - n)).getLsbD i = _
  rw [BitVec.getLsbD_ushiftRight]
  by_cases hi : i < n
  · rw [hbits _ (by omega), decide_eq_true hi, Bool.true_and,
      show m - 1 - (m - n + i) = n - 1 - i by omega]
    rfl
  · rw [hzero _ (by omega), decide_eq_false hi, Bool.false_and]

/-- `bit_reverse` reverses the bits. -/
theorem toNat_bitReverse {n : ℕ} (htwo : 2 ≤ n) (hn : n < 32) {value : BitVec 32}
    (hvalue : value.toNat < 2 ^ n) :
    (bitReverse value n).toNat = reverseBits n value.toNat := by
  have hceil : ∀ n < 32, 2 ≤ n → (n ≤ 2 ∧ 2 ^ Nat.clog 2 n = 2) ∨
      (n ≤ 4 ∧ 2 ^ Nat.clog 2 n = 4) ∨ (n ≤ 8 ∧ 2 ^ Nat.clog 2 n = 8) ∨
      (n ≤ 16 ∧ 2 ^ Nat.clog 2 n = 16) ∨ (n ≤ 32 ∧ 2 ^ Nat.clog 2 n = 32) := by
    decide +kernel
  unfold bitReverse
  rcases hceil n hn htwo with ⟨hle, h⟩ | ⟨hle, h⟩ | ⟨hle, h⟩ | ⟨hle, h⟩ | ⟨hle, h⟩ <;> rw [h]
  · exact reverses_bitReverse2.shift hle hvalue
  · exact reverses_bitReverse4.shift hle hvalue
  · exact reverses_bitReverse8.shift hle hvalue
  · exact reverses_bitReverse16.shift hle hvalue
  · exact reverses_bitReverse32.shift hle hvalue

end Hmpc.Detail
