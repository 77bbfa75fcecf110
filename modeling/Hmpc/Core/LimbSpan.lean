/-
# Hmpc.Core.LimbSpan -- spans of whole limbs, and a machine integer as a span

A `limb_span` has no number of bits: all bits of its limbs count, so it is read and written like a
bit span of that many bits that is not normal. `size_limb_span` cuts a `size` into limbs.
-/
import Hmpc.Core.Num

namespace Hmpc.Core

open Hmpc.Lib.Limbs Hmpc.Lib.Digits MaybeConstant SpanType

variable {w : ℕ}

/-- `hmpc::size` -/
abbrev Size := BitVec 64

/-- The type of a `limb_span` of `n` limbs. -/
def limbType (w n : ℕ) : SpanType := ⟨w * n, .unsigned, .unnormal⟩

@[simp] theorem limbSize_limbType [NeZero w] (n : ℕ) : (limbType w n).limbSize w = n :=
  limbSizeFor_mul n

/-- The limbs of the result itself as an operand. -/
def ownLimbs (w n : ℕ) : Source w := fun l => (BitSpan.mk (limbType w n) l).span

theorem ownLimbs_reads [NeZero w] {n : ℕ} (before : List (BitVec w)) :
    (ownLimbs w n).Reads before n (value before) := by
  intro i hi l _ hrest
  have hread := Num.read_unnormal (w * n) .unsigned l
    (show i < limbSizeFor w (w * n) by
      have := limbSize_limbType (w := w) n
      rw [SpanType.limbSize] at this
      exact this.symm ▸ hi)
  exact hread.trans ((hrest i le_rfl).trans (digit_value before i).symm)

/-- All bits of the limbs are kept. -/
theorem value_image_limbType [NeZero w] (n : ℕ) (z : ℤ) :
    (value ((limbType w n).image w z) : ℤ) = z % (2 ^ w) ^ n := by
  rw [← value_digits]
  congr 2
  rw [image, limbSize_limbType]
  apply List.map_congr_left
  intro i _
  simp [stored, limbType]

/-- The limbs of a `limb_span` as an operand. -/
theorem limbSpan_reads [NeZero w] (l before : List (BitVec w)) {n : ℕ} :
    (BitSpan.mk (limbType w n) l).span.source.Reads before n (value l) := by
  intro i hi _ _ _
  have hlimb : i < limbSizeFor w (w * n) := (limbSizeFor_mul (w := w) n).symm ▸ hi
  exact (Num.read_unnormal (w * n) .unsigned l hlimb).trans (digit_value l i).symm

/-- A copy into limbs: the low limbs of a number. -/
theorem bitCopy_limbs [NeZero w] {n x : ℕ} {operand : Source w} {l : List (BitVec w)}
    (hl : l.length = n) (hx : operand.Reads l n x) :
    Num.bitCopy (limbType w n) operand l = ofValue n x := by
  rw [Num.bitCopy_eq (by simp [hl]) (by simpa using hx)]
  apply value_injective
  · simp
  · have hvalue := value_image_limbType (w := w) n (x : ℤ)
    zify
    rw [hvalue, value_ofValue]
    push_cast
    rfl

/-- `size_limb_span{value}` -/
def sizeLimbSpan (w : ℕ) (value : Size) : Span w where
  bitSize := 64
  signedness := .unsigned
  limbSize := limbSizeFor w 64
  sign := constant 0
  read i := if i < limbSizeFor w 64 then runtime ((value >>> (i * w)).setWidth w) else zero w
  readNormal i := if i < limbSizeFor w 64 then runtime ((value >>> (i * w)).setWidth w) else zero w

theorem sizeLimbSpan_denotes [NeZero w] (v : Size) : (sizeLimbSpan w v).Denotes v.toNat := by
  intro i
  show (if i < limbSizeFor w 64 then runtime ((v >>> (i * w)).setWidth w) else zero w).value = _
  split_ifs with hi
  · apply eq_digit
    rw [value_runtime, BitVec.toNat_setWidth, BitVec.toNat_ushiftRight,
      Nat.shiftRight_eq_div_pow, Nat.mul_comm i w, pow_mul]
    push_cast
    rfl
  · symm
    have hbits : 64 ≤ w * i := (limbSizeFor_le_iff _ _).mp (Nat.le_of_not_lt hi)
    have hlt : (v.toNat : ℤ) < (2 ^ w) ^ i := by
      have h₁ : v.toNat < 2 ^ 64 := v.isLt
      have h₂ : 2 ^ 64 ≤ 2 ^ (w * i) := Nat.pow_le_pow_right (by omega) hbits
      rw [← pow_mul]
      exact_mod_cast lt_of_lt_of_le h₁ h₂
    exact digit_of_lt (by positivity) hlt le_rfl

end Hmpc.Core
