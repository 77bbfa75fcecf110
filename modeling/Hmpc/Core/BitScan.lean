/-
# Hmpc.Core.BitScan -- the lowest and the highest bit of a limb and of a span

`bit_width`, `countr_zero` and `has_single_bit` of a limb are those of the standard library. On a
span at run time they are folds without branches, which combine what the limbs give.
-/
import Mathlib.Data.Nat.Count
import Hmpc.Core.Write
import Hmpc.Lib.BitScan

namespace Hmpc.Core

open Hmpc.Lib.Loops Hmpc.Lib.Limbs Hmpc.Lib.Digits Hmpc.Lib.BitScan MaybeConstant

variable {w : ℕ}

/-! ## Limbs -/

/-- `bit_width(value)`: the smallest number of bits that hold the limb. -/
def bitWidth (value : BitVec w) : ℕ := value.toNat.size

/-- `countr_zero(value)`: the zeros below the lowest bit that is set, all of them for zero. -/
def countrZero (value : BitVec w) : ℕ := value.ctz.toNat

/-- `has_single_bit(value)`: the limb is a power of two. -/
def hasSingleBit (value : BitVec w) : Bool := value.toNat == 2 ^ (value.toNat.size - 1)

theorem hasSingleBit_iff (value : BitVec w) :
    hasSingleBit value = true ↔ ∃ k, value.toNat = 2 ^ k := by
  rw [hasSingleBit, beq_iff_eq]
  constructor
  · intro h
    exact ⟨_, h⟩
  · rintro ⟨k, hk⟩
    rw [hk, Nat.size_pow, Nat.add_sub_cancel]

@[simp] theorem countrZero_zero : countrZero (0 : BitVec w) = w := by
  have hall : (0#w).reverse.clz = w := BitVec.clz_eq_iff_eq_zero.mpr
    (BitVec.reverse_eq_zero_iff.mpr rfl)
  show (0#w).reverse.clz.toNat = w
  rw [hall]
  exact Nat.mod_eq_of_lt Nat.lt_two_pow_self

theorem bitWidth_eq_zero_iff (value : BitVec w) : bitWidth value = 0 ↔ value = 0 := by
  rw [bitWidth, Nat.size_eq_zero, ← BitVec.toNat_inj]
  rfl

/-- The lowest bit of a limb that is not zero. -/
theorem countrZero_spec {value : BitVec w} (h : value ≠ 0) :
    countrZero value < w ∧ 2 ^ countrZero value ∣ value.toNat ∧
      ¬ 2 ^ (countrZero value + 1) ∣ value.toNat := by
  have hset : value.getLsbD (countrZero value) = true := BitVec.getLsbD_true_ctz_of_ne_zero h
  have hlt : countrZero value < w := BitVec.lt_of_getLsbD hset
  have hbit (j : ℕ) : (value.toNat % 2 ^ j = 0) ↔ ∀ k < j, value.getLsbD k = false := by
    constructor
    · intro hmod k hk
      have hzero : (value.toNat % 2 ^ j).testBit k = false := by rw [hmod, Nat.zero_testBit]
      rw [Nat.testBit_mod_two_pow, decide_eq_true hk, Bool.true_and] at hzero
      exact hzero
    · intro hclear
      apply Nat.eq_of_testBit_eq
      intro k
      rw [Nat.testBit_mod_two_pow, Nat.zero_testBit]
      by_cases hk : k < j
      · rw [decide_eq_true hk, Bool.true_and]
        exact hclear k hk
      · rw [decide_eq_false hk, Bool.false_and]
  refine ⟨hlt, ?_, ?_⟩
  · apply Nat.dvd_of_mod_eq_zero
    rw [hbit]
    exact fun k hk => BitVec.getLsbD_false_of_lt_ctz hk
  · intro hdvd
    have hclear := (hbit _).mp (Nat.mod_eq_zero_of_dvd hdvd) _ (Nat.lt_succ_self _)
    rw [hset] at hclear
    cases hclear

/-- The lowest limb that is not zero has the lowest bit of the number. -/
theorem largestPower_of_limb {l : List (BitVec w)} {i bits : ℕ} (hzeros : (2 ^ w) ^ i ∣ value l)
    (hlimb : l.getD i 0 ≠ 0) :
    LargestPower bits (value l) (min (i * w + countrZero (l.getD i 0)) bits) := by
  obtain ⟨hlt, hdvd, hmore⟩ := countrZero_spec hlimb
  have htoNat := toNat_getD l i
  generalize l.getD i 0 = limb at hlt hdvd hmore htoNat
  obtain ⟨high, hhigh⟩ := hzeros
  rw [hhigh, Nat.mul_div_cancel_left _ (by positivity)] at htoNat
  rw [← pow_mul] at hhigh
  -- the limb is what the rest of the number is modulo the base
  have hiff (e : ℕ) (he : e ≤ w) : 2 ^ e ∣ high ↔ 2 ^ e ∣ limb.toNat := by
    rw [htoNat]
    exact (Nat.dvd_mod_iff (pow_dvd_pow 2 he)).symm
  rw [Nat.mul_comm, hhigh]
  apply LargestPower.of_not_dvd
  · exact dvd_part ((hiff _ hlt.le).mpr hdvd)
  · rw [Nat.add_assoc]
    exact not_dvd_part fun h => hmore ((hiff _ hlt).mp h)

/-- A limb that is zero is another one to go past. -/
theorem pow_succ_dvd {l : List (BitVec w)} {i : ℕ} (hzeros : (2 ^ w) ^ i ∣ value l)
    (hlimb : l.getD i 0 = 0) : (2 ^ w) ^ (i + 1) ∣ value l := by
  have htoNat := toNat_getD l i
  rw [hlimb] at htoNat
  obtain ⟨high, hhigh⟩ := hzeros
  rw [hhigh, Nat.mul_div_cancel_left _ (by positivity)] at htoNat
  rw [hhigh, pow_succ]
  exact Nat.mul_dvd_mul_left _ (Nat.dvd_of_mod_eq_zero htoNat.symm)

theorem value_eq_zero_of_dvd {l : List (BitVec w)} (h : (2 ^ w) ^ l.length ∣ value l) :
    value l = 0 := Nat.eq_zero_of_dvd_of_lt h (value_lt l)

/-! ## Spans -/

theorem bitOf_and {p q : Prop} [Decidable p] [Decidable q] :
    bitOf p &&& bitOf q = 1 ↔ p ∧ q := by
  by_cases hp : p <;> by_cases hq : q <;> simp [bitOf, hp, hq]

namespace Num

/-- `has_single_bit(value)`: the number of limbs with a single bit is compared to one. -/
def hasSingleBit (value : BitSpan w) : Bit :=
  bitOf (scanRange (value.type.limbSize w) (fun i previous =>
    let singleBit := bitOf (Core.hasSingleBit (value.read i .normal))
    previous + singleBit.toNat) 0 = 1)

/-- The loop of `bit_width`: the first limb from above that is not zero determines the width. -/
def bitWidthBelow (value : BitSpan w) : ℕ :=
  scanReverseRange (value.type.limbSize w) (fun i previous =>
    -- for unsigned spans the mask is zero
    let width := Core.bitWidth (value.signMask.value ^^^ value.read i .normal)
    let previouslyUndetermined := bitOf (previous = 0)
    let nowDetermined := bitOf (width ≠ 0)
    if previouslyUndetermined &&& nowDetermined = 1 then width + i * w else previous) 0

/-- `bit_width(value)` -/
def bitWidth (value : BitSpan w) : ℕ :=
  match value.type.signedness with
  | .signed => bitWidthBelow value + value.sign.value.toNat
  | .unsigned => bitWidthBelow value

/-- `countr_zero(value)` -/
def countrZero (value : BitSpan w) : ℕ :=
  Nat.min (scanRange (value.type.limbSize w) (fun i previous =>
    let count := Core.countrZero (value.read i value.type.normalType)
    let previouslyUndetermined := bitOf (previous = i * w)
    if previouslyUndetermined = 1 then previous + count else previous) 0) value.type.bitSize

theorem signMask_eq (x : BitSpan w) : x.signMask.value = maskFrom w x.sign.value := by
  unfold BitSpan.signMask BitSpan.sign
  cases x.type.signedness with
  | unsigned => exact maskFrom_zero.symm
  | signed => rfl

section

variable [NeZero w] {x : BitArray w} (h : x.Readable)
include h

/-- A limb read with `normal` access. -/
theorem read_normal {i : ℕ} (hi : i < x.type.limbSize w) :
    x.read i .normal = digit w x.storedInt i := by
  rw [← x.denotesNormal_span h i]
  show _ = (x.extendedRead i .normal).value
  rw [BitSpan.extendedRead, if_pos hi, value_runtime]

omit [NeZero w] h in
theorem bitWidthBelow_eq {x : BitSpan w} {u : ℕ} (hlt : u < (2 ^ w) ^ x.type.limbSize w)
    (hread : ∀ i < x.type.limbSize w, x.signMask.value ^^^ x.read i .normal = digit w u i) :
    bitWidthBelow x = u.size := by
  have hloop : bitWidthBelow x = if u / (2 ^ w) ^ 0 = 0 then 0 else u.size := by
    -- the width is known as soon as a limb above is not zero
    apply scanReverseRange_induction (P := fun i t => t = if u / (2 ^ w) ^ i = 0 then 0 else u.size)
    · rw [Nat.div_eq_of_lt hlt, if_pos rfl]
    · rintro i hi t rfl
      have hnext : u / (2 ^ w) ^ (i + 1) = u / (2 ^ w) ^ i / 2 ^ w := by
        rw [Nat.div_div_eq_div_mul, pow_succ]
      have hlimb : (digit w u i).toNat = u / (2 ^ w) ^ i % 2 ^ w := by
        exact_mod_cast toNat_digit (w := w) u i
      have hsplit : u = u % (2 ^ w) ^ i + 2 ^ (w * i) * (u / (2 ^ w) ^ i) := by
        rw [pow_mul, Nat.mod_add_div]
      have hlow : u % (2 ^ w) ^ i < 2 ^ (w * i) := by
        rw [pow_mul]
        exact Nat.mod_lt _ (by positivity)
      simp only [hread i hi, bitOf_and, hnext, Core.bitWidth, hlimb]
      generalize u / (2 ^ w) ^ i = high at hsplit ⊢
      generalize u % (2 ^ w) ^ i = low at hsplit hlow
      by_cases hmore : high / 2 ^ w = 0
      · have hhigh : high < 2 ^ w := (Nat.div_eq_zero_iff_lt (Nat.two_pow_pos w)).mp hmore
        rw [Nat.mod_eq_of_lt hhigh, if_pos hmore]
        rcases Nat.eq_zero_or_pos high with hzero | hpos
        · simp [hzero]
        · rw [if_pos ⟨rfl, (Nat.size_pos.mpr hpos).ne'⟩, if_neg hpos.ne', hsplit,
            size_add_mul hlow hpos, Nat.mul_comm]
      · have hpos : 0 < high := Nat.pos_of_ne_zero fun hzero => hmore (by rw [hzero, Nat.zero_div])
        have hsize : 0 < u.size := by
          rw [Nat.size_pos, hsplit]
          positivity
        rw [if_neg hmore, if_neg (fun hcon => hsize.ne' hcon.1), if_neg hpos.ne']
  rw [hloop, pow_zero, Nat.div_one]
  split_ifs with hzero
  · rw [hzero, Nat.size_zero]
  · rfl

/-- The width of an integer, or of its complement and a sign when it is negative. -/
theorem bitWidth_eq : bitWidth x.toBitSpan =
    if x.storedInt < 0 then (-1 - x.storedInt).toNat.size + 1 else x.storedInt.toNat.size := by
  have hrep := x.represents_span h
  have hsign : x.sign.value = 1 ↔ x.storedInt < 0 := hrep.sign_iff
  have habove := hrep.above (x.type.limbSize w) le_rfl
  have hlt (u : ℕ) (hu : (u : ℤ) / (2 ^ w) ^ x.type.limbSize w = 0) :
      u < (2 ^ w) ^ x.type.limbSize w := by
    have hdiv : u / (2 ^ w) ^ x.type.limbSize w = 0 := by exact_mod_cast hu
    exact (Nat.div_eq_zero_iff_lt (by positivity)).mp hdiv
  -- the sign mask complements a negative integer, which has as many digits to scan
  rcases Int.lt_or_le x.storedInt 0 with hneg | hpos
  · have hset := hsign.mpr hneg
    have hsigned : x.type.signedness = .signed := by
      cases hs : x.type.signedness with
      | unsigned => exact absurd (hset.symm.trans (x.sign_of_unsigned hs)) (by decide)
      | signed => rfl
    obtain ⟨u, hu⟩ := Int.eq_ofNat_of_zero_le (show 0 ≤ -1 - x.storedInt by omega)
    rw [show x.span.sign.value = 1 from hset] at habove
    have hdiv : (u : ℤ) / (2 ^ w) ^ x.type.limbSize w = 0 := by
      rw [← hu, ediv_not, habove]
      rfl
    have hloop := bitWidthBelow_eq (x := x.toBitSpan) (hlt u hdiv) (fun i hi => by
      rw [signMask_eq, hset, maskFrom_one, BitVec.allOnes_xor, read_normal h hi, ← digit_not, hu])
    rw [if_pos hneg, hu, Int.toNat_natCast, bitWidth, hsigned, hset, hloop]
    rfl
  · have hclear : x.sign.value = 0 := (bit_eq _).resolve_right (mt hsign.mp (by omega))
    obtain ⟨u, hu⟩ := Int.eq_ofNat_of_zero_le hpos
    rw [show x.span.sign.value = 0 from hclear, hu] at habove
    have hloop := bitWidthBelow_eq (x := x.toBitSpan) (hlt u habove) (fun i hi => by
      rw [signMask_eq, hclear, maskFrom_zero, read_normal h hi, hu]
      exact BitVec.zero_xor)
    rw [if_neg (by omega), hu, Int.toNat_natCast, bitWidth, hclear, hloop]
    cases x.type.signedness <;> rfl

end

/-- The zeros below the lowest bit of the limbs, whatever the last one has above those of the
span. -/
theorem countrZero_eq [NeZero w] (x : BitArray w) :
    LargestPower x.type.bitSize (value x.limbs) (countrZero x.toBitSpan) := by
  have hsize : x.limbs.length = x.type.limbSize w := x.limb_size
  -- either all limbs so far are zero, or the lowest bit is known
  suffices hcases : ∀ t : ℕ,
      (t = x.type.limbSize w * w ∧ (2 ^ w) ^ x.type.limbSize w ∣ value x.limbs) ∨
        (t < x.type.limbSize w * w ∧ ∀ bits, LargestPower bits (value x.limbs) (min t bits)) →
      LargestPower x.type.bitSize (value x.limbs) (Nat.min t x.type.bitSize) by
    apply hcases
    apply scanRange_induction (P := fun i t => (t = i * w ∧ (2 ^ w) ^ i ∣ value x.limbs) ∨
      (t < i * w ∧ ∀ bits, LargestPower bits (value x.limbs) (min t bits)))
    · left
      rw [Nat.zero_mul, pow_zero]
      exact ⟨rfl, one_dvd _⟩
    · intro i hi t ht
      rw [BitSpan.read_own, Nat.succ_mul]
      rcases ht with ⟨rfl, hzeros⟩ | ⟨hlt, hlowest⟩
      · rw [if_pos (bitOf_eq_one_iff.mpr rfl)]
        by_cases hlimb : x.limbs.getD i 0 = 0
        · left
          rw [hlimb, countrZero_zero]
          exact ⟨rfl, pow_succ_dvd hzeros hlimb⟩
        · right
          have hcount := (countrZero_spec hlimb).1
          exact ⟨by omega, fun bits => largestPower_of_limb hzeros hlimb⟩
      · right
        rw [if_neg (mt bitOf_eq_one_iff.mp hlt.ne)]
        exact ⟨by omega, hlowest⟩
  rintro t (⟨rfl, hzeros⟩ | ⟨-, hlowest⟩)
  · have hzero : value x.limbs = 0 := by
      apply value_eq_zero_of_dvd
      rwa [hsize]
    have hroom : x.type.bitSize ≤ w * x.type.limbSize w := (limbSizeFor_le_iff _ _).mp le_rfl
    have hmin : Nat.min (x.type.limbSize w * w) x.type.bitSize = x.type.bitSize := by
      rw [Nat.mul_comm]
      exact Nat.min_eq_right hroom
    rw [hzero, hmin]
    exact LargestPower.zero _
  · exact hlowest x.type.bitSize

end Num
end Hmpc.Core
