/-
# Hmpc.Ints.Bigint -- the operators of `bigint`

An operator picks the number of bits and the signedness of its result from those of its operands
and runs the function of `hmpc::core::num`. The result is the exact one modulo the width picked,
so whether an operator is exact is a question about widths: `resultBits` and the signedness on one
side, how large the exact result can get on the other. The limbs of a result are not initialized
before they are written; `memory` is what they hold.
-/
import Hmpc.Core.ConstantFolding
import Hmpc.Core.Multiply

namespace Hmpc.Ints.Bigint

open Hmpc.Core Hmpc.Lib.Limbs Hmpc.Lib.Digits MaybeConstant SpanType

variable {w : ℕ}

/-- Limbs that have not been written. -/
def uninitialized (memory : ℕ → BitVec w) (n : ℕ) : List (BitVec w) := (List.range n).map memory

@[simp] theorem length_uninitialized (memory : ℕ → BitVec w) (n : ℕ) :
    (uninitialized memory n).length = n := by simp [uninitialized]

/-! ## Result types -/

def addType (x y : SpanType) : SpanType :=
  ⟨if x.bitSize = 0 then y.bitSize
    else if y.bitSize = 0 then x.bitSize else max x.bitSize y.bitSize + 1,
    commonSignedness x.signedness y.signedness, commonNormal x.normalType y.normalType⟩

def subtractType (x y : SpanType) : SpanType :=
  ⟨if y.bitSize = 0 then x.bitSize else max x.bitSize y.bitSize + 1, .signed,
    commonNormal x.normalType y.normalType⟩

def multiplyType (x y : SpanType) : SpanType :=
  ⟨if x.bitSize = 0 then 0
    else if x.bitSize = 1 then y.bitSize
    else if y.bitSize = 0 then 0
    else if y.bitSize = 1 then x.bitSize else x.bitSize + y.bitSize,
    commonSignedness x.signedness y.signedness, commonNormal x.normalType y.normalType⟩

def negateType (x : SpanType) : SpanType :=
  ⟨x.bitSize + if x.signedness = .unsigned then 1 else 0, .signed, x.normalType⟩

def shiftLeftType (x : SpanType) (shift : ℕ) : SpanType :=
  ⟨if x.bitSize = 0 then 0 else x.bitSize + shift, x.signedness, x.normalType⟩

def shiftRightType (x : SpanType) (shift : ℕ) : SpanType :=
  ⟨if x.bitSize > shift then x.bitSize - shift else 0, x.signedness, x.normalType⟩

/-! ## Operators -/

section Operators

variable (memory : ℕ → BitVec w) (x y : BitArray w)

/-- `x + y` -/
def add : BitArray w :=
  let t := addType x.type y.type
  ⟨⟨t, (Core.Num.add t x.span.source y.span.source (constant 0)
    (uninitialized memory (t.limbSize w))).1⟩, by simp⟩

/-- `x - y` -/
def subtract : BitArray w :=
  let t := subtractType x.type y.type
  ⟨⟨t, (Num.subtract t x.span.source y.span.source (constant 0)
    (uninitialized memory (t.limbSize w))).1⟩, by simp⟩

/-- `x - y`, when the branches for the limbs of the operands compile -/
def trySubtract : Option (BitArray w) :=
  let t := subtractType x.type y.type
  (Num.trySubtract t x.span.source y.span.source (constant 0)
    (uninitialized memory (t.limbSize w))).pmap (fun s hs => ⟨⟨t, s.1⟩, hs⟩) fun s hs =>
      (Num.length_trySubtract s hs).trans (length_uninitialized memory _)

/-- `x * y`, for unsigned operands -/
def multiply : BitArray w :=
  let t := multiplyType x.type y.type
  ⟨⟨t, Num.multiply t x.span y.span
    (uninitialized memory (limbSizeFor w (min t.bitSize (x.type.bitSize + y.type.bitSize))))
    (uninitialized memory (t.limbSize w))⟩, by simp⟩

/-- `-x` -/
def negate : BitArray w :=
  let t := negateType x.type
  ⟨⟨t, Num.negate t x.span.source (uninitialized memory (t.limbSize w))
    (uninitialized memory (t.limbSize w))⟩, by simp⟩

/-- `static_cast<bigint<…>>(x)` -/
def convert (t : SpanType) : BitArray w :=
  ⟨⟨t, Num.bitCopy t x.span.source (uninitialized memory (t.limbSize w))⟩, by simp⟩

/-- `x << Shift` -/
def shiftLeft (shift : ℕ) : BitArray w :=
  let t := shiftLeftType x.type shift
  ⟨⟨t, Num.shiftLeft shift t x.span (uninitialized memory (t.limbSize w))⟩, by simp⟩

/-- `x >> Shift` -/
def shiftRight (shift : ℕ) : BitArray w :=
  let t := shiftRightType x.type shift
  ⟨⟨t, Num.shiftRight shift t x.span (uninitialized memory (t.limbSize w))⟩, by simp⟩

end Operators

/-- An operand: a normal array, which has a sign bit if it is signed. -/
structure Normalized (x : BitArray w) : Prop where
  signed_pos : x.type.signedness = .signed → 0 < x.type.bitSize
  isNormal : x.IsNormal

theorem Normalized.readable {x : BitArray w} (h : Normalized x) : x.Readable :=
  ⟨h.signed_pos, fun _ => h.isNormal⟩

theorem toInt_inRange (x : BitArray w) : x.type.InRange x.toInt := by
  unfold InRange BitArray.toInt wrap
  cases x.type.signedness with
  | unsigned => exact Int.emod_emod _ _
  | signed => exact Int.bmod_bmod

theorem toInt_unsigned (x : BitArray w) (hu : x.type.signedness = .unsigned) :
    0 ≤ x.toInt ∧ x.toInt < 2 ^ x.type.bitSize := (x.type.inRange_unsigned hu).mp (toInt_inRange x)

section

variable [NeZero w] (memory : ℕ → BitVec w) {x y : BitArray w}

theorem Normalized.denotes (h : Normalized x) : x.span.Denotes x.toInt :=
  h.isNormal.denotes h.signed_pos

theorem Normalized.denotesNormal (h : Normalized x) : x.span.DenotesNormal x.toInt := by
  have hd := x.denotesNormal_span h.readable
  rwa [x.storedInt_eq_toInt h.signed_pos h.isNormal] at hd

/-! ## Every operator computes the exact result modulo its width -/

theorem add_eq_array (hx : Normalized x) (hy : Normalized y) :
    add memory x y = (addType x.type y.type).array w (x.toInt + y.toInt) := by
  have hadd := (Num.add_eq (t := addType x.type y.type) (length_uninitialized memory _)
    (hx.denotes.reads _ _) (hy.denotes.reads _ _) (constant 0)).1
  rw [show x.toInt + y.toInt + ((constant 0 : MaybeConstant Bit).value.toNat : ℤ) =
    x.toInt + y.toInt from Int.add_zero _] at hadd
  exact eq_array _ _ hadd

theorem subtract_eq_array (hx : Normalized x) (hy : Normalized y) :
    subtract memory x y = (subtractType x.type y.type).array w (x.toInt - y.toInt) := by
  have hsub := (Num.subtract_eq (t := subtractType x.type y.type) (length_uninitialized memory _)
    (hx.denotes.reads _ _) (hy.denotes.reads _ _) (constant 0)).1
  rw [show x.toInt - y.toInt - ((constant 0 : MaybeConstant Bit).value.toNat : ℤ) =
    x.toInt - y.toInt from Int.sub_zero _] at hsub
  exact eq_array _ _ hsub

theorem negate_eq_array (hx : Normalized x) :
    negate memory x = (negateType x.type).array w (-x.toInt) :=
  eq_array _ _ (Num.negate_eq (length_uninitialized memory _) (length_uninitialized memory _)
    (hx.denotes.reads _ _))

theorem convert_eq_array (hx : Normalized x) (t : SpanType) :
    convert memory x t = t.array w x.toInt :=
  eq_array _ _ (Num.bitCopy_eq (length_uninitialized memory _) (hx.denotes.reads _ _))

theorem shiftLeft_eq_array (hx : Normalized x) (shift : ℕ) :
    shiftLeft memory x shift = (shiftLeftType x.type shift).array w (x.toInt * 2 ^ shift) :=
  eq_array _ _ (Num.shiftLeft_eq (length_uninitialized memory _) hx.denotes shift)

theorem shiftRight_eq_array (hx : Normalized x) (shift : ℕ) :
    shiftRight memory x shift = (shiftRightType x.type shift).array w (x.toInt / 2 ^ shift) :=
  eq_array _ _ (Num.shiftRight_eq (length_uninitialized memory _) hx.denotesNormal shift)

theorem unsigned_span (hx : Normalized x) (hu : x.type.signedness = .unsigned) :
    Num.Unsigned x.span x.toInt where
  denotes := hx.denotes
  limbs := rfl
  nonneg := (toInt_unsigned x hu).1
  lt := (toInt_unsigned x hu).2

omit [NeZero w] in
/-- The product of the operator has as many limbs as its array. -/
theorem multiply_compiles (x y : BitArray w) :
    Num.MultiplyCompiles (multiplyType x.type y.type) x.span y.span := by
  rw [Num.multiplyCompiles_iff]
  refine limbSizeFor_mono ?_
  show (multiplyType x.type y.type).bitSize ≤ x.type.bitSize + y.type.bitSize
  unfold multiplyType
  dsimp only
  split_ifs <;> omega

theorem multiply_eq_array (hx : Normalized x) (hy : Normalized y)
    (hux : x.type.signedness = .unsigned) (huy : y.type.signedness = .unsigned) :
    multiply memory x y = (multiplyType x.type y.type).array w (x.toInt * y.toInt) := by
  apply eq_array
  refine Num.multiply_eq (unsigned_span hx hux) (unsigned_span hy huy) ?_ (multiply_compiles x y)
    (length_uninitialized memory _) (length_uninitialized memory _)
  intro hzero
  have hzero : y.type.bitSize = 0 := hzero
  left
  simp only [multiplyType, hzero]
  split_ifs <;> rfl

end

/-! ## Which operators are exact -/

section

variable {x y : BitArray w}

/-- How large an unsigned operand is, and twice a signed one, in a number of bits it fits in. -/
theorem unsigned_bounds (hu : x.type.signedness = .unsigned) {m : ℕ} (hm : x.type.bitSize ≤ m) :
    0 ≤ x.toInt ∧ x.toInt < 2 ^ m := by
  obtain ⟨h₀, hlt⟩ := toInt_unsigned x hu
  exact ⟨h₀, lt_of_lt_of_le hlt (pow_le_pow_right₀ (by norm_num) hm)⟩

theorem signed_bounds (hx : Normalized x) (hs : x.type.signedness = .signed) {m : ℕ}
    (hm : x.type.bitSize ≤ m) : -2 ^ m ≤ 2 * x.toInt ∧ 2 * x.toInt < 2 ^ m := by
  have hpos := hx.signed_pos hs
  have h := (x.type.inRange_signed hs hpos).mp (toInt_inRange x)
  have hpow : (2 : ℤ) ^ x.type.bitSize = 2 * 2 ^ (x.type.bitSize - 1) := by
    rw [← pow_succ']
    congr 1
    omega
  have hle : (2 : ℤ) ^ x.type.bitSize ≤ 2 ^ m := pow_le_pow_right₀ (by norm_num) hm
  omega

theorem unsigned_of_zero (hx : Normalized x) (hzero : x.type.bitSize = 0) :
    x.type.signedness = .unsigned ∧ x.toInt = 0 := by
  have hu : x.type.signedness = .unsigned := by
    cases hs : x.type.signedness
    · rfl
    · have := hx.signed_pos hs
      omega
  have h := toInt_unsigned x hu
  rw [hzero, pow_zero] at h
  exact ⟨hu, by omega⟩

theorem signedness_cases (s : Signedness) : s = .unsigned ∨ s = .signed := by
  cases s
  · exact .inl rfl
  · exact .inr rfl

/-- The sum of operands of different signedness must stay below the power of two of the wider one;
all others fit. -/
theorem add_inRange_iff (hx : Normalized x) (hy : Normalized y) :
    (addType x.type y.type).InRange (x.toInt + y.toInt) ↔
      x.type.signedness = y.type.signedness ∨ x.type.bitSize = 0 ∨ y.type.bitSize = 0 ∨
        x.toInt + y.toInt < 2 ^ max x.type.bitSize y.type.bitSize := by
  have hmx := le_max_left x.type.bitSize y.type.bitSize
  have hmy := le_max_right x.type.bitSize y.type.bitSize
  -- an operand without bits is zero, and adds no bit
  by_cases hx₀ : x.type.bitSize = 0
  · obtain ⟨hu, hzero⟩ := unsigned_of_zero hx hx₀
    have hin := toInt_inRange y
    unfold InRange at hin ⊢
    rw [hzero, zero_add]
    simp only [addType, hx₀, hu, commonSignedness]
    cases hs : y.type.signedness <;> rw [hs] at hin <;> simpa using hin
  by_cases hy₀ : y.type.bitSize = 0
  · obtain ⟨hu, hzero⟩ := unsigned_of_zero hy hy₀
    have hin := toInt_inRange x
    unfold InRange at hin ⊢
    rw [hzero, add_zero]
    simp only [addType, hy₀, hu, commonSignedness]
    cases hs : x.type.signedness <;> rw [hs] at hin <;> simpa [hx₀] using hin
  have hbits : (addType x.type y.type).bitSize = max x.type.bitSize y.type.bitSize + 1 := by
    simp [addType, hx₀, hy₀]
  have hsign : (addType x.type y.type).signedness =
      commonSignedness x.type.signedness y.type.signedness := rfl
  generalize max x.type.bitSize y.type.bitSize = m at hmx hmy hbits ⊢
  have hpow : (2 : ℤ) ^ (m + 1) = 2 * 2 ^ m := pow_succ' 2 m
  have hpos : 0 < (addType x.type y.type).bitSize := by omega
  -- with one sign each, the additional bit may be needed for the sum and for the sign
  rcases signedness_cases x.type.signedness with hsx | hsx <;>
    rcases signedness_cases y.type.signedness with hsy | hsy
  · have hxb := unsigned_bounds hsx hmx
    have hyb := unsigned_bounds hsy hmy
    rw [hsx, hsy] at hsign ⊢
    rw [inRange_unsigned _ hsign, hbits, hpow]
    exact iff_of_true (by omega) (.inl rfl)
  · have hxb := unsigned_bounds hsx hmx
    have hyb := signed_bounds hy hsy hmy
    rw [hsx, hsy] at hsign ⊢
    rw [inRange_signed _ hsign hpos, hbits, Nat.add_sub_cancel]
    simp only [hx₀, hy₀, reduceCtorEq, false_or]
    omega
  · have hxb := signed_bounds hx hsx hmx
    have hyb := unsigned_bounds hsy hmy
    rw [hsx, hsy] at hsign ⊢
    rw [inRange_signed _ hsign hpos, hbits, Nat.add_sub_cancel]
    simp only [hx₀, hy₀, reduceCtorEq, false_or]
    omega
  · have hxb := signed_bounds hx hsx hmx
    have hyb := signed_bounds hy hsy hmy
    rw [hsx, hsy] at hsign ⊢
    rw [inRange_signed _ hsign hpos, hbits, Nat.add_sub_cancel]
    exact iff_of_true (by omega) (.inl rfl)

/-- The difference of operands of different signedness must fit the bits of the wider one and a
sign. Without bits on the right the width of the left operand is kept, and a bit of it becomes the
sign. -/
theorem subtract_inRange_iff (hx : Normalized x) (hy : Normalized y) :
    (subtractType x.type y.type).InRange (x.toInt - y.toInt) ↔
      if y.type.bitSize = 0 then
        x.type.signedness = .signed ∨ x.toInt < 2 ^ (x.type.bitSize - 1)
      else x.type.signedness = y.type.signedness ∨
        -2 ^ max x.type.bitSize y.type.bitSize ≤ x.toInt - y.toInt ∧
          x.toInt - y.toInt < 2 ^ max x.type.bitSize y.type.bitSize := by
  have hmx := le_max_left x.type.bitSize y.type.bitSize
  have hmy := le_max_right x.type.bitSize y.type.bitSize
  have hsign : (subtractType x.type y.type).signedness = .signed := rfl
  by_cases hy₀ : y.type.bitSize = 0
  · obtain ⟨-, hzero⟩ := unsigned_of_zero hy hy₀
    have hbits : (subtractType x.type y.type).bitSize = x.type.bitSize := if_pos hy₀
    rw [if_pos hy₀, hzero, sub_zero]
    rcases Nat.eq_zero_or_pos x.type.bitSize with hx₀ | hpos
    · -- no bits at all
      obtain ⟨-, hxzero⟩ := unsigned_of_zero hx hx₀
      have hin : (subtractType x.type y.type).InRange 0 := by
        unfold InRange wrap
        rw [hsign, hbits, hx₀]
        rfl
      rw [hxzero]
      exact iff_of_true hin (.inr (by positivity))
    · rw [inRange_signed _ hsign (hbits ▸ hpos), hbits]
      rcases signedness_cases x.type.signedness with hsx | hsx
      · have hxb := unsigned_bounds hsx le_rfl
        have hhalf : (0 : ℤ) < 2 ^ (x.type.bitSize - 1) := by positivity
        rw [hsx]
        simp only [reduceCtorEq, false_or]
        omega
      · have hin := (x.type.inRange_signed hsx hpos).mp (toInt_inRange x)
        exact iff_of_true hin (.inl hsx)
  · have hbits : (subtractType x.type y.type).bitSize =
        max x.type.bitSize y.type.bitSize + 1 := if_neg hy₀
    rw [if_neg hy₀]
    generalize max x.type.bitSize y.type.bitSize = m at hmx hmy hbits ⊢
    rw [inRange_signed _ hsign (by omega), hbits, Nat.add_sub_cancel]
    constructor
    · exact fun h => .inr h
    · rintro (h | h)
      · rcases signedness_cases x.type.signedness with hsx | hsx
        · have hxb := unsigned_bounds hsx hmx
          have hyb := unsigned_bounds (h ▸ hsx) hmy
          omega
        · have hxb := signed_bounds hx hsx hmx
          have hyb := signed_bounds hy (h ▸ hsx) hmy
          omega
      · exact h

/-- The negation of a signed operand keeps its width, which the smallest one does not fit. -/
theorem negate_inRange_iff (hx : Normalized x) :
    (negateType x.type).InRange (-x.toInt) ↔
      x.type.signedness = .unsigned ∨ x.toInt ≠ -2 ^ (x.type.bitSize - 1) := by
  have hsign : (negateType x.type).signedness = .signed := rfl
  rcases signedness_cases x.type.signedness with hsx | hsx
  · have hbits : (negateType x.type).bitSize = x.type.bitSize + 1 := by simp [negateType, hsx]
    have hxb := unsigned_bounds hsx le_rfl
    rw [inRange_signed _ hsign (by omega), hbits, Nat.add_sub_cancel]
    exact iff_of_true (by omega) (.inl hsx)
  · have hpos := hx.signed_pos hsx
    have hbits : (negateType x.type).bitSize = x.type.bitSize := by simp [negateType, hsx]
    have hin := (x.type.inRange_signed hsx hpos).mp (toInt_inRange x)
    rw [inRange_signed _ hsign (by omega), hbits, hsx]
    simp only [reduceCtorEq, false_or]
    omega

/-- A shift to the left always fits. -/
theorem shiftLeft_inRange (hx : Normalized x) (shift : ℕ) :
    (shiftLeftType x.type shift).InRange (x.toInt * 2 ^ shift) := by
  by_cases hx₀ : x.type.bitSize = 0
  · obtain ⟨hu, hzero⟩ := unsigned_of_zero hx hx₀
    have hsign : (shiftLeftType x.type shift).signedness = .unsigned := hu
    rw [inRange_unsigned _ hsign, hzero, zero_mul]
    exact ⟨le_rfl, by positivity⟩
  · have hbits : (shiftLeftType x.type shift).bitSize = x.type.bitSize + shift := if_neg hx₀
    have hshift : (0 : ℤ) < 2 ^ shift := by positivity
    rcases signedness_cases x.type.signedness with hsx | hsx
    · have hsign : (shiftLeftType x.type shift).signedness = .unsigned := hsx
      have hxb := unsigned_bounds hsx le_rfl
      rw [inRange_unsigned _ hsign, hbits, pow_add]
      exact ⟨mul_nonneg hxb.1 hshift.le, mul_lt_mul_of_pos_right hxb.2 hshift⟩
    · have hsign : (shiftLeftType x.type shift).signedness = .signed := hsx
      have hin := (x.type.inRange_signed hsx (hx.signed_pos hsx)).mp (toInt_inRange x)
      have hpred : x.type.bitSize + shift - 1 = (x.type.bitSize - 1) + shift := by omega
      rw [inRange_signed _ hsign (by omega), hbits, hpred, pow_add, ← neg_mul]
      exact ⟨mul_le_mul_of_nonneg_right hin.1 hshift.le, mul_lt_mul_of_pos_right hin.2 hshift⟩

/-- A shift to the right leaves no bit for the sign when it is by all bits. -/
theorem shiftRight_inRange_iff (hx : Normalized x) (shift : ℕ) :
    (shiftRightType x.type shift).InRange (x.toInt / 2 ^ shift) ↔
      x.type.signedness = .unsigned ∨ shift < x.type.bitSize ∨ 0 ≤ x.toInt := by
  have hshift : (0 : ℤ) < 2 ^ shift := by positivity
  by_cases hlt : shift < x.type.bitSize
  · have hbits : (shiftRightType x.type shift).bitSize = x.type.bitSize - shift := if_pos hlt
    refine iff_of_true ?_ (.inr (.inl hlt))
    rcases signedness_cases x.type.signedness with hsx | hsx
    · have hsign : (shiftRightType x.type shift).signedness = .unsigned := hsx
      have hxb := unsigned_bounds hsx le_rfl
      have hpow : (2 : ℤ) ^ x.type.bitSize = 2 ^ (x.type.bitSize - shift) * 2 ^ shift := by
        rw [← pow_add]
        congr 1
        omega
      rw [inRange_unsigned _ hsign, hbits]
      exact ⟨Int.ediv_nonneg hxb.1 hshift.le, Int.ediv_lt_of_lt_mul hshift (hpow ▸ hxb.2)⟩
    · have hsign : (shiftRightType x.type shift).signedness = .signed := hsx
      have hin := (x.type.inRange_signed hsx (hx.signed_pos hsx)).mp (toInt_inRange x)
      have hpow :
          (2 : ℤ) ^ (x.type.bitSize - 1) = 2 ^ (x.type.bitSize - shift - 1) * 2 ^ shift := by
        rw [← pow_add]
        congr 1
        omega
      rw [hpow] at hin
      rw [inRange_signed _ hsign (by omega), hbits]
      constructor
      · rw [Int.le_ediv_iff_mul_le hshift, neg_mul]
        exact hin.1
      · exact Int.ediv_lt_of_lt_mul hshift hin.2
  · have hbits : (shiftRightType x.type shift).bitSize = 0 := if_neg hlt
    have hzero : (shiftRightType x.type shift).InRange (x.toInt / 2 ^ shift) ↔
        x.toInt / 2 ^ shift = 0 := by
      unfold InRange wrap
      rw [hbits]
      cases (shiftRightType x.type shift).signedness with
      | unsigned => simp [eq_comm]
      | signed => simp [Int.bmod_def, eq_comm]
    -- a negative integer is shifted to minus one, for which no bit is left
    have hpow : (2 : ℤ) ^ x.type.bitSize ≤ 2 ^ shift :=
      pow_le_pow_right₀ (by norm_num) (Nat.le_of_not_lt hlt)
    rw [hzero]
    rcases signedness_cases x.type.signedness with hsx | hsx
    · have hxb := unsigned_bounds hsx le_rfl
      exact iff_of_true (Int.ediv_eq_zero_of_lt hxb.1 (by omega)) (.inl hsx)
    · have hxb := signed_bounds hx hsx le_rfl
      rw [hsx]
      simp only [reduceCtorEq, false_or, hlt]
      constructor
      · intro h
        by_contra hneg
        have := Int.ediv_neg_of_neg_of_pos (show x.toInt < 0 by omega) hshift
        omega
      · intro h
        exact Int.ediv_eq_zero_of_lt h (by omega)

/-- A product of unsigned operands always fits. -/
theorem multiply_inRange (hux : x.type.signedness = .unsigned)
    (huy : y.type.signedness = .unsigned) :
    (multiplyType x.type y.type).InRange (x.toInt * y.toInt) := by
  have hsign : (multiplyType x.type y.type).signedness = .unsigned := by
    simp [multiplyType, hux, huy, commonSignedness]
  have hxb := unsigned_bounds hux le_rfl
  have hyb := unsigned_bounds huy le_rfl
  have hxy : x.toInt * y.toInt < 2 ^ x.type.bitSize * 2 ^ y.type.bitSize :=
    mul_lt_mul'' hxb.2 hyb.2 hxb.1 hyb.1
  rw [inRange_unsigned _ hsign]
  refine ⟨mul_nonneg hxb.1 hyb.1, ?_⟩
  simp only [multiplyType]
  split_ifs with hx₀ hx₁ hy₀ hy₁
  · rw [hx₀, pow_zero] at hxb
    rw [show x.toInt = 0 by omega, zero_mul, pow_zero]
    exact one_pos
  · -- a factor of one bit
    rw [hx₁] at hxb
    calc x.toInt * y.toInt ≤ 1 * y.toInt := mul_le_mul_of_nonneg_right (by omega) hyb.1
      _ < 2 ^ y.type.bitSize := by rw [one_mul]; exact hyb.2
  · rw [hy₀, pow_zero] at hyb
    rw [show y.toInt = 0 by omega, mul_zero, pow_zero]
    exact one_pos
  · rw [hy₁] at hyb
    calc x.toInt * y.toInt ≤ x.toInt * 1 := mul_le_mul_of_nonneg_left (by omega) hxb.1
      _ < 2 ^ x.type.bitSize := by rw [mul_one]; exact hxb.2
  · rw [pow_add]
    exact hxy

end

/-! ## Differences that compile -/

section

variable [NeZero w] (memory : ℕ → BitVec w) {x y : BitArray w}

theorem limbSizeFor_pos {bits : ℕ} (h : 0 < bits) : 0 < limbSizeFor w bits := by
  rw [← Nat.not_le, limbSizeFor_le_iff]
  omega

omit [NeZero w] in
/-- A limb that an operand has is no constant. -/
theorem isConstant_read {i : ℕ} (hi : i < limbSizeFor w x.type.bitSize) :
    (x.span.read i).isConstant = false := by
  by_contra h
  have hconstant := BitSpan.isConstant_read (Bool.eq_true_of_not_eq_false h)
  exact Nat.not_le.mpr hi hconstant.2.1

/-- The difference compiles when there is a limb of the left operand, after which the borrow is no
constant any more, or none of the right one. -/
theorem trySubtract_eq (h : y.type.bitSize = 0 ∨ 0 < x.type.bitSize) :
    trySubtract memory x y = some (subtract memory x y) := by
  have hsome : Num.trySubtract (subtractType x.type y.type) x.span.source y.span.source
      (constant 0) (uninitialized memory ((subtractType x.type y.type).limbSize w)) =
      some (Num.subtract (subtractType x.type y.type) x.span.source y.span.source
      (constant 0) (uninitialized memory ((subtractType x.type y.type).limbSize w))) := by
    rcases Nat.eq_zero_or_pos y.type.bitSize with hy | hy
    · -- the result has the limbs of the left operand
      refine Num.trySubtract_eq (P := fun _ _ => True) trivial fun i hi l b _ =>
        ⟨fun hconstant => ?_, trivial⟩
      have hleft : (x.span.read i).isConstant = false :=
        isConstant_read (by simpa [SpanType.limbSize, subtractType, hy] using hi)
      exact absurd hconstant (by simp [hleft])
    · have hx : 0 < x.type.bitSize := h.resolve_left hy.ne'
      refine Num.trySubtract_eq (P := fun i b => 0 < i → b.isConstant = false)
        (fun h => absurd h (lt_irrefl 0)) fun i _ l b hb => ?_
      rcases Nat.eq_zero_or_pos i with rfl | hpos
      · have hleft : (x.span.read 0).isConstant = false := isConstant_read (limbSizeFor_pos hx)
        have hright : (y.span.read 0).isConstant = false := isConstant_read (limbSizeFor_pos hy)
        exact ⟨fun hconstant => absurd hconstant (by simp [hleft]),
          fun _ => isConstant_subtractBorrow hleft hright b⟩
      · have hborrow := hb hpos
        exact ⟨fun _ hconstant => absurd hconstant (by simp [hborrow]), fun _ =>
          isConstant_subtractBorrow_of_zero (fun hl => (BitSpan.isConstant_read hl).2.2)
            (fun hr => (BitSpan.isConstant_read hr).2.2) hborrow⟩
  exact Option.pmap_eq_some_iff.mpr ⟨_, _, hsome, rfl⟩

/-- Nothing on the left is the constant zero, and the borrow of the first limb is one as well. -/
theorem trySubtract_none (hx : Normalized x) (hzero : x.type.bitSize = 0)
    (hy : 0 < y.type.bitSize) : trySubtract memory x y = none := by
  refine Option.pmap_eq_none_iff.mpr (Num.trySubtract_none ?_ fun hcompiles => ?_)
  · refine limbSizeFor_pos ?_
    show 0 < (subtractType x.type y.type).bitSize
    rw [subtractType, if_neg hy.ne']
    exact Nat.succ_pos _
  · have hright : (y.span.read 0).isConstant = false := isConstant_read (limbSizeFor_pos hy)
    have hleft : (x.span.read 0).isConstant = true := by
      show (x.extendedRead 0 _).isConstant = true
      have hnone : ¬ 0 < x.type.limbSize w := by
        rw [SpanType.limbSize, hzero, limbSizeFor_zero]
        exact lt_irrefl 0
      rw [BitSpan.extendedRead, if_neg hnone, BitSpan.signMask, (unsigned_of_zero hx hzero).1]
      rfl
    exact absurd (hcompiles hleft rfl).1 (by simp [hright])

end

/-! ## The operators on their operands -/

section

variable [NeZero w] (memory : ℕ → BitVec w)

theorem toInt_array_eq_iff (t : SpanType) (z : ℤ) : (t.array w z).toInt = z ↔ t.InRange z := by
  rw [toInt_array]
  rfl

/-- An array of an integer that fits. -/
theorem array_normalized {t : SpanType} {z : ℤ} (hs : t.signedness = .signed → 0 < t.bitSize)
    (h : t.InRange z) : Normalized (t.array w z) ∧ (t.array w z).toInt = z :=
  ⟨⟨hs, t.isNormal_array h⟩, (t.toInt_array z).trans h⟩

theorem trySubtract_exact_iff {x y : BitArray w} (hx : Normalized x) (hy : Normalized y) :
    (∃ z, trySubtract memory x y = some z ∧ z.toInt = x.toInt - y.toInt) ↔
      if y.type.bitSize = 0 then
        x.type.signedness = .signed ∨ x.toInt < 2 ^ (x.type.bitSize - 1)
      else 0 < x.type.bitSize ∧ (x.type.signedness = y.type.signedness ∨
        -2 ^ max x.type.bitSize y.type.bitSize ≤ x.toInt - y.toInt ∧
          x.toInt - y.toInt < 2 ^ max x.type.bitSize y.type.bitSize) := by
  have hexact : (subtract memory x y).toInt = x.toInt - y.toInt ↔
      (subtractType x.type y.type).InRange (x.toInt - y.toInt) := by
    rw [subtract_eq_array memory hx hy, toInt_array_eq_iff]
  rw [subtract_inRange_iff hx hy] at hexact
  by_cases h : y.type.bitSize = 0 ∨ 0 < x.type.bitSize
  · simp only [trySubtract_eq memory h, Option.some.injEq, exists_eq_left', hexact]
    rcases h with h | h <;> simp [h]
  · obtain ⟨hy₀, hx₀⟩ := not_or.mp h
    rw [trySubtract_none memory hx (Nat.eq_zero_of_not_pos hx₀) (Nat.pos_of_ne_zero hy₀),
      if_neg hy₀]
    simp [hx₀]

/-- When each operator returns the exact integer: shifts to the left and products always; sums and
differences of one signedness, and of different ones as far as they fit the bits of the wider
operand; differences to nothing, negations and shifts to the right unless the sign gets no bit of
its own. Differences of nothing and something do not compile. -/
theorem operators_exact_iff {x y : BitArray w} (hx : Normalized x) (hy : Normalized y)
    (shift : ℕ) :
    ((add memory x y).toInt = x.toInt + y.toInt ↔
      x.type.signedness = y.type.signedness ∨ x.type.bitSize = 0 ∨ y.type.bitSize = 0 ∨
        x.toInt + y.toInt < 2 ^ max x.type.bitSize y.type.bitSize) ∧
    ((∃ z, trySubtract memory x y = some z ∧ z.toInt = x.toInt - y.toInt) ↔
      if y.type.bitSize = 0 then
        x.type.signedness = .signed ∨ x.toInt < 2 ^ (x.type.bitSize - 1)
      else 0 < x.type.bitSize ∧ (x.type.signedness = y.type.signedness ∨
        -2 ^ max x.type.bitSize y.type.bitSize ≤ x.toInt - y.toInt ∧
          x.toInt - y.toInt < 2 ^ max x.type.bitSize y.type.bitSize)) ∧
    ((negate memory x).toInt = -x.toInt ↔
      x.type.signedness = .unsigned ∨ x.toInt ≠ -2 ^ (x.type.bitSize - 1)) ∧
    (shiftLeft memory x shift).toInt = x.toInt * 2 ^ shift ∧
    ((shiftRight memory x shift).toInt = x.toInt / 2 ^ shift ↔
      x.type.signedness = .unsigned ∨ shift < x.type.bitSize ∨ 0 ≤ x.toInt) ∧
    (x.type.signedness = .unsigned → y.type.signedness = .unsigned →
      (multiply memory x y).toInt = x.toInt * y.toInt) := by
  refine ⟨?_, ?_, ?_, ?_, ?_, ?_⟩
  · rw [add_eq_array memory hx hy, toInt_array_eq_iff, add_inRange_iff hx hy]
  · exact trySubtract_exact_iff memory hx hy
  · rw [negate_eq_array memory hx, toInt_array_eq_iff, negate_inRange_iff hx]
  · rw [shiftLeft_eq_array memory hx, toInt_array_eq_iff]
    exact shiftLeft_inRange hx shift
  · rw [shiftRight_eq_array memory hx, toInt_array_eq_iff, shiftRight_inRange_iff hx]
  · intro hux huy
    rw [multiply_eq_array memory hx hy hux huy, toInt_array_eq_iff]
    exact multiply_inRange hux huy

end

/-- 255 of eight bits without sign, 127 of eight bits with sign, and nothing. -/
def byteMax : BitArray 32 := ⟨⟨⟨8, .unsigned, .normal⟩, [255]⟩, rfl⟩
def signedByteMax : BitArray 32 := ⟨⟨⟨8, .signed, .normal⟩, [127]⟩, rfl⟩
def signedByteMin : BitArray 32 := ⟨⟨⟨8, .signed, .normal⟩, [0xFFFFFF80]⟩, rfl⟩
def nothing : BitArray 32 := ⟨⟨⟨0, .unsigned, .normal⟩, []⟩, rfl⟩

theorem byteMax_normalized : Normalized byteMax :=
  ⟨by decide, by unfold BitArray.IsNormal; decide⟩
theorem signedByteMax_normalized : Normalized signedByteMax :=
  ⟨by decide, by unfold BitArray.IsNormal; decide⟩
theorem signedByteMin_normalized : Normalized signedByteMin :=
  ⟨by decide, by unfold BitArray.IsNormal; decide⟩
theorem nothing_normalized : Normalized nothing :=
  ⟨by decide, by unfold BitArray.IsNormal; decide⟩

/-- 255 + 127 in nine signed bits, 255 - 0 in eight signed bits, 0 - 255 of nothing and a byte,
-(-128) in eight bits and -128 / 2 ^ 8 in none. -/
theorem operators_overflow :
    (Normalized byteMax ∧ Normalized signedByteMax ∧ Normalized signedByteMin ∧
      Normalized nothing) ∧
    (add (fun _ => 0) byteMax signedByteMax).toInt = -130 ∧
      byteMax.toInt + signedByteMax.toInt = 382 ∧
    (subtract (fun _ => 0) byteMax nothing).toInt = -1 ∧ byteMax.toInt - nothing.toInt = 255 ∧
    trySubtract (fun _ => 0) nothing byteMax = none ∧
    (negate (fun _ => 0) signedByteMin).toInt = -128 ∧ -signedByteMin.toInt = 128 ∧
    (shiftRight (fun _ => 0) signedByteMin 8).toInt = 0 ∧ signedByteMin.toInt / 2 ^ 8 = -1 :=
  ⟨⟨byteMax_normalized, signedByteMax_normalized, signedByteMin_normalized, nothing_normalized⟩,
    by decide, by decide, by decide, by decide,
    trySubtract_none _ nothing_normalized rfl (by decide),
    by decide, by decide, by decide, by decide⟩

/-- 255 - 127 of different signedness fits. -/
theorem operators_exact_iff_bytes :
    ∃ z, trySubtract (fun _ => 0) byteMax signedByteMax = some z ∧
      z.toInt = byteMax.toInt - signedByteMax.toInt :=
  (operators_exact_iff (fun _ => 0) byteMax_normalized signedByteMax_normalized 3).2.1.mpr
    (by decide)

end Hmpc.Ints.Bigint
