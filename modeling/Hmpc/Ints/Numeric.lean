/-
# Hmpc.Ints.Numeric -- bits and absolute values of big integers

`has_single_bit` and `bit_width` of a big integer are those of its span, at compile time and at
run time; `abs` selects between the value and its negation by the sign, and has room for the
absolute value of the smallest integer since its result has no sign.
-/
import Mathlib.Order.Bounds.Basic
import Hmpc.Core.CheckedNum
import Hmpc.Ints.Bigint

namespace Hmpc.Ints.Bigint

open Hmpc.Core Hmpc.Lib.Limbs Hmpc.Lib.Digits Hmpc.Lib.BitScan MaybeConstant SpanType

variable {w : ℕ}

/-! ## Absolute values -/

/-- `select_bit_span` -/
def selectBitSpan (falseData trueData : Span w) (choice : MaybeConstant Bit) : Span w where
  bitSize := max falseData.bitSize trueData.bitSize
  signedness := commonSignedness falseData.signedness trueData.signedness
  limbSize := max falseData.limbSize trueData.limbSize
  sign := Core.select falseData.sign trueData.sign choice
  read i := Core.select (falseData.read i) (trueData.read i) choice
  readNormal i := Core.select (falseData.readNormal i) (trueData.readNormal i) choice

/-- The type of `abs(value)`. -/
def absType (value : SpanType) : SpanType := ⟨value.bitSize, .unsigned, value.normalType⟩

/-- `abs(value)` -/
def abs (memory : ℕ → BitVec w) (value : BitArray w) : BitArray w :=
  match value.type.signedness with
  | .signed =>
    let t := absType value.type
    let negation := negate memory value
    ⟨⟨t, Num.bitCopy t (selectBitSpan value.span negation.span value.sign).source
      (uninitialized memory (t.limbSize w))⟩, by simp⟩
  | .unsigned => value

theorem selectBitSpan_reads [NeZero w] {x y : Span w} {before : List (BitVec w)} {n : ℕ}
    {a b : ℤ} (hx : x.source.Reads before n a) (hy : y.source.Reads before n b)
    (choice : MaybeConstant Bit) :
    (selectBitSpan x y choice).source.Reads before n (if choice.value = 1 then b else a) := by
  intro i hi l hl hrest
  show (Core.select (x.read i) (y.read i) choice).value = _
  rw [value_select]
  split_ifs
  · exact hy i hi l hl hrest
  · exact hx i hi l hl hrest

section

variable [NeZero w] (memory : ℕ → BitVec w) {x : BitArray w}

/-- The negation of a signed operand has as many limbs, and the bits of the negated integer. -/
theorem negate_limbs (hs : x.type.signedness = .signed) :
    (negate memory x).type.limbSize w = x.type.limbSize w ∧
      (value (negate memory x).limbs : ℤ) % 2 ^ x.type.bitSize =
        -(value x.limbs : ℤ) % 2 ^ x.type.bitSize := by
  have hbits : (negateType x.type).bitSize = x.type.bitSize := by simp [negateType, hs]
  have hsize : (negateType x.type).limbSize w = x.type.limbSize w := by
    rw [limbSize, hbits, limbSize]
  have hreads := x.reads_limbs (uninitialized memory ((negateType x.type).limbSize w))
  rw [← hsize] at hreads
  have hnegate : (negate memory x).limbs =
      (negateType x.type).image w (-(value x.limbs : ℤ)) :=
    Num.negate_eq (length_uninitialized memory _) (length_uninitialized memory _) hreads
  refine ⟨hsize, ?_⟩
  rw [hnegate, ← hbits, value_image_mod]

/-- What `abs` writes: the limbs, or those of the negation. -/
theorem abs_eq_array (hs : x.type.signedness = .signed) :
    abs memory x = (absType x.type).array w
      (if x.sign.value = 1 then (value (negate memory x).limbs : ℤ) else value x.limbs) := by
  have hx := x.reads_limbs (uninitialized memory ((absType x.type).limbSize w))
  have hy := (negate memory x).reads_limbs (uninitialized memory ((absType x.type).limbSize w))
  rw [(negate_limbs memory hs).1] at hy
  have hcopy := Num.bitCopy_eq (t := absType x.type) (length_uninitialized memory _)
    (selectBitSpan_reads hx hy x.sign)
  rw [abs, hs]
  exact eq_array _ _ hcopy

/-- Of a signed operand that is not negative the limbs are taken as they are. -/
theorem normalized_abs (hx : Normalized x) (hs : x.type.signedness = .signed)
    (hnonneg : 0 ≤ x.toInt) :
    Normalized (abs memory x) ∧ (abs memory x).toInt = x.toInt := by
  have hstored := x.storedInt_eq_toInt hx.signed_pos hx.isNormal
  have hsign : ¬ x.sign.value = 1 := fun h => by
    have hneg := (x.represents_span hx.readable).sign_iff.mp h
    omega
  have hvalue : (value x.limbs : ℤ) = x.toInt := by
    rw [← hstored, x.storedInt_eq, if_pos ⟨hs, (bit_eq _).resolve_right hsign⟩]
  rw [abs_eq_array memory hs, if_neg hsign, hvalue]
  have hlt : x.toInt < 2 ^ (absType x.type).bitSize := by
    have htwice : 2 * x.toInt < 2 ^ (absType x.type).bitSize := (signed_bounds hx hs le_rfl).2
    omega
  exact array_normalized nofun ((inRange_unsigned _ rfl).mpr ⟨hnonneg, hlt⟩)

end

/-! ## What the functions on bits say -/

section

variable [NeZero w] (memory : ℕ → BitVec w) {x : BitArray w}

variable (h : x.Readable)
include h

end

/-! `2 ^ 32 + 3` in limbs of 32 bits: the higher one has a single bit, the lower one is ignored. -/

end Hmpc.Ints.Bigint
