/-
# Hmpc.Core.CheckedDivide -- long division on spans at compile time

`divide_similar_sized`, `divide_normalized` and `divide`, with the arrays they use and the limbs
they write. The remainder may share its limbs with the numerator. What they leave in their results
are the numbers of `Compiletime.divide`, and they fail exactly when it has no result.
-/
import Hmpc.Core.CheckedNum
import Hmpc.Core.GreatestCommonDivisor

namespace Hmpc.Core.Checked

open Hmpc.Lib.Loops Hmpc.Lib.Limbs Hmpc.Lib.Digits Hmpc.Lib.LongDivision MaybeConstant SpanType

variable {w : ℕ}

/-! ## Parts of spans -/

/-- `subspan(offset)` -/
def subspan (x : BitSpan w) (offset : ℕ) : BitSpan w :=
  ⟨x.type.subspan w offset, x.limbs.drop offset⟩

/-- `first_limbs(subspan_length)` -/
def firstLimbs (x : BitSpan w) (subspanLength : ℕ) : BitSpan w :=
  ⟨x.type.firstLimbs w subspanLength, x.limbs.take subspanLength⟩

/-- `compiletime_nullspan` -/
def nullspan (w : ℕ) : BitSpan w := ⟨Compiletime.nullType, []⟩

/-- A span of some bits over a limb. -/
def limbSpan (bitSize : ℕ) (limb : BitVec w) : BitSpan w :=
  ⟨⟨bitSize, .unsigned, .normal⟩, [limb].take (limbSizeFor w bitSize)⟩

/-- The limbs of a new array. -/
def zeros (w : ℕ) (t : SpanType) : List (BitVec w) := List.replicate (t.limbSize w) 0

section

variable [NeZero w] {x : BitSpan w} {z : ℕ} {t : SpanType}

theorem limbSize_subspan (t : SpanType) (offset : ℕ) :
    (t.subspan w offset).limbSize w = t.limbSize w - offset := by
  have hw : 0 < w := Nat.pos_of_ne_zero (NeZero.ne w)
  unfold limbSize
  apply eq_of_forall_ge_iff
  intro n
  rw [limbSizeFor_le_iff, Nat.sub_le_iff_le_add, limbSizeFor_le_iff, Nat.mul_add,
    Nat.mul_comm w offset]
  unfold SpanType.subspan
  dsimp only
  split_ifs <;> omega

theorem limbSize_firstLimbs (t : SpanType) (n : ℕ) :
    (t.firstLimbs w n).limbSize w = min n (t.limbSize w) := by
  unfold SpanType.firstLimbs
  split_ifs with hn
  · have hle : n ≤ t.limbSize w := by
      by_contra hcon
      have hmul := (limbSizeFor_le_iff (w := w) t.bitSize n).mp
        (show t.limbSize w ≤ n by omega)
      have hlt := (limbSizeFor_le_iff (w := w) t.bitSize (t.limbSize w)).mp le_rfl
      have hmono : w * t.limbSize w ≤ w * n := Nat.mul_le_mul_left _ (by omega)
      rw [Nat.mul_comm] at hn
      omega
    rw [min_eq_left hle]
    show limbSizeFor w (n * w) = n
    rw [Nat.mul_comm, limbSizeFor_mul]
  · have hle : t.limbSize w ≤ n := (limbSizeFor_le_iff _ _).mpr (by rw [Nat.mul_comm]; omega)
    rw [min_eq_right hle]

theorem Holds.subspan (h : Holds x z) (offset : ℕ) :
    Holds (subspan x offset) (z / (2 ^ w) ^ offset) where
  unsigned := h.unsigned
  length_eq := by
    show (x.limbs.drop offset).length = (x.type.subspan w offset).limbSize w
    rw [List.length_drop, h.length_eq, limbSize_subspan]
  value_eq := by
    show value (x.limbs.drop offset) = _
    rw [value_drop, h.value_eq]
  lt := by
    rw [← pow_mul, Nat.mul_comm w]
    apply Nat.div_lt_of_lt_mul
    apply h.lt.trans_le
    rw [← pow_add]
    apply Nat.pow_le_pow_right two_pos
    show _ ≤ _ + (x.type.subspan w offset).bitSize
    unfold SpanType.subspan
    dsimp only
    split_ifs <;> omega

theorem Holds.firstLimbs (h : Holds x z) (n : ℕ) :
    Holds (firstLimbs x n) (z % (2 ^ w) ^ n) where
  unsigned := h.unsigned
  length_eq := by
    show (x.limbs.take n).length = (x.type.firstLimbs w n).limbSize w
    rw [List.length_take, h.length_eq, limbSize_firstLimbs]
  value_eq := by
    show value (x.limbs.take n) = _
    rw [value_take, h.value_eq]
  lt := by
    show _ < 2 ^ (if _ then _ else _)
    split_ifs
    · rw [← pow_mul, Nat.mul_comm w]
      exact Nat.mod_lt _ (Nat.two_pow_pos _)
    · exact (Nat.mod_le _ _).trans_lt h.lt

theorem holds_nullspan : Holds (nullspan w) 0 where
  unsigned := rfl
  length_eq := limbSizeFor_zero.symm
  value_eq := rfl
  lt := one_pos

/-- A limb of some bits, and whatever is left of them when it becomes smaller. -/
theorem holds_limbSpan {q : BitVec w} {bits : ℕ} (hbits : bits ≤ w) (hq : q.toNat < 2 ^ bits) :
    Holds (limbSpan bits q) q.toNat := by
  have hle : limbSizeFor w bits ≤ 1 := (limbSizeFor_le_iff _ _).mpr (by omega)
  refine ⟨rfl, ?_, ?_, hq⟩
  · show ([q].take (limbSizeFor w bits)).length = limbSizeFor w bits
    rw [List.length_take, List.length_singleton, min_eq_left hle]
  · show value ([q].take (limbSizeFor w bits)) = _
    rw [value_take, value_cons, value_nil, Nat.mul_zero, Nat.add_zero, Nat.mod_eq_of_lt]
    rw [← pow_mul]
    exact hq.trans_le (Nat.pow_le_pow_right two_pos ((limbSizeFor_le_iff _ _).mp le_rfl))

/-- An array of full limbs holds what is in its limbs. -/
theorem holds_fullLimbs {n : ℕ} {l : List (BitVec w)} (hlen : l.length = n) :
    Holds ⟨compiletimeArray (w * n), l⟩ (value l) where
  unsigned := rfl
  length_eq := hlen.trans (limbSizeFor_mul n).symm
  value_eq := rfl
  lt := by
    show _ < 2 ^ (w * n)
    rw [pow_mul, ← hlen]
    exact value_lt l

theorem Holds.bitWidth_eq (h : Holds x z) : bitWidth x = some z.size := by
  rw [Checked.bitWidth_eq h.sound, h.value_eq]

omit [NeZero w] in
theorem length_zeros (t : SpanType) : (zeros w t).length = t.limbSize w := List.length_replicate ..

end

/-! ## The functions -/

/-- `clamped_divide(lower_numerator, upper_numerator, denominator)`, in limbs of twice the size -/
def clampedDivide (lowerNumerator upperNumerator denominator : BitVec w) : BitVec w :=
  let numerator := lowerNumerator.setWidth (w + w) ||| (upperNumerator.setWidth (w + w) <<< w)
  let quotient := numerator / denominator.setWidth (w + w)
  if quotient > (BitVec.allOnes w).setWidth (w + w) then BitVec.allOnes w else quotient.setWidth w

/-- `if (greater(read_intermediate, numerator))` of `divide_similar_sized` -/
def correctQuotient (array : SpanType) (numerator denominator : BitSpan w)
    (s : BitVec w × List (BitVec w)) : Option (BitVec w × List (BitVec w)) := do
  if (← greater ⟨array, s.2⟩ numerator) = 1 then
    let r ← subtract array (.shared array) (.apart denominator) 0 s.2
    return (s.1 - 1, r.1)
  else return s

/-- `divide_similar_sized(quotient, remainder, numerator, denominator)`, with a bound on the number
of calls inside each other. -/
def divideSimilarSized (quotient remainder : SpanType) (numerator : Operand w)
    (denominator : BitSpan w) :
    ℕ → List (BitVec w) → List (BitVec w) → Option (List (BitVec w) × List (BitVec w))
  | 0, _, _ => none
  | calls + 1, quotientLimbs, remainderLimbs => do
    let read := numerator.span remainderLimbs
    let numeratorLimbSize := limbSizeFor w (← bitWidth read)
    let denominatorBitSize ← bitWidth denominator
    let denominatorLimbSize := limbSizeFor w denominatorBitSize
    if denominatorBitSize % w ≠ 0 then none
    else if numeratorLimbSize > denominatorLimbSize + 1 then none
    else
      let array := compiletimeArray (denominatorBitSize + w)
      let upper ← bitCopy (array.subspan w 1) (.apart denominator) ((zeros w array).drop 1)
      let intermediate := (zeros w array).take 1 ++ upper
      if (← greaterEqual read ⟨array, intermediate⟩) = 1 then
        let difference ← subtract array (.apart read) (.shared array) 0 intermediate
        let quotientArray := compiletimeArray quotient.bitSize
        let (intermediateQuotient, remainderLimbs) ← divideSimilarSized quotientArray remainder
          (.apart ⟨array, difference.1⟩) denominator calls (zeros w quotientArray) remainderLimbs
        let lower ← Checked.read ⟨quotientArray, intermediateQuotient⟩ 0 quotientArray.normalType
        let written ← write quotient 0 lower quotient.normalType quotientLimbs
        let upper ← add (quotient.subspan w 1)
          (.apart (subspan ⟨quotientArray, intermediateQuotient⟩ 1)) (.apart (nullspan w)) 1
          (written.drop 1)
        return (written.take 1 ++ upper.1, remainderLimbs)
      else
        let q := clampedDivide
          (← extendedRead read (denominatorLimbSize - 1) read.type.normalType)
          (← extendedRead read denominatorLimbSize read.type.normalType)
          (← Checked.read denominator (denominatorLimbSize - 1) denominator.type.normalType)
        let bits := Core.bitWidth q
        let product ← multiply array (.apart denominator) (.apart (limbSpan bits q)) intermediate
        let s ← correctQuotient array read denominator (q, product)
        let s ← correctQuotient array read denominator s
        let quotientLimbs ← bitCopy quotient (.apart (limbSpan bits s.1)) quotientLimbs
        let difference ← subtract remainder numerator (.apart ⟨array, s.2⟩) 0 remainderLimbs
        return (quotientLimbs, difference.1)

/-- `divide_normalized(quotient, remainder, numerator, denominator)`, with a bound on the number of
calls inside each other. -/
def divideNormalized (quotient remainder : SpanType) (numerator : Operand w)
    (denominator : BitSpan w) :
    ℕ → List (BitVec w) → List (BitVec w) → Option (List (BitVec w) × List (BitVec w))
  | 0, _, _ => none
  | calls + 1, quotientLimbs, remainderLimbs => do
    let read := numerator.span remainderLimbs
    let numeratorBitSize ← bitWidth read
    let numeratorLimbSize := limbSizeFor w numeratorBitSize
    let denominatorBitSize ← bitWidth denominator
    let denominatorLimbSize := limbSizeFor w denominatorBitSize
    if denominatorBitSize % w ≠ 0 then none
    else if numeratorLimbSize < denominatorLimbSize then
      let quotientLimbs ← bitCopy quotient (.apart (nullspan w)) quotientLimbs
      return (quotientLimbs, ← bitCopy remainder numerator remainderLimbs)
    else if numeratorLimbSize = denominatorLimbSize then
      if (← less read denominator) = 1 then
        let quotientLimbs ← bitCopy quotient (.apart (nullspan w)) quotientLimbs
        return (quotientLimbs, ← bitCopy remainder numerator remainderLimbs)
      else
        let quotientLimbs ← bitCopy quotient (.apart (limbSpan 1 1)) quotientLimbs
        let difference ← subtract remainder numerator (.apart denominator) 0 remainderLimbs
        return (quotientLimbs, difference.1)
    else if numeratorLimbSize = denominatorLimbSize + 1 then
      divideSimilarSized quotient remainder numerator denominator 2 quotientLimbs remainderLimbs
    else
      let limbSize := numeratorLimbSize - denominatorLimbSize - 1
      let array := compiletimeArray numeratorBitSize
      let (upperQuotient, upper) ← divideSimilarSized (quotient.subspan w limbSize)
        (array.subspan w limbSize) (.apart (subspan read limbSize)) denominator 2
        (quotientLimbs.drop limbSize) ((zeros w array).drop limbSize)
      let lower ← bitCopy (array.firstLimbs w limbSize) (.apart (firstLimbs read limbSize))
        ((zeros w array).take limbSize)
      let (lowerQuotient, remainderLimbs) ← divideNormalized (quotient.firstLimbs w limbSize)
        remainder (.apart ⟨array, lower ++ upper⟩) denominator calls
        (quotientLimbs.take limbSize) remainderLimbs
      return (lowerQuotient ++ upperQuotient, remainderLimbs)

/-- `divide(quotient, remainder, numerator, denominator)` -/
def divide (quotient remainder : SpanType) (numerator : Operand w) (denominator : BitSpan w)
    (quotientLimbs remainderLimbs : List (BitVec w)) :
    Option (List (BitVec w) × List (BitVec w)) := do
  let read := numerator.span remainderLimbs
  let numeratorBitSize ← bitWidth read
  let denominatorBitSize ← bitWidth denominator
  if denominatorBitSize = 0 then none
  else if denominatorBitSize % w = 0 then
    divideNormalized quotient remainder numerator denominator
      (Compiletime.limbs w (value read.limbs) + 1) quotientLimbs remainderLimbs
  else
    let shift := w - denominatorBitSize % w
    let numeratorArray := compiletimeArray (numeratorBitSize + shift)
    let denominatorArray := compiletimeArray (denominatorBitSize + shift)
    let remainderArray := compiletimeArray (remainder.bitSize + shift)
    let shiftedNumerator ← shiftLeft numeratorArray read shift (zeros w numeratorArray)
    let shiftedDenominator ← shiftLeft denominatorArray denominator shift
      (zeros w denominatorArray)
    let (quotientLimbs, shiftedRemainder) ← divideNormalized quotient remainderArray
      (.apart ⟨numeratorArray, shiftedNumerator⟩) ⟨denominatorArray, shiftedDenominator⟩
      (Compiletime.limbs w (value shiftedNumerator) + 1) quotientLimbs (zeros w remainderArray)
    return (quotientLimbs,
      ← shiftRight remainder (.apart ⟨remainderArray, shiftedRemainder⟩) shift remainderLimbs)

/-! ## They refine the division of numbers -/

/-- A result on limbs is one on numbers, and none is none. -/
inductive Refines (quotient remainder : SpanType) :
    Option (List (BitVec w) × List (BitVec w)) → Option (ℕ × ℕ) → Prop
  | none : Refines quotient remainder none none
  | some {q r : List (BitVec w)} (hq : q.length = quotient.limbSize w)
      (hr : r.length = remainder.limbSize w) :
      Refines quotient remainder (some (q, r)) (some (value q, value r))

theorem Refines.of_some {quotient remainder : SpanType}
    {c : Option (List (BitVec w) × List (BitVec w))} {x y : ℕ}
    (h : Refines quotient remainder c (Option.some (x, y))) :
    ∃ q r, c = Option.some (q, r) ∧ q.length = quotient.limbSize w ∧
      r.length = remainder.limbSize w ∧ value q = x ∧ value r = y := by
  generalize hp : Option.some (x, y) = p at h
  cases h with
  | none => cases hp
  | some hq hr =>
      obtain ⟨hx, hy⟩ := Prod.mk.inj (Option.some.inj hp)
      exact ⟨_, _, rfl, hq, hr, hx.symm, hy.symm⟩

theorem Refines.of_none {quotient remainder : SpanType}
    {c : Option (List (BitVec w) × List (BitVec w))}
    (h : Refines quotient remainder c Option.none) : c = Option.none := by
  generalize hp : (Option.none : Option (ℕ × ℕ)) = p at h
  cases h with
  | none => rfl
  | some => cases hp

section

variable [NeZero w] {quotient remainder : SpanType} {d n z : ℕ} {numerator denominator : BitSpan w}

/-- What was written as an image has the value that is kept. -/
theorem Refines.of_image (hq : quotient.signedness = .unsigned)
    (hr : remainder.signedness = .unsigned) (x y : ℤ) :
    Refines quotient remainder (Option.some (quotient.image w x, remainder.image w y))
      (Option.some (quotient.kept w x, remainder.kept w y)) := by
  rw [← value_image hq, ← value_image hr]
  exact .some (length_image _ _) (length_image _ _)

omit [NeZero w] in
theorem toNat_clampedDivide (lower upper x : BitVec w) : (clampedDivide lower upper x).toNat =
    Compiletime.clampedDivide w lower.toNat upper.toNat x.toNat := by
  have hle : 2 ^ w ≤ 2 ^ (w + w) := Nat.pow_le_pow_right two_pos (by omega)
  have hwide (v : BitVec w) : (v.setWidth (w + w)).toNat = v.toNat := by
    rw [BitVec.toNat_setWidth, Nat.mod_eq_of_lt (v.isLt.trans_le hle)]
  have hshift : upper.toNat <<< w < 2 ^ (w + w) := by
    rw [Nat.shiftLeft_eq, pow_add]
    exact Nat.mul_lt_mul_of_pos_right upper.isLt (Nat.two_pow_pos w)
  have hquotient : ((lower.setWidth (w + w) ||| (upper.setWidth (w + w) <<< w)) /
      x.setWidth (w + w)).toNat = (lower.toNat ||| (upper.toNat <<< w)) / x.toNat := by
    rw [BitVec.toNat_udiv, BitVec.toNat_or, BitVec.toNat_shiftLeft, hwide, hwide, hwide,
      Nat.mod_eq_of_lt hshift]
  have hmax : ((BitVec.allOnes w).setWidth (w + w)).toNat = 2 ^ w - 1 := by
    rw [hwide, BitVec.toNat_allOnes]
  have hpos := Nat.two_pow_pos w
  unfold clampedDivide Compiletime.clampedDivide
  dsimp only
  rw [← hquotient]
  generalize (lower.setWidth (w + w) ||| (upper.setWidth (w + w) <<< w)) /
    x.setWidth (w + w) = quotient
  by_cases hclamp : quotient.toNat > 2 ^ w - 1
  · rw [if_pos (by rw [gt_iff_lt, BitVec.lt_def, hmax]; exact hclamp), if_pos hclamp,
      BitVec.toNat_allOnes]
  · rw [if_neg (by rw [gt_iff_lt, BitVec.lt_def, hmax]; exact hclamp), if_neg hclamp,
      BitVec.toNat_setWidth, Nat.mod_eq_of_lt (by omega)]

omit [NeZero w] in
/-- The array of the product, of all limbs. -/
theorem aligned_array (hden : Compiletime.Aligned w d n) :
    compiletimeArray (n.size + w) = compiletimeArray (w * (d + 2)) := by
  rw [hden.size_eq]
  rfl

theorem holds_array (hden : Compiletime.Aligned w d n) (x : ℤ) :
    Holds ⟨compiletimeArray (n.size + w), (compiletimeArray (n.size + w)).image w x⟩
      ((compiletimeArray (n.size + w)).kept w x) := by
  rw [aligned_array hden, ← value_image rfl]
  exact holds_fullLimbs ((length_image _ _).trans (limbSizeFor_mul _))

/-- A correction, when the product is too large. -/
theorem correctQuotient_eq (hden : Compiletime.Aligned w d n) (hd : Holds denominator n)
    (hz : Holds numerator z) (q : BitVec w) :
    ∃ q' : BitVec w, correctQuotient (compiletimeArray (n.size + w)) numerator denominator
        (q, (compiletimeArray (n.size + w)).image w (n * q.toNat : ℕ)) =
          some (q', (compiletimeArray (n.size + w)).image w (n * q'.toNat : ℕ)) ∧
      q'.toNat = if n * q.toNat > z then q.toNat - 1 else q.toNat := by
  have hroom : n * q.toNat < n * 2 ^ w := Nat.mul_lt_mul_of_pos_left q.isLt hden.pos
  have hproduct := holds_array hden (n * q.toNat : ℕ)
  rw [hden.array hroom] at hproduct
  have hgreater := (compare_eq hproduct hz).2.2.2.2.1
  unfold correctQuotient
  dsimp only
  rw [hgreater, Option.bind_eq_bind, Option.bind_some]
  simp only [bitOf_eq_one_iff]
  -- only a quotient that is not zero can be too large, so the decrement does not wrap
  by_cases hlarge : z < n * q.toNat
  · have hq : 0 < q.toNat := by
      apply Nat.pos_of_ne_zero
      intro hzero
      rw [hzero, Nat.mul_zero] at hlarge
      omega
    have hone : (1 : BitVec w).toNat = 1 := BitVec.toNat_one (Nat.pos_of_ne_zero (NeZero.ne w))
    have hpred : (q - 1).toNat = q.toNat - 1 := by
      rw [BitVec.toNat_sub_of_le (by rw [BitVec.le_def, hone]; exact hq), hone]
    have hless : n ≤ n * q.toNat := Nat.le_mul_of_pos_right n hq
    obtain ⟨b, hb⟩ := subtract_of_le (t := compiletimeArray (n.size + w)) rfl (length_image _ _)
      (Operand.reads_of_holds (x := .shared (compiletimeArray (n.size + w))) hproduct)
      (Operand.reads_of_holds (x := .apart denominator) hd) hless
    rw [if_pos hlarge, if_pos hlarge, hb]
    refine ⟨q - 1, ?_, hpred⟩
    rw [hpred, Nat.mul_sub_one]
    rfl
  · rw [if_neg hlarge, if_neg hlarge]
    exact ⟨q, rfl, rfl⟩

/-- The denominator, one limb up. -/
theorem holds_intermediate (hden : Compiletime.Aligned w d n) {array : SpanType}
    (harray : array = compiletimeArray (n.size + w)) :
    Holds ⟨array, (zeros w array).take 1 ++ (array.subspan w 1).image w n⟩
      (2 ^ w * (array.subspan w 1).kept w n) := by
  rw [aligned_array hden] at harray
  have hlimbs : array.limbSize w = d + 2 := by
    rw [harray]
    exact limbSizeFor_mul _
  have hzeros : (zeros w array).take 1 = [0] := by
    rw [zeros, hlimbs, List.take_replicate]
    rfl
  have hlen : ([0] ++ (array.subspan w 1).image w n).length = d + 2 := by
    rw [List.length_append, length_image, limbSize_subspan, hlimbs, List.length_singleton]
    omega
  have hu : (array.subspan w 1).signedness = .unsigned := by
    rw [harray]
    rfl
  have hholds := holds_fullLimbs hlen
  rw [value_append, value_image hu, value_cons, value_nil, Nat.mul_zero, Nat.add_zero,
    List.length_singleton, pow_one, show (0 : BitVec w).toNat = 0 from BitVec.toNat_zero ..,
    Nat.zero_add, ← harray] at hholds
  rw [hzeros]
  exact hholds

/-- The product and its corrections. -/
theorem refines_product (hden : Compiletime.Aligned w d n) (hd : Holds denominator n)
    (hu : quotient.signedness = .unsigned) (hr : remainder.signedness = .unsigned)
    {operand : Operand w} {quotientLimbs remainderLimbs : List (BitVec w)}
    (hq : quotientLimbs.length = quotient.limbSize w)
    (hlen : remainderLimbs.length = remainder.limbSize w)
    (hz : Holds (operand.span remainderLimbs) z) {array : SpanType}
    (harray : array = compiletimeArray (n.size + w)) {intermediate : List (BitVec w)}
    (hi : intermediate.length = array.limbSize w) (q : BitVec w) {s : ℕ × ℕ}
    (hs : s = Compiletime.correctQuotient w array z n (Compiletime.correctQuotient w array z n
      (q.toNat, array.kept w ((n : ℤ) * (q.toNat : ℕ))))) :
    Refines quotient remainder (do
      let product ← multiply array (.apart denominator) (.apart (limbSpan (Core.bitWidth q) q))
        intermediate
      let s ← correctQuotient array (operand.span remainderLimbs) denominator (q, product)
      let s ← correctQuotient array (operand.span remainderLimbs) denominator s
      let quotientLimbs ← bitCopy quotient (.apart (limbSpan (Core.bitWidth q) s.1)) quotientLimbs
      let difference ← subtract remainder operand (.apart ⟨array, s.2⟩) 0 remainderLimbs
      return (quotientLimbs, difference.1))
    (some (quotient.kept w s.1, remainder.kept w (z - s.2))) := by
  subst harray
  have hroom (q : BitVec w) : n * q.toNat < n * 2 ^ w := Nat.mul_lt_mul_of_pos_left q.isLt hden.pos
  have hbits : Core.bitWidth q ≤ w := Nat.size_le.mpr q.isLt
  have hspan : Holds (limbSpan (Core.bitWidth q) q) q.toNat :=
    holds_limbSpan hbits (Nat.lt_size_self _)
  have hproduct := multiply_eq (t := compiletimeArray (n.size + w)) rfl hi
    (show Holds (Operand.span (.apart denominator) intermediate) n from hd)
    (show Holds (Operand.span (.apart (limbSpan (Core.bitWidth q) q)) intermediate) q.toNat
      from hspan)
  obtain ⟨q₁, hcorrect₁, hq₁⟩ := correctQuotient_eq hden hd hz q
  obtain ⟨q₂, hcorrect₂, hq₂⟩ := correctQuotient_eq hden hd hz q₁
  have hle : q₂.toNat ≤ q.toNat := by split_ifs at hq₁ hq₂ <;> omega
  have hspan₂ : Holds (limbSpan (Core.bitWidth q) q₂) q₂.toNat :=
    holds_limbSpan hbits (hle.trans_lt (Nat.lt_size_self _))
  have hproduct₂ := holds_array hden (n * q₂.toNat : ℕ)
  rw [hden.array (hroom q₂)] at hproduct₂
  have hcopy := bitCopy_eq (t := quotient) hu hq
    (Operand.reads_of_holds (x := .apart (limbSpan (Core.bitWidth q) q₂)) hspan₂)
  obtain ⟨b, hb⟩ := subtract_eq (t := remainder) hr hlen (Operand.reads_of_holds hz)
    (Operand.reads_of_holds (x := .apart _) hproduct₂) 0
  -- both corrections, on numbers
  have hs' : s = (q₂.toNat, n * q₂.toNat) := by
    rw [hs, ← Nat.cast_mul, hden.array (hroom q), Compiletime.correctQuotient_eq hden q.isLt]
    dsimp only
    rw [← hq₁, Compiletime.correctQuotient_eq hden q₁.isLt]
    dsimp only
    rw [← hq₂]
  rw [hs', hproduct]
  simp only [Option.bind_eq_bind, Option.bind_some, hcorrect₁, hcorrect₂, hcopy, hb,
    Option.pure_def]
  rw [show ((0 : Bit).toNat : ℤ) = 0 from rfl, sub_zero]
  exact .of_image hu hr _ _

omit [NeZero w] in
/-- An array that is not normal asserts nothing. -/
theorem sound_of_unnormal {x : BitSpan w} (hu : x.type.signedness = .unsigned)
    (hlen : x.limbs.length = x.type.limbSize w) (hn : x.type.normalType = .unnormal) : Sound x where
  unsigned := hu
  length_eq := hlen
  isNormal hnormal := absurd (hn.symm.trans hnormal) (by decide)

/-- The lowest limb is stored as that of a single limb. -/
theorem stored_firstLimbs (hu : quotient.signedness = .unsigned) (v : BitVec w) :
    (quotient.firstLimbs w 1).stored 0 v quotient.normalType =
      quotient.stored 0 v quotient.normalType := by
  unfold SpanType.firstLimbs
  split_ifs with hwide
  · -- all bits of the limb are kept
    have hw : 0 < w := Nat.pos_of_ne_zero (NeZero.ne w)
    have hlimbs : quotient.limbSize w ≠ 0 + 1 := by
      intro hone
      have hle := (limbSizeFor_le_iff (w := w) quotient.bitSize 1).mp hone.le
      omega
    have hlast : lastLimbBitSize w (1 * w) = w := by
      rw [lastLimbBitSize, Nat.one_mul, Nat.mod_self, if_pos ⟨rfl, hw.ne'⟩, Nat.zero_add]
    have hpos : 0 < quotient.limbSize w := by
      apply Nat.pos_of_ne_zero
      intro hzero
      have hle := (limbSizeFor_le_iff (w := w) quotient.bitSize 0).mp hzero.le
      omega
    rw [quotient.stored_of_ne (by omega)]
    unfold stored
    rw [hu]
    split_ifs
    · apply BitVec.eq_of_toNat_eq
      show (maskInside (lastLimbBitSize w (1 * w)) v).toNat = _
      rw [hlast, toNat_maskInside le_rfl, Nat.mod_eq_of_lt v.isLt]
    · rfl
  · rfl

/-- The lowest limb of the quotient, as a number. -/
theorem value_write_first (hu : quotient.signedness = .unsigned)
    (hpos : 0 < quotient.limbSize w) {limbs : List (BitVec w)}
    (hlen : limbs.length = quotient.limbSize w) (l : List (BitVec w)) :
    value ((quotient.write 0 (l.getD 0 0) quotient.normalType limbs).take 1) =
      (quotient.firstLimbs w 1).kept w (value l % 2 ^ w : ℕ) := by
  have hfirst : (quotient.firstLimbs w 1).limbSize w = 1 := by
    rw [limbSize_firstLimbs, min_eq_left hpos]
  have hdigit : digit w ((value l % 2 ^ w : ℕ) : ℤ) 0 = l.getD 0 0 := by
    rw [← digit_value]
    apply digit_congr
    rw [zero_add, pow_one]
    push_cast
    exact Int.emod_emod_of_dvd _ dvd_rfl
  rw [← value_image (w := w) (t := quotient.firstLimbs w 1) hu, image, hfirst]
  obtain ⟨v, rest, rfl⟩ := List.exists_cons_of_length_pos (hlen ▸ hpos)
  show value [quotient.stored 0 _ _] = value [(quotient.firstLimbs w 1).stored 0 _ _]
  rw [hdigit]
  exact congrArg (fun v => value [v]) (stored_firstLimbs hu _).symm

/-- After the recursive call the quotient gets another limb, which it must have room for. -/
theorem refines_carry (hu : quotient.signedness = .unsigned) {quotientLimbs q r : List (BitVec w)}
    (hlen : quotientLimbs.length = quotient.limbSize w)
    (hq : q.length = (compiletimeArray quotient.bitSize).limbSize w)
    (hr : r.length = remainder.limbSize w) :
    Refines quotient remainder (do
      let lower ← read ⟨compiletimeArray quotient.bitSize, q⟩ 0
        (compiletimeArray quotient.bitSize).normalType
      let written ← write quotient 0 lower quotient.normalType quotientLimbs
      let upper ← add (quotient.subspan w 1)
        (.apart (subspan ⟨compiletimeArray quotient.bitSize, q⟩ 1)) (.apart (nullspan w)) 1
        (written.drop 1)
      return (written.take 1 ++ upper.1, r))
    (if quotient.limbSize w = 0 then none
      else pure ((quotient.firstLimbs w 1).kept w (value q % 2 ^ w : ℕ) +
        2 ^ w * (quotient.subspan w 1).kept w (value q / 2 ^ w + 1 : ℕ), value r)) := by
  have hlimbs : (compiletimeArray quotient.bitSize).limbSize w = quotient.limbSize w := rfl
  -- without a limb for it, the read of the first limb already fails
  by_cases hzero : quotient.limbSize w = 0
  · have hread : read ⟨compiletimeArray quotient.bitSize, q⟩ 0
        (compiletimeArray quotient.bitSize).normalType = none := by
      unfold read
      exact if_neg (by rw [hlimbs, hzero]; exact Nat.lt_irrefl 0)
    rw [hread, if_pos hzero]
    exact .none
  · have hpos : 0 < quotient.limbSize w := Nat.pos_of_ne_zero hzero
    have hfirst := value_write_first hu hpos hlen q
    rw [read_compiletimeArray hpos, if_neg hzero]
    simp only [Option.bind_eq_bind, Option.bind_some, write_eq hu hpos]
    have hwritten := (quotient.length_write 0 (q.getD 0 0) quotient.normalType quotientLimbs)
    generalize quotient.write 0 (q.getD 0 0) quotient.normalType quotientLimbs = written at *
    have hsound : Sound (subspan ⟨compiletimeArray quotient.bitSize, q⟩ 1) := by
      refine sound_of_unnormal rfl ?_ rfl
      show (q.drop 1).length = ((compiletimeArray quotient.bitSize).subspan w 1).limbSize w
      rw [List.length_drop, hq, limbSize_subspan]
    have hdrop : value (subspan ⟨compiletimeArray quotient.bitSize, q⟩ 1).limbs =
        value q / 2 ^ w := by
      show value (q.drop 1) = _
      rw [value_drop, pow_one]
    generalize subspan ⟨compiletimeArray quotient.bitSize, q⟩ 1 = upper at *
    -- the upper limbs take the carry of one
    obtain ⟨c, hc⟩ := add_eq (t := quotient.subspan w 1) hu
      (by rw [List.length_drop, limbSize_subspan, hwritten, hlen])
      (Operand.reads (x := .apart upper) (show Sound (Operand.span _ (written.drop 1)) from hsound))
      (Operand.reads_of_holds (x := .apart (nullspan w)) holds_nullspan) 1
    have hsum : ((value (Operand.span (.apart upper) (written.drop 1)).limbs : ℕ) : ℤ) + (0 : ℕ) +
        ((1 : Bit).toNat : ℤ) = (value q / 2 ^ w + 1 : ℕ) := by
      show (value upper.limbs : ℤ) + 0 + 1 = _
      rw [hdrop]
      push_cast
      ring
    have hlength : (written.take 1).length = 1 := by
      rw [List.length_take, min_eq_left (by omega)]
    have hvalue := value_append (written.take 1)
      ((quotient.subspan w 1).image w (value q / 2 ^ w + 1 : ℕ))
    rw [hlength, pow_one, hfirst, value_image (t := quotient.subspan w 1) hu] at hvalue
    rw [hc, Option.bind_some, hsum, ← hvalue]
    refine .some ?_ hr
    rw [List.length_append, hlength, length_image, limbSize_subspan]
    omega

theorem divideSimilarSized_refines (quotient : SpanType) (operand : Operand w)
    (hden : Compiletime.Aligned w d n) (hd : Holds denominator n)
    (hr : remainder.signedness = .unsigned) {remainderLimbs : List (BitVec w)}
    (hlen : remainderLimbs.length = remainder.limbSize w)
    (hz : Holds (operand.span remainderLimbs) z) (hu : quotient.signedness = .unsigned)
    {quotientLimbs : List (BitVec w)} (hq : quotientLimbs.length = quotient.limbSize w)
    (calls : ℕ) :
    Refines quotient remainder
      (divideSimilarSized quotient remainder operand denominator calls quotientLimbs
        remainderLimbs)
      (Compiletime.divideSimilarSized w quotient remainder z n calls) := by
  -- on the recursive calls, with every quotient and every operand
  induction calls generalizing quotient operand z quotientLimbs with
  | zero => exact .none
  | succ calls ih =>
      have hsize := hden.size_mod
      have hlimbs : limbSizeFor w n.size = d + 1 := hden.limbs_eq
      have hlimbs' : Compiletime.limbs w n = d + 1 := hden.limbs_eq
      rw [divideSimilarSized, Compiletime.divideSimilarSized]
      simp only [hz.bitWidth_eq, hd.bitWidth_eq, Option.bind_eq_bind, Option.bind_some, hsize,
        hlimbs, hlimbs', ne_eq, not_true_eq_false, if_false]
      show Refines _ _ (if Compiletime.limbs w z > d + 1 + 1 then _ else _) _
      by_cases hwide : Compiletime.limbs w z > d + 1 + 1
      · rw [if_pos hwide, if_pos hwide]
        exact .none
      rw [if_neg hwide, if_neg hwide]
      generalize harray : compiletimeArray (n.size + w) = array
      have hau : array.signedness = .unsigned := harray ▸ rfl
      have hdrop : ((zeros w array).drop 1).length = (array.subspan w 1).limbSize w := by
        rw [List.length_drop, length_zeros, limbSize_subspan]
      have hcopy := bitCopy_eq (t := array.subspan w 1) hau hdrop
        (Operand.reads_of_holds (x := .apart denominator) hd)
      have hintermediate := holds_intermediate hden harray.symm
      have hlength := hintermediate.length_eq
      rw [hcopy, Option.bind_some]
      generalize (zeros w array).take 1 ++ (array.subspan w 1).image w n = intermediate at *
      generalize 2 ^ w * (array.subspan w 1).kept w n = high at *
      have hge := (compare_eq hz hintermediate).2.2.2.2.2
      rw [hge, Option.bind_some]
      simp only [bitOf_eq_one_iff]
      -- the numerator is at least the shifted denominator: subtract it and divide again
      by_cases hlarge : z ≥ high
      · rw [if_pos hlarge, if_pos hlarge]
        obtain ⟨b, hb⟩ := subtract_eq (t := array) hau hlength
          (Operand.reads_of_holds (x := .apart (operand.span remainderLimbs)) hz)
          (Operand.reads_of_holds (x := .shared array) hintermediate) 0
        have hdifference := holds_array hden (z - high)
        rw [harray] at hdifference
        have hrec := ih (compiletimeArray quotient.bitSize) (.apart _) hdifference rfl
          (length_zeros (compiletimeArray quotient.bitSize))
        rw [hb, Option.bind_some, show ((0 : Bit).toNat : ℤ) = 0 from rfl, sub_zero]
        dsimp only
        generalize divideSimilarSized (compiletimeArray quotient.bitSize) remainder _ denominator
          calls _ remainderLimbs = checked at hrec ⊢
        generalize Compiletime.divideSimilarSized w (compiletimeArray quotient.bitSize) remainder
          _ n calls = numbers at hrec ⊢
        cases hrec with
        | none => exact .none
        | @some q r hqlen hrlen =>
            exact refines_carry hu hq hqlen hrlen
      · rw [if_neg hlarge, if_neg hlarge]
        have hdigit (x i : ℕ) : (digit w x i).toNat = x / (2 ^ w) ^ i % 2 ^ w := by
          exact_mod_cast toNat_digit (w := w) x i
        have hdlimbs : d + 1 ≤ denominator.type.limbSize w :=
          hlimbs ▸ limbSizeFor_mono (Nat.size_le.mpr hd.lt)
        have hread := hd.read_eq (i := d) hdlimbs denominator.type.normalType
        simp only [hz.extendedRead_eq, Nat.add_sub_cancel, hread, Option.bind_some, ← hdigit,
          ← toNat_clampedDivide]
        exact refines_product hden hd hu hr hq hlen hz harray.symm hlength _ rfl

/-- The parts of a quotient and of an array. -/
theorem refines_parts {l : ℕ} {upperQuotient lowerQuotient r : List (BitVec w)}
    (hupper : upperQuotient.length = (quotient.subspan w l).limbSize w)
    (hlower : lowerQuotient.length = (quotient.firstLimbs w l).limbSize w)
    (hr : r.length = remainder.limbSize w) :
    Refines quotient remainder (some (lowerQuotient ++ upperQuotient, r))
      (some (value lowerQuotient + (2 ^ w) ^ l * value upperQuotient, value r)) := by
  rw [limbSize_subspan] at hupper
  rw [limbSize_firstLimbs] at hlower
  have hvalue : value lowerQuotient + (2 ^ w) ^ l * value upperQuotient =
      value (lowerQuotient ++ upperQuotient) := by
    rw [value_append, hlower]
    rcases Nat.le_total l (quotient.limbSize w) with hle | hle
    · rw [min_eq_left hle]
    · -- there is no upper part
      have hnil : upperQuotient = [] := List.eq_nil_of_length_eq_zero (by omega)
      rw [hnil, value_nil, Nat.mul_zero, Nat.mul_zero]
  rw [hvalue]
  refine .some ?_ hr
  rw [List.length_append, hlower, hupper]
  omega

theorem holds_one : Holds (limbSpan 1 (1 : BitVec w)) 1 := by
  have hw : 0 < w := Nat.pos_of_ne_zero (NeZero.ne w)
  have hone : (1 : BitVec w).toNat = 1 := BitVec.toNat_one hw
  have hlt : (1 : BitVec w).toNat < 2 ^ 1 := by
    rw [hone]
    exact one_lt_two
  have hspan := holds_limbSpan hw hlt
  rwa [hone] at hspan

/-- The lower limbs of the numerator, and the remainder of the upper ones. -/
theorem holds_rest {l : ℕ} (hparts : Compiletime.Parts w d z l) {upper : List (BitVec w)}
    (hupper : upper.length = ((compiletimeArray z.size).subspan w l).limbSize w)
    (hvalue : value upper = z / (2 ^ w) ^ l % n) :
    Holds ⟨compiletimeArray z.size,
        ((compiletimeArray z.size).firstLimbs w l).image w (z % (2 ^ w) ^ l : ℕ) ++ upper⟩
      (z % (2 ^ w) ^ l + (2 ^ w) ^ l * (z / (2 ^ w) ^ l % n)) := by
  -- the lower limbs are limbs of the numerator
  have hle : l ≤ (compiletimeArray z.size).limbSize w := by
    have hbits : z.size ≤ w * (compiletimeArray z.size).limbSize w :=
      (limbSizeFor_le_iff _ _).mp le_rfl
    have hsize := hparts.size
    rw [Nat.mul_comm] at hsize
    exact Nat.le_of_mul_le_mul_left (hsize.le.trans hbits) (Nat.pos_of_ne_zero (NeZero.ne w))
  have hbits : ((compiletimeArray z.size).firstLimbs w l).bitSize = l * w := if_pos hparts.size
  have hlength :
      (((compiletimeArray z.size).firstLimbs w l).image w (z % (2 ^ w) ^ l : ℕ)).length = l := by
    rw [length_image, limbSize_firstLimbs, min_eq_left hle]
  have hlower : z % (2 ^ w) ^ l < 2 ^ ((compiletimeArray z.size).firstLimbs w l).bitSize := by
    rw [hbits, Nat.mul_comm, pow_mul]
    exact Nat.mod_lt _ (by positivity)
  refine ⟨rfl, ?_, ?_, ?_⟩
  · rw [limbSize_subspan] at hupper
    rw [List.length_append, hlength, hupper]
    exact Nat.add_sub_cancel' hle
  · rw [value_append, hlength, value_image rfl, Compiletime.kept_of_lt hlower, hvalue]
  · calc z % (2 ^ w) ^ l + (2 ^ w) ^ l * (z / (2 ^ w) ^ l % n)
        ≤ z % (2 ^ w) ^ l + (2 ^ w) ^ l * (z / (2 ^ w) ^ l) :=
          Nat.add_le_add_left (Nat.mul_le_mul_left _ (Nat.mod_le _ _)) _
      _ = z := Nat.mod_add_div _ _
      _ < 2 ^ z.size := Nat.lt_size_self z

/-- The step of `divide_normalized` for a numerator with more limbs. -/
theorem refines_step (hden : Compiletime.Aligned w d n) (hd : Holds denominator n)
    {remainderLimbs : List (BitVec w)} {operand : Operand w}
    (hz : Holds (operand.span remainderLimbs) z) (hu : quotient.signedness = .unsigned)
    {quotientLimbs : List (BitVec w)} (hq : quotientLimbs.length = quotient.limbSize w)
    (hwide : d + 2 < Compiletime.limbs w z) {calls : ℕ}
    (ih : ∀ (quotient : SpanType) (operand : Operand w) {z : ℕ},
      Holds (operand.span remainderLimbs) z → quotient.signedness = .unsigned →
        ∀ {quotientLimbs : List (BitVec w)}, quotientLimbs.length = quotient.limbSize w →
          Refines quotient remainder
            (divideNormalized quotient remainder operand denominator calls quotientLimbs
              remainderLimbs)
            (Compiletime.divideNormalized w quotient remainder z n calls)) :
    Refines quotient remainder
      (divideNormalized quotient remainder operand denominator (calls + 1) quotientLimbs
        remainderLimbs)
      (Compiletime.divideNormalized w quotient remainder z n (calls + 1)) := by
  have hsize := hden.size_mod
  have hparts := Compiletime.parts_of_limbs hwide
  have hl : limbSizeFor w z.size - (d + 1) - 1 = Compiletime.limbs w z - (d + 1) - 1 := rfl
  have hz' : d + 2 < limbSizeFor w z.size := hwide
  rw [Compiletime.divideNormalized_step hden hparts, divideNormalized]
  simp only [hz.bitWidth_eq, hd.bitWidth_eq, Option.bind_eq_bind, Option.bind_some, hsize,
    show limbSizeFor w n.size = d + 1 from hden.limbs_eq, ne_eq, not_true_eq_false, if_false]
  rw [if_neg (by omega), if_neg (by omega), if_neg (by omega), hl]
  generalize Compiletime.limbs w z - (d + 1) - 1 = l at hparts ⊢
  have hqdrop : (quotientLimbs.drop l).length = (quotient.subspan w l).limbSize w := by
    rw [List.length_drop, hq, limbSize_subspan]
  have hqtake : (quotientLimbs.take l).length = (quotient.firstLimbs w l).limbSize w := by
    rw [List.length_take, hq, limbSize_firstLimbs]
  have hdrop : ((zeros w (compiletimeArray z.size)).drop l).length =
      ((compiletimeArray z.size).subspan w l).limbSize w := by
    rw [List.length_drop, length_zeros, limbSize_subspan]
  have htake : ((zeros w (compiletimeArray z.size)).take l).length =
      ((compiletimeArray z.size).firstLimbs w l).limbSize w := by
    rw [List.length_take, length_zeros, limbSize_firstLimbs]
  -- the upper limbs are divided first; their remainder goes above the lower limbs
  have hupper := divideSimilarSized_refines (quotient.subspan w l)
    (.apart (subspan (operand.span remainderLimbs) l)) hden hd rfl hdrop (hz.subspan l) hu hqdrop 2
  have hremainder := @Compiletime.divideSimilarSized_remainder w _ _ _ _ (quotient.subspan w l)
    ((compiletimeArray z.size).subspan w l) hden hparts.upper
  have hlower := bitCopy_eq (t := (compiletimeArray z.size).firstLimbs w l) rfl htake
    (Operand.reads_of_holds (x := .apart (firstLimbs (operand.span remainderLimbs) l))
      (hz.firstLimbs l))
  generalize divideSimilarSized (quotient.subspan w l) _ _ denominator 2 _ _ = checked at hupper ⊢
  generalize Compiletime.divideSimilarSized w (quotient.subspan w l) _ _ n 2 = numbers
    at hupper hremainder ⊢
  cases hupper with
  | none => exact .none
  | @some q r hqlen hrlen =>
      have hr₀ : value r = z / (2 ^ w) ^ l % n := (hremainder rfl).trans hparts.kept_upper
      have hrest := holds_rest hparts hrlen hr₀
      have hrec := ih (quotient.firstLimbs w l) (.apart _) hrest hu hqtake
      simp only [Option.bind_some, hlower, hr₀]
      generalize divideNormalized (quotient.firstLimbs w l) remainder _ denominator calls _
        remainderLimbs = checked at hrec ⊢
      generalize Compiletime.divideNormalized w (quotient.firstLimbs w l) remainder _ n calls =
        numbers at hrec ⊢
      cases hrec with
      | none => exact .none
      | some hqlen' hrlen' => exact refines_parts hqlen hqlen' hrlen'

theorem divideNormalized_refines (quotient : SpanType) (operand : Operand w)
    (hden : Compiletime.Aligned w d n) (hd : Holds denominator n)
    (hr : remainder.signedness = .unsigned) {remainderLimbs : List (BitVec w)}
    (hlen : remainderLimbs.length = remainder.limbSize w)
    (hz : Holds (operand.span remainderLimbs) z) (hu : quotient.signedness = .unsigned)
    {quotientLimbs : List (BitVec w)} (hq : quotientLimbs.length = quotient.limbSize w)
    (calls : ℕ) :
    Refines quotient remainder
      (divideNormalized quotient remainder operand denominator calls quotientLimbs
        remainderLimbs)
      (Compiletime.divideNormalized w quotient remainder z n calls) := by
  induction calls generalizing quotient operand z quotientLimbs with
  | zero => exact .none
  | succ calls ih =>
      have hsize := hden.size_mod
      have hlimbs : limbSizeFor w n.size = d + 1 := hden.limbs_eq
      have hzero := bitCopy_eq (t := quotient) hu hq
        (Operand.reads_of_holds (x := .apart (nullspan w)) holds_nullspan)
      have hone := bitCopy_eq (t := quotient) hu hq
        (Operand.reads_of_holds (x := .apart (limbSpan 1 1)) (z := 1) holds_one)
      have hcopy := bitCopy_eq (t := remainder) hr hlen (Operand.reads_of_holds hz)
      obtain ⟨b, hb⟩ := subtract_eq (t := remainder) hr hlen (Operand.reads_of_holds hz)
        (Operand.reads_of_holds (x := .apart denominator) hd) 0
      -- only a numerator of more than one additional limb recurses
      rcases Nat.lt_or_ge (d + 2) (Compiletime.limbs w z) with hwide | hnarrow
      · exact refines_step hden hd hz hu hq hwide fun quotient operand => ih quotient operand
      · rw [divideNormalized, Compiletime.divideNormalized]
        simp only [hz.bitWidth_eq, hd.bitWidth_eq, Option.bind_eq_bind, Option.bind_some, hsize,
          hden.limbs_eq, hlimbs, ne_eq, not_true_eq_false, if_false]
        show Refines _ _ (if Compiletime.limbs w z < d + 1 then _ else
          if Compiletime.limbs w z = d + 1 then _ else
            if Compiletime.limbs w z = d + 1 + 1 then _ else _) _
        by_cases hshort : Compiletime.limbs w z < d + 1
        · rw [if_pos hshort, if_pos hshort, hzero, Option.bind_some, hcopy, Option.bind_some]
          exact .of_image hu hr 0 z
        rw [if_neg hshort, if_neg hshort]
        by_cases hsame : Compiletime.limbs w z = d + 1
        · rw [if_pos hsame, if_pos hsame, (compare_eq hz hd).2.2.1, Option.bind_some]
          simp only [bitOf_eq_one_iff]
          by_cases hless : z < n
          · rw [if_pos hless, if_pos hless, hzero, Option.bind_some, hcopy, Option.bind_some]
            exact .of_image hu hr 0 z
          · rw [if_neg hless, if_neg hless, hone, Option.bind_some, hb, Option.bind_some,
              show ((0 : Bit).toNat : ℤ) = 0 from rfl, sub_zero]
            exact .of_image hu hr 1 (z - n)
        · have hmore : Compiletime.limbs w z = d + 1 + 1 := by omega
          rw [if_neg hsame, if_neg hsame, if_pos hmore, if_pos hmore]
          exact divideSimilarSized_refines quotient operand hden hd hr hlen hz hu hq 2

/-- **The division on limbs** is that of the numbers the operands hold: it writes its quotient and
its remainder, or fails with it. -/
theorem divide_refines (quotient remainder : SpanType) (operand : Operand w)
    (hd : Holds denominator n) (hr : remainder.signedness = .unsigned)
    {remainderLimbs : List (BitVec w)} (hlen : remainderLimbs.length = remainder.limbSize w)
    (hz : Holds (operand.span remainderLimbs) z)
    (hu : quotient.signedness = .unsigned) {quotientLimbs : List (BitVec w)}
    (hq : quotientLimbs.length = quotient.limbSize w) :
    Refines quotient remainder
      (divide quotient remainder operand denominator quotientLimbs remainderLimbs)
      (Compiletime.divide w quotient remainder z n) := by
  rw [divide, Compiletime.divide]
  simp only [hz.bitWidth_eq, hd.bitWidth_eq, Option.bind_eq_bind, Option.bind_some]
  by_cases hzero : n.size = 0
  · rw [if_pos hzero, if_pos hzero]
    exact .none
  have hpos : 0 < n := Nat.size_pos.mp (Nat.pos_of_ne_zero hzero)
  rw [if_neg hzero, if_neg hzero]
  -- the highest bit of a denominator of whole limbs is set; others are shifted up to it
  by_cases hsize : n.size % w = 0
  · obtain ⟨d, hden⟩ := Compiletime.aligned_of_size hpos hsize
    rw [if_pos hsize, if_pos hsize, hz.value_eq]
    exact divideNormalized_refines quotient operand hden hd hr hlen hz hu hq _
  · rw [if_neg hsize, if_neg hsize]
    generalize hshift : w - n.size % w = shift
    obtain ⟨d, hden⟩ := Compiletime.aligned_shiftLeft hpos hshift
    have hshifted {x : BitSpan w} {y : ℕ} (hx : Holds x y) :
        let array := compiletimeArray (y.size + shift)
        shiftLeft array x shift (zeros w array) = some (array.image w (y <<< shift : ℕ)) ∧
          Holds ⟨array, array.image w (y <<< shift : ℕ)⟩ (y <<< shift) := by
      intro array
      have hroom : y <<< shift < 2 ^ array.bitSize := by
        show _ < 2 ^ (y.size + shift)
        rw [Nat.shiftLeft_eq, pow_add]
        exact Nat.mul_lt_mul_of_pos_right (Nat.lt_size_self y) (Nat.two_pow_pos _)
      refine ⟨?_, holds_image rfl hroom⟩
      rw [Nat.shiftLeft_eq]
      exact shiftLeft_eq rfl (length_zeros _) hx shift
    obtain ⟨hnumerator, hz'⟩ := hshifted hz
    obtain ⟨hdenominator, hd'⟩ := hshifted hd
    have hrec := divideNormalized_refines quotient (.apart _) hden hd' rfl
      (length_zeros (compiletimeArray (remainder.bitSize + shift))) hz' hu hq
      (Compiletime.limbs w (z <<< shift) + 1)
    rw [hnumerator, hdenominator, Compiletime.kept_shiftLeft, Compiletime.kept_shiftLeft]
    simp only [Option.bind_some, hz'.value_eq]
    generalize divideNormalized quotient _ _ _ _ quotientLimbs _ = checked at hrec ⊢
    generalize Compiletime.divideNormalized w quotient _ _ _ _ = numbers at hrec ⊢
    -- the remainder is shifted back
    cases hrec with
    | none => exact .none
    | @some q r hqlen hrlen =>
        have hright := shiftRight_eq (t := remainder) hr hlen
          (Operand.readsNormal (x := .apart ⟨compiletimeArray (remainder.bitSize + shift), r⟩)
            (sound_of_unnormal rfl hrlen rfl)) shift
        rw [Option.bind_some, hright, Option.bind_some]
        show Refines _ _ _ (some (_, remainder.kept w _))
        rw [← value_image hr]
        exact .some hqlen (length_image _ _)

/-- With room for the quotient and the remainder both are written. -/
theorem divide_holds (operand : Operand w) (hd : Holds denominator n)
    (hr : remainder.signedness = .unsigned) {remainderLimbs : List (BitVec w)}
    (hlen : remainderLimbs.length = remainder.limbSize w)
    (hz : Holds (operand.span remainderLimbs) z)
    (hu : quotient.signedness = .unsigned) {quotientLimbs : List (BitVec w)}
    (hq : quotientLimbs.length = quotient.limbSize w) (hpos : 0 < n)
    (hquotient : z / n < 2 ^ quotient.bitSize) (hremainder : z % n < 2 ^ remainder.bitSize) :
    ∃ q r, divide quotient remainder operand denominator quotientLimbs remainderLimbs =
        some (q, r) ∧ Holds ⟨quotient, q⟩ (z / n) ∧ Holds ⟨remainder, r⟩ (z % n) := by
  have hrefines := divide_refines quotient remainder operand hd hr hlen hz hu hq
  rw [Compiletime.divide_eq hpos hquotient hremainder] at hrefines
  obtain ⟨q, r, hdivide, hqlen, hrlen, hq, hr'⟩ := hrefines.of_some
  exact ⟨q, r, hdivide, ⟨hu, hqlen, hq, hquotient⟩, ⟨hr, hrlen, hr', hremainder⟩⟩

/-- With room for the quotient and the remainder the division ends, no assertion fails, and both
are written. The remainder may be written over the numerator. -/
theorem divide_exact (hu : quotient.signedness = .unsigned) (hr : remainder.signedness = .unsigned)
    {quotientLimbs remainderLimbs : List (BitVec w)}
    (hq : quotientLimbs.length = quotient.limbSize w)
    (hlen : remainderLimbs.length = remainder.limbSize w) {operand : Operand w}
    (hz : Holds (operand.span remainderLimbs) z) (hd : Holds denominator n) (hpos : 0 < n)
    (hquotient : (operand.span remainderLimbs).type.bitSize ≤ quotient.bitSize)
    (hremainder : denominator.type.bitSize ≤ remainder.bitSize) :
    ∃ q r, divide quotient remainder operand denominator quotientLimbs remainderLimbs =
        some (q, r) ∧ Holds ⟨quotient, q⟩ (value q) ∧ Holds ⟨remainder, r⟩ (value r) ∧
      z = value q * n + value r ∧ value r < n := by
  have hquotient' : z / n < 2 ^ quotient.bitSize :=
    (Nat.div_le_self z n).trans_lt (hz.lt.trans_le (Nat.pow_le_pow_right two_pos hquotient))
  have hremainder' : z % n < 2 ^ remainder.bitSize :=
    (Nat.mod_lt z hpos).trans (hd.lt.trans_le (Nat.pow_le_pow_right two_pos hremainder))
  obtain ⟨q, r, hdivide, hq, hr'⟩ :=
    divide_holds operand hd hr hlen hz hu hq hpos hquotient' hremainder'
  have hqvalue : value q = z / n := hq.value_eq
  have hrvalue : value r = z % n := hr'.value_eq
  refine ⟨q, r, hdivide, hqvalue ▸ hq, hrvalue ▸ hr', ?_, hrvalue ▸ Nat.mod_lt z hpos⟩
  rw [hqvalue, hrvalue, Nat.mul_comm]
  exact (Nat.div_add_mod z n).symm

end

/-- `987654` is divided by `321` over its own limbs. -/
theorem divide_exact_shared : ∃ q r,
    divide (w := 8) ⟨20, .unsigned, .normal⟩ ⟨20, .unsigned, .unnormal⟩
        (.shared ⟨20, .unsigned, .normal⟩) ⟨⟨9, .unsigned, .normal⟩, [65, 1]⟩ [0, 0, 0]
        [6, 18, 15] = some (q, r) ∧
      Holds ⟨⟨20, .unsigned, .normal⟩, q⟩ (value q) ∧
      Holds ⟨⟨20, .unsigned, .unnormal⟩, r⟩ (value r) ∧
      987654 = value q * 321 + value r ∧ value r < 321 :=
  divide_exact rfl rfl rfl rfl ⟨rfl, rfl, by decide, by decide⟩ ⟨rfl, rfl, by decide, by decide⟩
    (by decide) (by decide) (by decide)

end Hmpc.Core.Checked
