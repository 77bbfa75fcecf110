/-
# Hmpc.Core.Divide -- long division at compile time

The division of `hmpc::core::num` runs at compile time only, on spans whose widths are values. An
operand is the number that its span denotes, and a result is what its span keeps of the number
that is written. A failed assertion ends the compilation: there is no result then.
-/
import Hmpc.Core.Write
import Hmpc.Lib.LongDivision
import Mathlib.Data.Nat.Size

namespace Hmpc.Core

open Hmpc.Lib.Limbs Hmpc.Lib.Digits Hmpc.Lib.LongDivision

/-! ## Spans at compile time -/

namespace SpanType

/-- The number that is left of `z` in an unsigned span: the bits of a normal one, all bits of the
limbs of another. -/
def kept (w : ℕ) (t : SpanType) (z : ℤ) : ℕ :=
  match t.normalType with
  | .normal => (z % 2 ^ t.bitSize).toNat
  | .unnormal => (z % (2 ^ w) ^ t.limbSize w).toNat

/-- `subspan(offset)` -/
def subspan (w : ℕ) (t : SpanType) (offset : ℕ) : SpanType :=
  ⟨if offset * w < t.bitSize then t.bitSize - offset * w else 0, t.signedness, t.normalType⟩

/-- `first_limbs(subspan_length)` -/
def firstLimbs (w : ℕ) (t : SpanType) (subspanLength : ℕ) : SpanType :=
  ⟨if subspanLength * w < t.bitSize then subspanLength * w else t.bitSize, t.signedness,
    t.normalType⟩

end SpanType

/-- `compiletime_bit_array` of some bits, which is not normal. -/
def compiletimeArray (bitSize : ℕ) : SpanType := ⟨bitSize, .unsigned, .unnormal⟩

namespace Compiletime

/-- `limb_size_for(bit_width(x))` -/
def limbs (w x : ℕ) : ℕ := limbSizeFor w x.size

/-- `clamped_divide(lower_numerator, upper_numerator, denominator)` -/
def clampedDivide (w lowerNumerator upperNumerator denominator : ℕ) : ℕ :=
  let numerator := lowerNumerator ||| (upperNumerator <<< w)
  let quotient := numerator / denominator
  if quotient > 2 ^ w - 1 then 2 ^ w - 1 else quotient

/-- `if (greater(read_intermediate, numerator))` of `divide_similar_sized`: the quotient, and its
product with the denominator. -/
def correctQuotient (w : ℕ) (array : SpanType) (numerator denominator : ℕ) (s : ℕ × ℕ) : ℕ × ℕ :=
  if s.2 > numerator then ((s.1 + 2 ^ w - 1) % 2 ^ w, array.kept w (s.2 - denominator)) else s

/-- `divide_similar_sized(quotient, remainder, numerator, denominator)`, with a bound on the number
of calls inside each other. -/
def divideSimilarSized (w : ℕ) (quotient remainder : SpanType) (numerator denominator : ℕ) :
    ℕ → Option (ℕ × ℕ)
  | 0 => none
  | calls + 1 =>
    let numeratorLimbSize := limbs w numerator
    let denominatorLimbSize := limbs w denominator
    if denominator.size % w ≠ 0 then none
    else if numeratorLimbSize > denominatorLimbSize + 1 then none
    else
      let array := compiletimeArray (denominator.size + w)
      let intermediate := (2 ^ w) * (array.subspan w 1).kept w denominator
      if numerator ≥ intermediate then do
        let intermediate := array.kept w (numerator - intermediate)
        let (intermediateQuotient, remainder) ← divideSimilarSized w
          (compiletimeArray quotient.bitSize) remainder intermediate denominator calls
        if quotient.limbSize w = 0 then none
        else
          let lower := (quotient.firstLimbs w 1).kept w (intermediateQuotient % 2 ^ w : ℕ)
          let upper := (quotient.subspan w 1).kept w (intermediateQuotient / 2 ^ w + 1 : ℕ)
          return (lower + 2 ^ w * upper, remainder)
      else
        let limb (x i : ℕ) := x / (2 ^ w) ^ i % 2 ^ w
        let q := clampedDivide w (limb numerator (denominatorLimbSize - 1))
          (limb numerator denominatorLimbSize) (limb denominator (denominatorLimbSize - 1))
        let intermediate := array.kept w (denominator * q)
        let s := correctQuotient w array numerator denominator
          (correctQuotient w array numerator denominator (q, intermediate))
        some (quotient.kept w s.1, remainder.kept w (numerator - s.2))

/-- `divide_normalized(quotient, remainder, numerator, denominator)`, with a bound on the number of
calls inside each other. -/
def divideNormalized (w : ℕ) (quotient remainder : SpanType) (numerator denominator : ℕ) :
    ℕ → Option (ℕ × ℕ)
  | 0 => none
  | calls + 1 =>
    let numeratorLimbSize := limbs w numerator
    let denominatorLimbSize := limbs w denominator
    if denominator.size % w ≠ 0 then none
    else if numeratorLimbSize < denominatorLimbSize then
      some (quotient.kept w 0, remainder.kept w numerator)
    else if numeratorLimbSize = denominatorLimbSize then
      if numerator < denominator then some (quotient.kept w 0, remainder.kept w numerator)
      else some (quotient.kept w 1, remainder.kept w (numerator - denominator))
    else if numeratorLimbSize = denominatorLimbSize + 1 then
      divideSimilarSized w quotient remainder numerator denominator 2
    else do
      let limbSize := numeratorLimbSize - denominatorLimbSize - 1
      let intermediate := compiletimeArray numerator.size
      let (upperQuotient, upper) ← divideSimilarSized w (quotient.subspan w limbSize)
        (intermediate.subspan w limbSize) (numerator / (2 ^ w) ^ limbSize) denominator 2
      let lower := (intermediate.firstLimbs w limbSize).kept w
        (numerator % (2 ^ w) ^ limbSize : ℕ)
      let (lowerQuotient, remainder) ← divideNormalized w (quotient.firstLimbs w limbSize)
        remainder (lower + (2 ^ w) ^ limbSize * upper) denominator calls
      return (lowerQuotient + (2 ^ w) ^ limbSize * upperQuotient, remainder)

/-- `divide(quotient, remainder, numerator, denominator)` -/
def divide (w : ℕ) (quotient remainder : SpanType) (numerator denominator : ℕ) :
    Option (ℕ × ℕ) :=
  let denominatorBitSize := denominator.size
  if denominatorBitSize = 0 then none
  else if denominatorBitSize % w = 0 then
    divideNormalized w quotient remainder numerator denominator (limbs w numerator + 1)
  else do
    let shift := w - denominatorBitSize % w
    let shiftedNumerator := (compiletimeArray (numerator.size + shift)).kept w
      (numerator <<< shift : ℕ)
    let shiftedDenominator := (compiletimeArray (denominatorBitSize + shift)).kept w
      (denominator <<< shift : ℕ)
    let shiftedRemainder := compiletimeArray (remainder.bitSize + shift)
    let (q, r) ← divideNormalized w quotient shiftedRemainder shiftedNumerator
      shiftedDenominator (limbs w shiftedNumerator + 1)
    return (q, remainder.kept w (r % 2 ^ shiftedRemainder.bitSize / 2 ^ shift : ℕ))

example : divide 8 ⟨24, .unsigned, .normal⟩ ⟨12, .unsigned, .normal⟩ 987654 321 =
    some (987654 / 321, 987654 % 321) := by decide +kernel

/-! ## Widths -/

section

variable {w : ℕ} [NeZero w] {x n d numerator denominator : ℕ} {quotient remainder : SpanType}

theorem limbs_le_iff : limbs w x ≤ n ↔ x < (2 ^ w) ^ n := by
  rw [limbs, limbSizeFor_le_iff, Nat.size_le, pow_mul]

theorem limbs_eq_succ_iff : limbs w x = n + 1 ↔ (2 ^ w) ^ n ≤ x ∧ x < (2 ^ w) ^ (n + 1) := by
  have hle := limbs_le_iff (w := w) (x := x) (n := n)
  have hle' := limbs_le_iff (w := w) (x := x) (n := n + 1)
  omega

/-- A number of the bits of a span is kept. -/
theorem kept_of_lt {t : SpanType} (hx : x < 2 ^ t.bitSize) : t.kept w x = x := by
  have hx' : (x : ℤ) < 2 ^ t.bitSize := by exact_mod_cast hx
  unfold SpanType.kept
  split
  · rw [Int.emod_eq_of_lt (by positivity) hx', Int.toNat_natCast]
  · have hlimbs : t.bitSize ≤ w * t.limbSize w := (limbSizeFor_le_iff _ _).mp le_rfl
    have hle : (2 : ℤ) ^ t.bitSize ≤ (2 ^ w) ^ t.limbSize w := by
      rw [← pow_mul]
      exact pow_le_pow_right₀ one_le_two hlimbs
    rw [Int.emod_eq_of_lt (by positivity) (lt_of_lt_of_le hx' hle), Int.toNat_natCast]

/-- Nothing is kept in a span without bits. -/
theorem kept_of_zero {t : SpanType} (ht : t.bitSize = 0) (z : ℤ) : t.kept w z = 0 := by
  unfold SpanType.kept
  split
  · rw [ht, pow_zero, Int.emod_one, Int.toNat_zero]
  · rw [SpanType.limbSize, ht, limbSizeFor_zero, pow_zero, Int.emod_one, Int.toNat_zero]

/-- A denominator whose highest bit is that of a limb. -/
structure Aligned (w d denominator : ℕ) : Prop where
  size_eq : denominator.size = w * (d + 1)
  high : (2 ^ w) ^ (d + 1) ≤ 2 * denominator
  lt : denominator < (2 ^ w) ^ (d + 1)

omit [NeZero w] in
theorem aligned_of_size (hpos : 0 < denominator) (hsize : denominator.size % w = 0) :
    ∃ d, Aligned w d denominator := by
  obtain ⟨k, hk⟩ := Nat.dvd_of_mod_eq_zero hsize
  have hbits : 0 < denominator.size := Nat.size_pos.mpr hpos
  have hk₀ : k ≠ 0 := by
    rintro rfl
    omega
  obtain ⟨d, rfl⟩ := Nat.exists_eq_succ_of_ne_zero hk₀
  refine ⟨d, hk, ?_, ?_⟩
  · have hle : 2 ^ (denominator.size - 1) ≤ denominator := Nat.lt_size.mp (by omega)
    have hdouble : 2 ^ denominator.size = 2 * 2 ^ (denominator.size - 1) := by
      rw [← pow_succ', Nat.sub_add_cancel hbits]
    rw [← pow_mul, ← Nat.succ_eq_add_one, ← hk, hdouble]
    omega
  · rw [← pow_mul, ← Nat.succ_eq_add_one, ← hk]
    exact Nat.lt_size_self denominator

omit [NeZero w] in
theorem Aligned.size_mod (h : Aligned w d denominator) : denominator.size % w = 0 := by
  rw [h.size_eq]
  exact Nat.mul_mod_right _ _

theorem Aligned.limbs_eq (h : Aligned w d denominator) : limbs w denominator = d + 1 := by
  rw [limbs, h.size_eq, limbSizeFor_mul]

theorem Aligned.pow_le (h : Aligned w d denominator) : (2 ^ w) ^ d ≤ denominator := by
  have hbase : 2 ≤ 2 ^ w := Nat.pow_le_pow_right two_pos (Nat.pos_of_ne_zero (NeZero.ne w))
  have hhigh := h.high
  rw [pow_succ, Nat.mul_comm] at hhigh
  have hle : 2 * (2 ^ w) ^ d ≤ 2 ^ w * (2 ^ w) ^ d := Nat.mul_le_mul_right _ hbase
  omega

theorem Aligned.pos (h : Aligned w d denominator) : 0 < denominator :=
  lt_of_lt_of_le (by positivity) h.pow_le

/-- The array of the product has a limb more than the denominator. -/
theorem Aligned.array (h : Aligned w d denominator) {z : ℕ} (hz : z < denominator * 2 ^ w) :
    (compiletimeArray (denominator.size + w)).kept w z = z := by
  apply kept_of_lt
  show z < 2 ^ (denominator.size + w)
  rw [h.size_eq, pow_add, pow_mul]
  exact hz.trans_le (Nat.mul_le_mul_right _ h.lt.le)

/-! ## A digit of the quotient -/

omit [NeZero w] in
theorem clampedDivide_eq {lower upper : ℕ} (hlower : lower < 2 ^ w) :
    clampedDivide w lower upper x = min ((lower + 2 ^ w * upper) / x) (2 ^ w - 1) := by
  have hor : lower ||| (upper <<< w) = lower + 2 ^ w * upper := by
    rw [Nat.or_comm, Nat.shiftLeft_eq, Nat.mul_comm, ← Nat.two_pow_add_eq_or_of_lt hlower,
      Nat.add_comm]
  unfold clampedDivide
  simp only [hor]
  split_ifs <;> omega

omit [NeZero w] in
/-- The estimate from the limbs. -/
theorem clampedDivide_limbs (hden : Aligned w d denominator)
    (hlt : numerator < denominator * 2 ^ w) :
    clampedDivide w (numerator / (2 ^ w) ^ d % 2 ^ w) (numerator / (2 ^ w) ^ (d + 1) % 2 ^ w)
      (denominator / (2 ^ w) ^ d % 2 ^ w) = estimate (2 ^ w) d numerator denominator := by
  have hbase : 0 < 2 ^ w := Nat.two_pow_pos w
  have hupper : numerator / (2 ^ w) ^ (d + 1) < 2 ^ w := by
    apply Nat.div_lt_of_lt_mul
    exact hlt.trans (Nat.mul_lt_mul_of_pos_right hden.lt hbase)
  have hdigit : denominator / (2 ^ w) ^ d < 2 ^ w := by
    apply Nat.div_lt_of_lt_mul
    rw [← pow_succ]
    exact hden.lt
  have hboth : numerator / (2 ^ w) ^ d % 2 ^ w + 2 ^ w * (numerator / (2 ^ w) ^ (d + 1)) =
      numerator / (2 ^ w) ^ d := by
    rw [pow_succ, ← Nat.div_div_eq_div_mul]
    exact Nat.mod_add_div _ _
  rw [clampedDivide_eq (Nat.mod_lt _ hbase), Nat.mod_eq_of_lt hupper, Nat.mod_eq_of_lt hdigit,
    hboth, estimate]

theorem correctQuotient_eq (hden : Aligned w d denominator) {q : ℕ} (hq : q < 2 ^ w) :
    correctQuotient w (compiletimeArray (denominator.size + w)) numerator denominator
      (q, denominator * q) =
        let q' := if denominator * q > numerator then q - 1 else q
        (q', denominator * q') := by
  unfold correctQuotient
  dsimp only
  split_ifs with hlarge
  · have hpos : 0 < q := by
      apply Nat.pos_of_ne_zero
      rintro rfl
      omega
    obtain ⟨p, rfl⟩ := Nat.exists_eq_succ_of_ne_zero hpos.ne'
    have hdifference : ((denominator * p.succ : ℕ) : ℤ) - denominator =
        ((denominator * p : ℕ) : ℤ) := by
      push_cast
      ring
    rw [hdifference, hden.array (Nat.mul_lt_mul_of_pos_left (by omega) hden.pos),
      show p.succ + 2 ^ w - 1 = p + 2 ^ w by omega, Nat.add_mod_right, Nat.mod_eq_of_lt (by omega),
      Nat.succ_sub_one]
  · rfl

/-- The limbs above the first one have room for the denominator. -/
theorem kept_denominator (h : 0 < denominator) :
    ((compiletimeArray (denominator.size + w)).subspan w 1).kept w (denominator : ℕ) =
      denominator := by
  have hsub : (compiletimeArray (denominator.size + w)).subspan w 1 =
      compiletimeArray denominator.size := by
    unfold SpanType.subspan compiletimeArray
    simp [Nat.size_pos.mpr h]
  rw [hsub]
  exact kept_of_lt (Nat.lt_size_self denominator)

/-- Below a limb more than the denominator, two corrections are enough. -/
theorem divideSimilarSized_of_lt (hden : Aligned w d denominator)
    (hlt : numerator < denominator * 2 ^ w) (calls : ℕ) :
    divideSimilarSized w quotient remainder numerator denominator (calls + 1) =
      some (quotient.kept w (numerator / denominator : ℕ),
        remainder.kept w (numerator % denominator : ℕ)) := by
  have hbase : 0 < 2 ^ w := Nat.two_pow_pos w
  have hlimbs : limbs w numerator ≤ d + 1 + 1 := by
    rw [limbs_le_iff, pow_succ]
    exact hlt.trans (Nat.mul_lt_mul_of_pos_right hden.lt hbase)
  have hsmall : ¬ numerator ≥ 2 ^ w * denominator := by
    rw [Nat.mul_comm]
    omega
  -- the estimate from the highest limbs is at most two too large, and two corrections follow
  have hestimate := le_estimate hlt hden.pow_le hbase
  have hestimate' := @estimate_le _ _ numerator _ hbase hden.high hden.pow_le
  have hbound : estimate (2 ^ w) d numerator denominator < 2 ^ w := by
    have hmin : estimate (2 ^ w) d numerator denominator ≤ 2 ^ w - 1 := min_le_right _ _
    omega
  have hproduct : (compiletimeArray (denominator.size + w)).kept w
      ((denominator : ℤ) * (estimate (2 ^ w) d numerator denominator : ℕ)) =
        denominator * estimate (2 ^ w) d numerator denominator := by
    rw [← Nat.cast_mul]
    exact hden.array (Nat.mul_lt_mul_of_pos_left hbound hden.pos)
  have hcorrect := correct hestimate hestimate' hden.pos
  have hremainder : (numerator : ℤ) - (denominator * (numerator / denominator) : ℕ) =
      (numerator % denominator : ℕ) := by
    have hparts := Nat.div_add_mod numerator denominator
    omega
  rw [divideSimilarSized]
  simp only [hden.limbs_eq, hden.size_eq, Nat.mul_mod_right, ne_eq, not_true_eq_false, if_false]
  rw [← hden.size_eq, if_neg (by omega), kept_denominator hden.pos, if_neg hsmall,
    Nat.add_sub_cancel, clampedDivide_limbs hden hlt, hproduct, correctQuotient_eq hden hbound]
  dsimp only at hcorrect ⊢
  rw [correctQuotient_eq hden (by split_ifs <;> omega)]
  dsimp only
  rw [hcorrect, hremainder]

/-- What is left after a subtraction of the denominator one limb up is small enough. -/
theorem sub_lt (hden : Aligned w d denominator) (hlt : numerator < (2 ^ w) ^ (d + 2)) :
    numerator - denominator * 2 ^ w < denominator * 2 ^ w := by
  have hpos : 0 < denominator * 2 ^ w := Nat.mul_pos hden.pos (Nat.two_pow_pos w)
  have hhigh : (2 ^ w) ^ (d + 2) ≤ 2 * (denominator * 2 ^ w) := by
    rw [pow_succ, ← Nat.mul_assoc]
    exact Nat.mul_le_mul_right _ hden.high
  omega

/-- Otherwise the denominator one limb up is subtracted, and the quotient needs that limb. -/
theorem divideSimilarSized_of_ge (hden : Aligned w d denominator)
    (hlt : numerator < (2 ^ w) ^ (d + 2)) (hge : denominator * 2 ^ w ≤ numerator) :
    divideSimilarSized w quotient remainder numerator denominator 2 =
      if quotient.limbSize w = 0 then none
      else
        let q := (compiletimeArray quotient.bitSize).kept w
          (numerator / denominator - 2 ^ w : ℕ)
        some ((quotient.firstLimbs w 1).kept w (q % 2 ^ w : ℕ) +
            2 ^ w * (quotient.subspan w 1).kept w (q / 2 ^ w + 1 : ℕ),
          remainder.kept w (numerator % denominator : ℕ)) := by
  have hlimbs : limbs w numerator ≤ d + 1 + 1 := limbs_le_iff.mpr hlt
  -- after the subtraction the case below a limb more applies
  have hrest := sub_lt hden hlt
  have hdifference : (compiletimeArray (denominator.size + w)).kept w
      ((numerator : ℤ) - (2 ^ w * denominator : ℕ)) = numerator - denominator * 2 ^ w := by
    rw [Nat.mul_comm (2 ^ w), ← Nat.cast_sub hge]
    exact hden.array hrest
  have hdiv : (numerator - denominator * 2 ^ w) / denominator =
      numerator / denominator - 2 ^ w := Nat.sub_mul_div _ _ _
  have hmod : (numerator - denominator * 2 ^ w) % denominator = numerator % denominator := by
    rw [Nat.sub_mul_mod hge]
  rw [divideSimilarSized]
  simp only [hden.limbs_eq, hden.size_eq, Nat.mul_mod_right, ne_eq, not_true_eq_false, if_false]
  rw [← hden.size_eq, if_neg (by omega), kept_denominator hden.pos,
    if_pos (show numerator ≥ 2 ^ w * denominator by rwa [Nat.mul_comm]), hdifference,
    divideSimilarSized_of_lt hden hrest, hdiv, hmod]
  rfl

/-- The remainder does not depend on the quotient. -/
theorem divideSimilarSized_remainder (hden : Aligned w d denominator)
    (hlt : numerator < (2 ^ w) ^ (d + 2)) {p : ℕ × ℕ}
    (hp : divideSimilarSized w quotient remainder numerator denominator 2 = some p) :
    p.2 = remainder.kept w (numerator % denominator : ℕ) := by
  by_cases hge : denominator * 2 ^ w ≤ numerator
  · rw [divideSimilarSized_of_ge hden hlt hge] at hp
    split_ifs at hp
    rw [← Option.some.inj hp]
  · rw [divideSimilarSized_of_lt hden (by omega)] at hp
    rw [← Option.some.inj hp]

/-- A wide quotient holds what is there. -/
theorem divideSimilarSized_eq (hden : Aligned w d denominator)
    (hlt : numerator < (2 ^ w) ^ (d + 2))
    (hquotient : numerator / denominator < 2 ^ quotient.bitSize) :
    divideSimilarSized w quotient remainder numerator denominator 2 =
      some (numerator / denominator, remainder.kept w (numerator % denominator : ℕ)) := by
  by_cases hge : denominator * 2 ^ w ≤ numerator
  · have hlarge : 2 ^ w ≤ numerator / denominator := by
      rw [Nat.le_div_iff_mul_le hden.pos, Nat.mul_comm]
      exact hge
    have hwide : w < quotient.bitSize :=
      (Nat.pow_lt_pow_iff_right one_lt_two).mp (hlarge.trans_lt hquotient)
    have hlimbs : quotient.limbSize w ≠ 0 := by
      intro hzero
      have hle : quotient.bitSize ≤ w * 0 := (limbSizeFor_le_iff _ _).mp hzero.le
      omega
    have hrest : numerator / denominator - 2 ^ w < 2 ^ w := by
      rw [← Nat.sub_mul_div]
      exact Nat.div_lt_of_lt_mul (sub_lt hden hlt)
    have hpow : 2 ^ w ≤ 2 ^ quotient.bitSize := Nat.pow_le_pow_right two_pos hwide.le
    have hfirst : (quotient.firstLimbs w 1).bitSize = w := by
      simp [SpanType.firstLimbs, hwide]
    have hsecond : (quotient.subspan w 1).bitSize = quotient.bitSize - w := by
      simp [SpanType.subspan, hwide]
    -- the limb of the carry is there: a quotient that large has more bits than one limb
    have hone : 0 + 1 < 2 ^ (quotient.subspan w 1).bitSize := by
      rw [hsecond]
      exact Nat.one_lt_two_pow (by omega)
    rw [divideSimilarSized_of_ge hden hlt hge, if_neg hlimbs]
    dsimp only
    rw [kept_of_lt (show _ < 2 ^ (compiletimeArray quotient.bitSize).bitSize from
        hrest.trans_le hpow), Nat.mod_eq_of_lt hrest, Nat.div_eq_of_lt hrest,
      kept_of_lt (by rwa [hfirst]), kept_of_lt hone, Nat.zero_add, Nat.mul_one,
      Nat.sub_add_cancel hlarge]
  · rw [divideSimilarSized_of_lt hden (by omega), kept_of_lt hquotient]

/-- A quotient without bits only works out when it is not needed. -/
theorem divideSimilarSized_null (hden : Aligned w d denominator)
    (hlt : numerator < (2 ^ w) ^ (d + 2)) (hquotient : quotient.bitSize = 0) :
    divideSimilarSized w quotient remainder numerator denominator 2 =
      if denominator * 2 ^ w ≤ numerator then none
      else some (0, remainder.kept w (numerator % denominator : ℕ)) := by
  split_ifs with hge
  · rw [divideSimilarSized_of_ge hden hlt hge, if_pos (by
      rw [SpanType.limbSize, hquotient, limbSizeFor_zero])]
  · rw [divideSimilarSized_of_lt hden (by omega), kept_of_zero hquotient]

/-! ## All digits -/

/-- The cases of `divide_normalized` in which it does not call itself. -/
theorem divideNormalized_of_le (hden : Aligned w d denominator)
    (hlimbs : limbs w numerator ≤ d + 1) (calls : ℕ) :
    divideNormalized w quotient remainder numerator denominator (calls + 1) =
      some (quotient.kept w (numerator / denominator : ℕ),
        remainder.kept w (numerator % denominator : ℕ)) := by
  have hsize := hden.size_mod
  have hlt := limbs_le_iff.mp hlimbs
  have hhigh := hden.high
  rw [divideNormalized]
  simp only [hden.limbs_eq, hsize, ne_eq, not_true_eq_false, if_false]
  by_cases hless : numerator < denominator
  · rw [Nat.div_eq_of_lt hless, Nat.mod_eq_of_lt hless]
    split_ifs
    · rfl
    · rfl
    · omega
    · omega
  · have hle : (2 ^ w) ^ d ≤ numerator := hden.pow_le.trans (by omega)
    have hlimbs' : limbs w numerator = d + 1 := limbs_eq_succ_iff.mpr ⟨hle, hlt⟩
    have hdiv : numerator / denominator = 1 := by
      rw [Nat.div_eq_sub_div hden.pos (by omega), Nat.div_eq_of_lt (by omega)]
    have hmod : numerator % denominator = numerator - denominator := by
      rw [Nat.mod_eq_sub_mod (by omega), Nat.mod_eq_of_lt (by omega)]
    rw [if_neg (by omega), if_pos hlimbs', if_neg hless, hdiv, hmod,
      Nat.cast_sub (by omega), Nat.cast_one]

/-- The widths of the parts of a numerator with more limbs. -/
structure Parts (w d numerator : ℕ) (l : ℕ) : Prop where
  pos : 0 < l
  limbs_eq : limbs w numerator = l + d + 2
  upper : numerator / (2 ^ w) ^ l < (2 ^ w) ^ (d + 2)
  size : l * w < numerator.size
  low : (2 ^ w) ^ (l + d + 1) ≤ numerator

theorem parts_of_limbs (h : d + 2 < limbs w numerator) :
    Parts w d numerator (limbs w numerator - (d + 1) - 1) := by
  obtain ⟨l, hl⟩ : ∃ l, limbs w numerator = l + d + 2 := ⟨limbs w numerator - d - 2, by omega⟩
  obtain ⟨hlow, hlt⟩ := limbs_eq_succ_iff.mp (show limbs w numerator = (l + d + 1) + 1 by omega)
  rw [hl, show l + d + 2 - (d + 1) - 1 = l by omega]
  refine ⟨by omega, hl, ?_, ?_, hlow⟩
  · apply Nat.div_lt_of_lt_mul
    rw [← pow_add, show l + (d + 2) = l + d + 1 + 1 by omega]
    exact hlt
  · have hle : (2 ^ w) ^ l ≤ numerator := le_trans (Nat.pow_le_pow_right (Nat.two_pow_pos w)
      (by omega)) hlow
    rw [Nat.lt_size, Nat.mul_comm, pow_mul]
    exact hle

/-- The step of `divide_normalized` for such a numerator. -/
theorem divideNormalized_step (hden : Aligned w d denominator) {l : ℕ}
    (hparts : Parts w d numerator l) (calls : ℕ) :
    divideNormalized w quotient remainder numerator denominator (calls + 1) = (do
      let (upperQuotient, upper) ← divideSimilarSized w (quotient.subspan w l)
        ((compiletimeArray numerator.size).subspan w l) (numerator / (2 ^ w) ^ l) denominator 2
      let (lowerQuotient, remainder) ← divideNormalized w (quotient.firstLimbs w l) remainder
        (numerator % (2 ^ w) ^ l + (2 ^ w) ^ l * upper) denominator calls
      return (lowerQuotient + (2 ^ w) ^ l * upperQuotient, remainder)) := by
  have hsize := hden.size_mod
  have hl := hparts.pos
  have hlower : ((compiletimeArray numerator.size).firstLimbs w l).kept w
      (numerator % (2 ^ w) ^ l : ℕ) = numerator % (2 ^ w) ^ l := by
    apply kept_of_lt
    simp only [SpanType.firstLimbs, compiletimeArray, hparts.size, if_true]
    rw [Nat.mul_comm, pow_mul]
    exact Nat.mod_lt _ (by positivity)
  rw [divideNormalized]
  simp only [hden.limbs_eq, hsize, hparts.limbs_eq, ne_eq, not_true_eq_false, if_false]
  rw [if_neg (by omega), if_neg (by omega), if_neg (by omega),
    show l + d + 2 - (d + 1) - 1 = l by omega]
  simp only [hlower]

/-- The remainder of the upper part fits its place in the array. -/
theorem Parts.kept_upper {l : ℕ} (hparts : Parts w d numerator l) :
    ((compiletimeArray numerator.size).subspan w l).kept w
      (numerator / (2 ^ w) ^ l % denominator : ℕ) = numerator / (2 ^ w) ^ l % denominator := by
  apply kept_of_lt
  simp only [SpanType.subspan, compiletimeArray, hparts.size, if_true]
  apply (Nat.mod_le _ _).trans_lt
  apply Nat.div_lt_of_lt_mul
  rw [← pow_mul, ← pow_add, Nat.mul_comm w, Nat.add_sub_cancel' hparts.size.le]
  exact Nat.lt_size_self numerator

theorem Parts.limbs_rest {l : ℕ} (hparts : Parts w d numerator l)
    (hden : Aligned w d denominator) :
    limbs w (rest ((2 ^ w) ^ l) numerator denominator) < limbs w numerator := by
  rw [hparts.limbs_eq, Nat.lt_succ_iff, limbs_le_iff, Nat.add_assoc, pow_add]
  exact (rest_lt (by positivity) hden.pos).trans_le (Nat.mul_le_mul_left _ hden.lt.le)

/-- Long division with a quotient that is wide enough. -/
theorem divideNormalized_eq (hden : Aligned w d denominator) {calls : ℕ}
    (hcalls : limbs w numerator < calls)
    (hquotient : numerator / denominator < 2 ^ quotient.bitSize) :
    divideNormalized w quotient remainder numerator denominator calls =
      some (numerator / denominator, remainder.kept w (numerator % denominator : ℕ)) := by
  induction calls generalizing numerator quotient with
  | zero => omega
  | succ calls ih =>
      have hsize := hden.size_mod
      -- the cases of the source: at most a limb more than the denominator, or split and recurse
      rcases Nat.lt_trichotomy (limbs w numerator) (d + 2) with hlimbs | hlimbs | hlimbs
      · rw [divideNormalized_of_le hden (by omega), kept_of_lt hquotient]
      · rw [divideNormalized]
        simp only [hden.limbs_eq, hsize, hlimbs, ne_eq, not_true_eq_false, if_false]
        rw [if_neg (by omega), if_neg (by omega)]
        simp only [if_true]
        rw [divideSimilarSized_eq hden (limbs_le_iff.mp hlimbs.le) hquotient]
      · have hparts := parts_of_limbs hlimbs
        generalize limbs w numerator - (d + 1) - 1 = l at hparts
        have hupper : numerator / (2 ^ w) ^ l / denominator <
            2 ^ (quotient.subspan w l).bitSize := by
          rw [Nat.div_div_eq_div_mul, Nat.mul_comm, ← Nat.div_div_eq_div_mul]
          apply Nat.div_lt_of_lt_mul
          apply hquotient.trans_le
          rw [← pow_mul, ← pow_add]
          apply Nat.pow_le_pow_right two_pos
          unfold SpanType.subspan
          dsimp only
          rw [Nat.mul_comm w]
          split_ifs <;> omega
        have hdiv := @rest_div numerator _ ((2 ^ w) ^ l) hden.pos
        -- the quotient of the rest has room below that of the upper limbs
        have hlower : rest ((2 ^ w) ^ l) numerator denominator / denominator <
            2 ^ (quotient.firstLimbs w l).bitSize := by
          unfold SpanType.firstLimbs
          dsimp only
          split_ifs
          · rw [Nat.mul_comm, pow_mul]
            exact Nat.div_lt_of_lt_mul (by
              rw [Nat.mul_comm]
              exact rest_lt (by positivity) hden.pos)
          · omega
        have hlimbs' := hparts.limbs_rest hden
        have hih := ih (by omega) hlower
        rw [divideNormalized_step hden hparts, divideSimilarSized_eq hden hparts.upper hupper]
        simp only [hparts.kept_upper, Option.bind_eq_bind, Option.bind_some]
        have hmod := rest_mod ((2 ^ w) ^ l) numerator denominator
        unfold rest at hih hdiv hmod
        rw [hih]
        simp only [Option.bind_some, hdiv, hmod]
        rfl

/-- The shift moves the highest bit of the denominator to that of a limb. -/
theorem aligned_shiftLeft {shift : ℕ} (hden : 0 < denominator)
    (hshift : w - denominator.size % w = shift) : ∃ d, Aligned w d (denominator <<< shift) := by
  apply aligned_of_size
  · rw [Nat.shiftLeft_eq]
    exact Nat.mul_pos hden (Nat.two_pow_pos _)
  · have hw : w ≠ 0 := NeZero.ne w
    have hlt : denominator.size % w < w := Nat.mod_lt _ (Nat.pos_of_ne_zero hw)
    have hparts := Nat.mod_add_div denominator.size w
    rw [Nat.size_shiftLeft hden.ne']
    have hsum : denominator.size + shift = w * (denominator.size / w + 1) := by
      rw [Nat.mul_add, Nat.mul_one]
      omega
    rw [hsum, Nat.mul_mod_right]

/-- The shifted operands fit their arrays. -/
theorem kept_shiftLeft {shift : ℕ} :
    (compiletimeArray (x.size + shift)).kept w (x <<< shift : ℕ) = x <<< shift := by
  apply kept_of_lt
  show x <<< shift < 2 ^ (x.size + shift)
  rw [Nat.shiftLeft_eq, pow_add]
  exact Nat.mul_lt_mul_of_pos_right (Nat.lt_size_self x) (Nat.two_pow_pos _)

omit [NeZero w] in
/-- With the highest bit at the end of a limb, `divide` divides the operands themselves. -/
theorem divide_aligned (hden : 0 < denominator) (hsize : denominator.size % w = 0) :
    divide w quotient remainder numerator denominator =
      divideNormalized w quotient remainder numerator denominator (limbs w numerator + 1) := by
  unfold divide
  dsimp only
  rw [if_neg (Nat.size_pos.mpr hden).ne', if_pos hsize]

/-- Otherwise it divides the shifted ones, and shifts their remainder back. -/
theorem divide_shifted {shift : ℕ} (hden : 0 < denominator) (hsize : ¬ denominator.size % w = 0)
    (hshift : w - denominator.size % w = shift) :
    divide w quotient remainder numerator denominator =
      (divideNormalized w quotient (compiletimeArray (remainder.bitSize + shift))
        (numerator <<< shift) (denominator <<< shift) (limbs w (numerator <<< shift) + 1)).map
          fun s =>
            (s.1, remainder.kept w (s.2 % 2 ^ (remainder.bitSize + shift) / 2 ^ shift : ℕ)) := by
  unfold divide
  dsimp only
  rw [if_neg (Nat.size_pos.mpr hden).ne', if_neg hsize, hshift, kept_shiftLeft, kept_shiftLeft]
  exact (Option.map_eq_bind ..).symm

omit [NeZero w] in
theorem shiftLeft_div_shiftLeft (shift : ℕ) :
    numerator <<< shift / (denominator <<< shift) = numerator / denominator := by
  rw [Nat.shiftLeft_eq, Nat.shiftLeft_eq, Nat.mul_div_mul_right _ _ (Nat.two_pow_pos _)]

/-- The remainder of the shifted operands is the shifted remainder, and has room. -/
theorem kept_shifted_remainder {shift : ℕ}
    (hremainder : numerator % denominator < 2 ^ remainder.bitSize) :
    remainder.kept w ((compiletimeArray (remainder.bitSize + shift)).kept w
      (numerator <<< shift % (denominator <<< shift) : ℕ) %
        2 ^ (remainder.bitSize + shift) / 2 ^ shift : ℕ) = numerator % denominator := by
  have hpow : 0 < 2 ^ shift := Nat.two_pow_pos _
  have hmod : numerator <<< shift % (denominator <<< shift) =
      numerator % denominator * 2 ^ shift := by
    rw [Nat.shiftLeft_eq, Nat.shiftLeft_eq, Nat.mul_mod_mul_right]
  have hroom : numerator % denominator * 2 ^ shift < 2 ^ (remainder.bitSize + shift) := by
    rw [pow_add]
    exact Nat.mul_lt_mul_of_pos_right hremainder hpow
  rw [hmod, kept_of_lt (show _ < 2 ^ (compiletimeArray _).bitSize from hroom),
    Nat.mod_eq_of_lt hroom, Nat.mul_div_cancel _ hpow, kept_of_lt hremainder]

/-- `divide` divides when the quotient and the remainder have room. -/
theorem divide_eq (hden : 0 < denominator)
    (hquotient : numerator / denominator < 2 ^ quotient.bitSize)
    (hremainder : numerator % denominator < 2 ^ remainder.bitSize) :
    divide w quotient remainder numerator denominator =
      some (numerator / denominator, numerator % denominator) := by
  by_cases hsize : denominator.size % w = 0
  · obtain ⟨d, hd⟩ := aligned_of_size hden hsize
    rw [divide_aligned hden hsize, divideNormalized_eq hd (Nat.lt_succ_self _) hquotient,
      kept_of_lt hremainder]
  · generalize hshift : w - denominator.size % w = shift
    obtain ⟨d, hd⟩ := aligned_shiftLeft hden hshift
    rw [divide_shifted hden hsize hshift, divideNormalized_eq hd (Nat.lt_succ_self _)
      (by rwa [shiftLeft_div_shiftLeft]), Option.map_some, shiftLeft_div_shiftLeft,
      kept_shifted_remainder hremainder]

/-- The quotient is right, whatever is kept of the remainder. -/
theorem divide_quotient (hden : 0 < denominator)
    (hquotient : numerator / denominator < 2 ^ quotient.bitSize) :
    ∃ r, divide w quotient remainder numerator denominator = some (numerator / denominator, r) := by
  by_cases hsize : denominator.size % w = 0
  · obtain ⟨d, hd⟩ := aligned_of_size hden hsize
    rw [divide_aligned hden hsize]
    exact ⟨_, divideNormalized_eq hd (Nat.lt_succ_self _) hquotient⟩
  · generalize hshift : w - denominator.size % w = shift
    obtain ⟨d, hd⟩ := aligned_shiftLeft hden hshift
    rw [divide_shifted hden hsize hshift, divideNormalized_eq hd (Nat.lt_succ_self _)
      (by rwa [shiftLeft_div_shiftLeft]), Option.map_some, shiftLeft_div_shiftLeft]
    exact ⟨_, rfl⟩

/-- A quotient without bits works out when no step of the division carries. -/
theorem divideNormalized_null (hden : Aligned w d denominator) {calls : ℕ}
    (hcalls : limbs w numerator < calls) (hquotient : quotient.bitSize = 0) :
    (¬ Carries (2 ^ w) d numerator denominator →
      divideNormalized w quotient remainder numerator denominator calls =
        some (0, remainder.kept w (numerator % denominator : ℕ))) ∧
    (Carries (2 ^ w) d numerator denominator →
      divideNormalized w quotient remainder numerator denominator calls = none) := by
  induction calls generalizing numerator quotient with
  | zero => omega
  | succ calls ih =>
      have hsize := hden.size_mod
      have hbase : 0 < 2 ^ w := Nat.two_pow_pos w
      -- a quotient without bits has no limb for a carry, the only part of it that is not zero
      rcases Nat.lt_trichotomy (limbs w numerator) (d + 2) with hlimbs | hlimbs | hlimbs
      · have hcarries : ¬ Carries (2 ^ w) d numerator denominator :=
          not_carries_of_lt hbase hden.pow_le
            (limbs_le_iff.mp (show limbs w numerator ≤ d + 1 by omega))
        rw [divideNormalized_of_le hden (by omega), kept_of_zero hquotient]
        exact ⟨fun _ => rfl, fun h => absurd h hcarries⟩
      · have hstep : divideNormalized w quotient remainder numerator denominator (calls + 1) =
            divideSimilarSized w quotient remainder numerator denominator 2 := by
          rw [divideNormalized]
          simp only [hden.limbs_eq, hsize, hlimbs, ne_eq, not_true_eq_false, if_false]
          rw [if_neg (by omega), if_neg (by omega)]
          simp only [if_true]
        have hlt := limbs_le_iff.mp hlimbs.le
        have hlow := (limbs_eq_succ_iff.mp hlimbs).1
        have hiff : Carries (2 ^ w) d numerator denominator ↔ denominator * 2 ^ w ≤ numerator := by
          have hlast :
              ¬ Carries (2 ^ w) d (rest ((2 ^ w) ^ 0) numerator denominator) denominator := by
            apply not_carries_of_lt hbase hden.pow_le
            have hrest := @rest_lt numerator _ ((2 ^ w) ^ 0) one_pos hden.pos
            rw [pow_zero, Nat.one_mul] at hrest
            exact hrest.trans hden.lt
          rw [carries_iff (l := 0) hbase hden.pow_le (by rwa [Nat.zero_add])
            (by rwa [Nat.zero_add]),
            or_iff_left hlast, pow_zero, Nat.div_one]
        rw [hstep, divideSimilarSized_null hden hlt hquotient, hiff]
        exact ⟨fun h => if_neg h, fun h => if_pos h⟩
      · have hparts := parts_of_limbs hlimbs
        generalize limbs w numerator - (d + 1) - 1 = l at hparts
        have hiff : Carries (2 ^ w) d numerator denominator ↔
            denominator * 2 ^ w ≤ numerator / (2 ^ w) ^ l ∨
              Carries (2 ^ w) d (rest ((2 ^ w) ^ l) numerator denominator) denominator :=
          carries_iff hbase hden.pow_le hparts.low (limbs_le_iff.mp hparts.limbs_eq.le)
        have hsub : (quotient.subspan w l).bitSize = 0 := by
          simp [SpanType.subspan, hquotient]
        have hfirst : (quotient.firstLimbs w l).bitSize = 0 := by
          simp [SpanType.firstLimbs, hquotient]
        have hlimbs' := hparts.limbs_rest hden
        have hcalls : limbs w (rest ((2 ^ w) ^ l) numerator denominator) < calls := by omega
        have hih := ih hcalls hfirst
        have hmod := rest_mod ((2 ^ w) ^ l) numerator denominator
        rw [divideNormalized_step hden hparts, divideSimilarSized_null hden hparts.upper hsub, hiff]
        -- the upper limbs carry, or the rest does
        by_cases hcarry : denominator * 2 ^ w ≤ numerator / (2 ^ w) ^ l
        · simp [hcarry]
        · rw [if_neg hcarry]
          simp only [hparts.kept_upper, Option.bind_eq_bind, Option.bind_some, hcarry, false_or]
          refine ⟨fun h => ?_, fun h => ?_⟩
          · have hdivide := hih.1 h
            rw [hmod] at hdivide
            unfold rest at hdivide
            rw [hdivide]
            rfl
          · have hdivide := hih.2 h
            unfold rest at hdivide
            rw [hdivide]
            rfl

/-- The shift that moves the highest bit of the denominator to that of a limb. -/
def alignment (w denominator : ℕ) : ℕ :=
  if denominator.size % w = 0 then 0 else w - denominator.size % w

/-- A step of the division of the shifted operands carries. -/
def DivisionCarries (w numerator denominator : ℕ) : Prop :=
  Carries (2 ^ w) (limbs w denominator - 1) (numerator <<< alignment w denominator)
    (denominator <<< alignment w denominator)

omit [NeZero w] in
theorem divisionCarries_iff {l : ℕ} (hden : 0 < denominator)
    (hlt : numerator <<< alignment w denominator < (2 ^ w) ^ l) :
    DivisionCarries w numerator denominator ↔
      ∃ k < l, 0 < k ∧
        denominator <<< alignment w denominator ≤ partialNumerator (2 ^ w)
          (numerator <<< alignment w denominator) (denominator <<< alignment w denominator) k ∧
        partialNumerator (2 ^ w) (numerator <<< alignment w denominator)
            (denominator <<< alignment w denominator) k <
          (2 ^ w) ^ (limbs w denominator - 1 + 1) := by
  apply carries_iff_exists_lt (Nat.two_pow_pos w) _ hlt
  rw [Nat.shiftLeft_eq]
  exact Nat.mul_pos hden (Nat.two_pow_pos _)

theorem limbs_shiftLeft (hden : 0 < denominator)
    (hd : Aligned w d (denominator <<< alignment w denominator)) :
    limbs w denominator = d + 1 := by
  have hsize := hd.size_eq
  have hw : 0 < w := Nat.pos_of_ne_zero (NeZero.ne w)
  have hlt : alignment w denominator < w := by
    have := Nat.mod_lt denominator.size hw
    unfold alignment
    split_ifs <;> omega
  rw [Nat.size_shiftLeft hden.ne', Nat.mul_succ] at hsize
  have hle := limbSizeFor_le_iff (w := w) denominator.size d
  have hle' := limbSizeFor_le_iff (w := w) denominator.size (d + 1)
  rw [Nat.mul_succ] at hle'
  unfold limbs
  omega

/-- `divide` without a quotient divides exactly when no step carries. -/
theorem divide_null (hden : 0 < denominator) (hquotient : quotient.bitSize = 0)
    (hremainder : numerator % denominator < 2 ^ remainder.bitSize) :
    (¬ DivisionCarries w numerator denominator →
      divide w quotient remainder numerator denominator = some (0, numerator % denominator)) ∧
    (DivisionCarries w numerator denominator →
      divide w quotient remainder numerator denominator = none) := by
  by_cases hsize : denominator.size % w = 0
  · obtain ⟨d, hd⟩ := aligned_of_size hden hsize
    have hshift : alignment w denominator = 0 := if_pos hsize
    have hnull := @divideNormalized_null w _ _ _ _ _ remainder hd _
      (Nat.lt_succ_self (limbs w numerator)) hquotient
    rw [kept_of_lt hremainder] at hnull
    rw [divide_aligned hden hsize, DivisionCarries, hshift, hd.limbs_eq]
    exact hnull
  · have hshift : alignment w denominator = w - denominator.size % w := if_neg hsize
    obtain ⟨d, hd⟩ := aligned_shiftLeft hden hshift.symm
    have hlimbs := limbs_shiftLeft hden hd
    rw [divide_shifted hden hsize hshift.symm, DivisionCarries, hlimbs, Nat.add_sub_cancel]
    generalize alignment w denominator = shift at hd
    have hnull := @divideNormalized_null w _ _ _ _ _ (compiletimeArray (remainder.bitSize + shift))
      hd _ (Nat.lt_succ_self (limbs w (numerator <<< shift))) hquotient
    refine ⟨fun h => ?_, fun h => ?_⟩
    · rw [hnull.1 h, Option.map_some, kept_shifted_remainder hremainder]
    · rw [hnull.2 h]
      rfl

end

end Compiletime

end Hmpc.Core
