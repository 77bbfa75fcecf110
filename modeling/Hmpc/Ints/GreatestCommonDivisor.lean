/-
# Hmpc.Ints.GreatestCommonDivisor -- common divisors and inverses of unsigned big integers

`greatest_common_divisor` and `invert_modulo` run the algorithms on the spans of their operands. An
inverse is the coefficient of the value; its result has the bits of the modulus.
-/
import Hmpc.Core.CheckedGreatestCommonDivisor
import Hmpc.Ints.ModConversion

namespace Hmpc.Ints.Bigint

open Hmpc.Core Hmpc.Core.Checked Hmpc.Lib.Euclid SpanType

variable {w : ℕ} (memory : ℕ → BitVec w)

/-- The type of the greatest common divisor. -/
def greatestCommonDivisorType (left right : SpanType) : SpanType :=
  ⟨max left.bitSize right.bitSize, .unsigned, left.normalType⟩

/-- `greatest_common_divisor(left, right)`, with a bound on the steps of its loop. -/
def greatestCommonDivisor (left right : BitSpan w) (steps : ℕ) : Option (BitSpan w) := do
  let t := greatestCommonDivisorType left.type right.type
  let limbs ← Checked.greatestCommonDivisor t (.apart left) (.apart right) steps
    (uninitialized memory (t.limbSize w))
  return ⟨t, limbs⟩

/-- `ubigint<1>{1}` -/
def unit (w : ℕ) : BitArray w := (SpanType.mk 1 .unsigned .normal).array w 1

/-- `invert_modulo(value, modulus)`, with a bound on the steps of its loop. The comparison with
`ubigint<1>{1}`, whose limb is the default one, takes integers of 32-bit limbs only. -/
def invertModulo (value modulus : BitSpan w) (steps : ℕ) : Option (BitSpan w) := do
  let t := greatestCommonDivisorType value.type modulus.type
  let u : SpanType := ⟨modulus.type.bitSize, .unsigned, value.type.normalType⟩
  let limbs ← extendedEuclidean t u Compiletime.nullType value modulus steps
    (uninitialized memory (t.limbSize w)) (uninitialized memory (u.limbSize w)) []
  if Num.equalTo (BitSpan.mk t limbs.1).span (unit w).span = 1 then some ⟨u, limbs.2.1⟩ else none

/-- What `extended_euclidean` does on the numbers `x` and `y`, and `invert_modulo` with it. -/
structure ExtendsEuclid (left right : BitSpan w) (x y : ℕ) : Prop where
  /-- The arrays hold what a run without a limit to their width computes. -/
  exact (b : Buffers w) (h : Reached left right b) : ∃ σ, State.Reached x y σ ∧
    b.Represents (compiletimeArray (max left.type.bitSize right.type.bitSize)) σ
  results (result leftResult rightResult : SpanType) (hresult : result.signedness = .unsigned)
    (hleft : leftResult.signedness = .unsigned) (hright : rightResult.signedness = .unsigned)
    (resultLimbs leftLimbs rightLimbs : List (BitVec w))
    (hresultLimbs : resultLimbs.length = result.limbSize w)
    (hleftLimbs : leftLimbs.length = leftResult.limbSize w)
    (hrightLimbs : rightLimbs.length = rightResult.limbSize w) (steps : ℕ) (hsteps : y < steps) :
    ∃ s t : ℕ, extendedEuclidean result leftResult rightResult left right steps resultLimbs
        leftLimbs rightLimbs = some (result.image w (Nat.gcd x y : ℕ), leftResult.image w s,
          rightResult.image w t) ∧
      s ≤ y ∧ s * x ≡ Nat.gcd x y [MOD y] ∧ t ≤ x ∧ t * y ≡ Nat.gcd x y [MOD x]
  inverse (hgcd : Nat.gcd x y = 1) (hy : 1 < y) (steps : ℕ) (hsteps : y < steps) :
    ∃ (result : BitSpan w) (s : ℕ), invertModulo memory left right steps = some result ∧
      result.type.bitSize = right.type.bitSize ∧ Holds result s ∧ s < y ∧ s * x ≡ 1 [MOD y]

section

variable [NeZero w] {left right value modulus : BitSpan w} {x y : ℕ}

/-- Greatest common divisors always compile. -/
theorem greatestCommonDivisor_eq (hx : Holds left x) (hy : Holds right y) {steps : ℕ}
    (hsteps : x + y < steps) :
    ∃ result, greatestCommonDivisor memory left right steps = some result ∧
      Holds result (Nat.gcd x y) := by
  generalize htype : greatestCommonDivisorType left.type right.type = t
  have hu : t.signedness = .unsigned := htype ▸ rfl
  have hbits : max left.type.bitSize right.type.bitSize ≤ t.bitSize := htype ▸ le_rfl
  have hlen := length_uninitialized memory (t.limbSize w)
  have heq := Checked.greatestCommonDivisor_eq hu hlen
    (show Holds (Operand.span (.apart left) _) x from hx)
    (show Holds (Operand.span (.apart right) _) y from hy) hsteps
  refine ⟨_, ?_, holds_image hu (gcd_lt hx.lt hy.lt hbits)⟩
  unfold greatestCommonDivisor
  dsimp only
  rw [htype, heq]
  rfl

/-- The comparison of a result with `ubigint<1>{1}`. -/
theorem equalTo_unit {t : SpanType} (hu : t.signedness = .unsigned) (ht : 1 < 2 ^ t.bitSize) :
    Num.equalTo (BitSpan.mk t (t.image w 1)).span (unit w).span = 1 := by
  have hone {t : SpanType} (hu : t.signedness = .unsigned) (ht : 1 < 2 ^ t.bitSize) :
      (t.array w 1).span.Represents 1 := by
    have hrange : t.InRange 1 := (inRange_unsigned t hu).mpr ⟨zero_le_one, by exact_mod_cast ht⟩
    have hnormalized : Normalized (t.array w 1) :=
      ⟨fun hs => absurd (hu.symm.trans hs) (by decide), t.isNormal_array hrange⟩
    have hrepresents := Mod.represents_of_normalized hnormalized
    rwa [(t.toInt_array 1).trans hrange] at hrepresents
  have hleft := hone hu ht
  have hright := hone (t := ⟨1, .unsigned, .normal⟩) rfl Nat.one_lt_two
  exact (Num.equalTo_eq_one_iff hleft hright).mpr
    ((Num.sameDigits_iff_of_unsigned hleft hright hu rfl).mpr rfl)

variable (hx : Holds value x) (hy : Holds modulus y) (hxpos : 0 < x)
include hx hy hxpos

/-- An inverse is below the modulus, since a multiple of it is not one. -/
theorem invertModulo_eq (hgcd : Nat.gcd x y = 1) (hone : 1 < y) {steps : ℕ} (hsteps : y < steps) :
    ∃ (result : BitSpan w) (s : ℕ), invertModulo memory value modulus steps = some result ∧
      result.type.bitSize = modulus.type.bitSize ∧ Holds result s ∧ s < y ∧ s * x ≡ 1 [MOD y] := by
  generalize htype : greatestCommonDivisorType value.type modulus.type = t
  generalize hinverse : SpanType.mk modulus.type.bitSize .unsigned value.type.normalType = u
  have ht : t.signedness = .unsigned := htype ▸ rfl
  have hu : u.signedness = .unsigned := hinverse ▸ rfl
  have hbits : modulus.type.bitSize ≤ t.bitSize := htype ▸ le_max_right _ _
  have hubits : u.bitSize = modulus.type.bitSize := hinverse ▸ rfl
  have hnone : ([] : List (BitVec w)).length = Compiletime.nullType.limbSize w :=
    limbSizeFor_zero.symm
  obtain ⟨s, _, heuclidean, hle, hmod, -⟩ := extendedEuclidean_eq hx hy hxpos (by omega) ht hu rfl
    (length_uninitialized memory _) (length_uninitialized memory _) hnone hsteps
  rw [hgcd] at heuclidean hmod
  have hlt : s < y := by
    apply lt_of_le_of_ne hle
    rintro rfl
    have hzero : s * x ≡ 0 [MOD s] := Nat.modEq_zero_iff_dvd.mpr (Nat.dvd_mul_right s x)
    have hdvd : s ∣ 1 := Nat.modEq_zero_iff_dvd.mp (hmod.symm.trans hzero)
    exact absurd (Nat.le_of_dvd one_pos hdvd) (Nat.not_le.mpr hone)
  have hcompare := equalTo_unit (w := w) ht
    (hone.trans (hy.lt.trans_le (Nat.pow_le_pow_right two_pos hbits)))
  refine ⟨⟨u, u.image w s⟩, s, ?_, hubits, holds_image hu (hubits ▸ hlt.trans hy.lt), hlt, hmod⟩
  unfold invertModulo
  dsimp only
  rw [htype, hinverse, heuclidean, Option.bind_eq_bind, Option.bind_some]
  exact if_pos hcompare

/-- **The extended algorithm** ends with the greatest common divisor and its coefficients, none of
which is wider than the arrays on the way. -/
theorem extendsEuclid (hypos : 0 < y) : ExtendsEuclid memory value modulus x y where
  exact _ h := h.represents hx hy hxpos hypos
  results _ _ _ hresult hleft hright _ _ _ hresultLimbs hleftLimbs hrightLimbs _ hsteps :=
    extendedEuclidean_eq hx hy hxpos hypos hresult hleft hright hresultLimbs hleftLimbs hrightLimbs
      hsteps
  inverse hgcd hone _ hsteps := invertModulo_eq memory hx hy hxpos hgcd hone hsteps

end

/-- The inverse of `2 ^ 32 + 1` modulo `10 ^ 10`. -/
theorem extendsEuclid_decimal : ExtendsEuclid (w := 32) (fun _ => 7)
    ⟨⟨33, .unsigned, .normal⟩, [1, 1]⟩ ⟨⟨34, .unsigned, .normal⟩, [1410065408, 2]⟩
    4294967297 10000000000 :=
  extendsEuclid _ ⟨rfl, rfl, by decide, by decide⟩ ⟨rfl, rfl, by decide, by decide⟩ (by decide)
    (by decide)

end Hmpc.Ints.Bigint
