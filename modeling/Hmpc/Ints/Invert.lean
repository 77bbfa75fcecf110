/-
# Hmpc.Ints.Invert -- inverses modulo a number, at compile time

The extended algorithm runs on what is stored, `a * R`, and on the modulus. Its coefficient is
`a⁻¹ * R⁻¹`, so that a product with `R ^ 3` and one reduction give the Montgomery form of `a⁻¹`. The
product compiles when `R ^ 3` modulo the modulus has as many bits as its limbs need.
-/
import Hmpc.Ints.ModConversion

namespace Hmpc.Ints

open Hmpc.Core Hmpc.Lib Hmpc.Lib.Limbs MaybeConstant SpanType

/-! ## The constant -/

namespace Modulus

variable {w : ℕ} (memory : ℕ → BitVec w) (N : Modulus)

/-- `reduced_cubed_auxiliary_modulus` -/
def reducedCubedAuxiliaryModulus : Option ℕ := do
  let square ← N.reducedSquareAuxiliaryModulus w
  let productType : SpanType := ⟨N.bitSize + N.bitSize, .unsigned, N.normalType⟩
  let intermediateResult := productType.array w (square * square : ℕ)
  return value (Num.montgomeryReduce N.dataType intermediateResult.span (N.modulusSpan w)
    (N.limbSize w) (N.inverseModulus w) (Bigint.uninitialized memory (N.limbSize w)))

/-- `R ^ 3` modulo the modulus -/
def cubedFactor (w : ℕ) (N : Modulus) : ℕ := N.auxiliaryModulus w ^ 3 % N.toNat

/-- The third power of `R` is the number below the modulus that the code computes. -/
theorem reducedCubedAuxiliaryModulus_definedWhen [NeZero w] :
    DefinedWhen (N.SquareCompiles w) (N.reducedCubedAuxiliaryModulus memory)
      (· = N.cubedFactor w) := by
  refine N.reducedSquareAuxiliaryModulus_definedWhen.map ?_
  rintro square rfl
  have hpos : 0 < N.toNat := Nat.pos_of_ne_zero (NeZero.ne _)
  have hsquare : N.squareFactor w = N.auxiliaryModulus w * N.auxiliaryModulus w % N.toNat := rfl
  generalize N.squareFactor w = square at hsquare ⊢
  have hlt : square < N.toNat := hsquare ▸ Nat.mod_lt _ hpos
  have hproduct : square * square < N.toNat * N.toNat := Nat.mul_lt_mul'' hlt hlt
  have hbits : N.toNat * N.toNat ≤ 2 ^ (N.bitSize + N.bitSize) := by
    rw [pow_add]
    exact Nat.mul_le_mul N.lt_two_pow.le N.lt_two_pow.le
  have hroom : N.toNat * N.toNat ≤ (2 ^ w) ^ N.limbSize w * N.toNat :=
    Nat.mul_le_mul_right _ (N.lt_auxiliaryModulus (w := w)).le
  generalize htype : (⟨N.bitSize + N.bitSize, .unsigned, N.normalType⟩ : SpanType) = productType
  have hu : productType.signedness = .unsigned := by rw [← htype]
  have hdenotes : (productType.array w (square * square : ℕ)).span.Denotes
      (square * square : ℕ) := by
    refine productType.array_denotes (fun hs => ?_) ((productType.inRange_unsigned hu).mpr ?_)
    · rw [hu] at hs
      cases hs
    · refine ⟨Int.natCast_nonneg _, ?_⟩
      rw [← htype]
      exact_mod_cast hproduct.trans_le hbits
  have hreduce := Mod.montgomeryReduce_eq (N := N) (r := N.limbSize w)
    (Bigint.length_uninitialized memory (N.limbSize w)) hdenotes (Int.natCast_nonneg _)
    (by exact_mod_cast hproduct.trans_le hroom)
  -- R ^ 2 * R ^ 2 * R⁻¹ = R ^ 3
  have hcast : ((square * square : ℕ) : ZMod N.toNat) =
      (N.auxiliaryModulus w : ZMod N.toNat) ^ 3 * N.auxiliaryModulus w := by
    rw [hsquare, Nat.cast_mul, ZMod.natCast_mod, Nat.cast_mul]
    ring
  have hcubed : (((square * square : ℕ) : ℤ) : ZMod N.toNat) *
      (((2 ^ w) ^ N.limbSize w : ℕ) : ZMod N.toNat)⁻¹ =
        (N.auxiliaryModulus w : ZMod N.toNat) ^ 3 := by
    rw [Int.cast_natCast, hcast, mul_assoc]
    show _ * (_ * (N.auxiliaryModulus w : ZMod N.toNat)⁻¹) = _
    rw [Mod.auxiliaryModulus_mul_inv, mul_one]
  rw [hreduce, hcubed, ← Nat.cast_pow]
  exact (Mod.value_ofResidue (w := w) _).trans (ZMod.val_natCast _ _)

omit memory in
/-- The power is a unit, and not zero. -/
theorem cubedFactor_pos : 0 < N.cubedFactor w :=
  N.mod_pos (Nat.Coprime.pow_left 3 N.coprime_auxiliaryModulus)

/-- The constant of an inverse and the product with it compile. -/
def CubedCompiles (w : ℕ) (N : Modulus) : Prop :=
  N.SquareCompiles w ∧ N.ProductCompiles w N.bitSize (N.cubedFactor w)

end Modulus

/-! ## The inverse -/

namespace Mod

variable {w : ℕ} {N : Modulus} (memory : ℕ → BitVec w)

/-- `invert(value)` -/
def invert (a : Mod w N) : Option (Mod w N) := do
  let (greatestCommonDivisor, inverse, _) ← Compiletime.extendedEuclidean w N.dataType N.dataType
    Compiletime.nullType N.bitSize N.bits (value a.limbs) N.toNat
  if greatestCommonDivisor = 1 then
    let cubed ← N.reducedCubedAuxiliaryModulus memory
    multiplyReduce memory (uninitialized memory N) (N.dataType.array w inverse).span cubed
  else none

variable [NeZero w]

omit [NeZero w] in
/-- What is stored of a unit is coprime to the modulus. -/
theorem coprime_of_isUnit {a : Mod w N} (ha : IsUnit a.toZMod) :
    Nat.Coprime (value a.limbs) N.toNat := by
  have hR : IsUnit (N.auxiliaryModulus w : ZMod N.toNat) :=
    IsUnit.of_mul_eq_one _ auxiliaryModulus_mul_inv
  have hunit := ha.mul hR
  rw [← residue_eq] at hunit
  exact (ZMod.isUnit_iff_coprime _ _).mp hunit

/-- A number of the bits of the modulus, as an operand. -/
theorem unsigned_array {x : ℕ} (hx : x < 2 ^ N.bitSize) :
    Num.Unsigned (N.dataType.array w x).span x := by
  have hrange : N.dataType.InRange x := (N.dataType.inRange_unsigned rfl).mpr
    ⟨Int.natCast_nonneg _, by exact_mod_cast hx⟩
  have hnormalized : Bigint.Normalized (N.dataType.array w x) :=
    ⟨nofun, N.dataType.isNormal_array hrange⟩
  have hspan := Bigint.unsigned_span hnormalized rfl
  rwa [N.dataType.toInt_array, hrange] at hspan

/-- **The inverse of a unit**, exactly when the constant and the product with it compile. -/
theorem invert_definedWhen {a : Mod w N} (ha : a.Reduced) (hunit : IsUnit a.toZMod) :
    DefinedWhen (N.CubedCompiles w) (invert memory a)
      fun b => b.Reduced ∧ a.toZMod * b.toZMod = 1 := by
  have hcoprime := coprime_of_isUnit hunit
  have hpos : 0 < value a.limbs := by
    apply Nat.pos_of_ne_zero
    intro hzero
    rw [hzero, Nat.coprime_zero_left] at hcoprime
    exact N.one_lt.ne' hcoprime
  have hN : 0 < N.toNat := Nat.pos_of_ne_zero (NeZero.ne _)
  have hone : N.dataType.kept w (Nat.gcd (value a.limbs) N.toNat : ℕ) = 1 := by
    rw [hcoprime.gcd_eq_one]
    exact Compiletime.kept_of_lt (N.one_lt.trans N.lt_two_pow)
  -- the coefficient is the inverse of the Montgomery form, hence the cube of `R`
  obtain ⟨coefficient, hle, other, heuclidean, hdvd⟩ :=
    @Compiletime.extendedEuclidean_eq w _ _ _ N.dataType N.dataType Compiletime.nullType
      N.bitSize N.bits hpos hN (lt_trans ha N.lt_two_pow) N.lt
  have hcoefficient : coefficient < 2 ^ N.bitSize := hle.trans_lt N.lt_two_pow
  have hkept : N.dataType.kept w coefficient = coefficient := Compiletime.kept_of_lt hcoefficient
  rw [hkept] at heuclidean
  unfold invert
  simp only [heuclidean, Option.bind_eq_bind, Option.bind_some, hone, if_true]
  refine (N.reducedCubedAuxiliaryModulus_definedWhen memory).bind ?_
  rintro _ rfl
  have hinverse := unsigned_array (w := w) (N := N) hcoefficient
  refine (multiplyReduce_definedWhen memory (uninitialized memory N) hinverse
    (by exact_mod_cast hle.trans_lt (N.lt_auxiliaryModulus (w := w))) N.cubedFactor_pos
    (Nat.mod_lt _ hN)).imp ?_
  rintro _ rfl
  refine ⟨reduced_ofResidue _, ?_⟩
  have hone : (coefficient : ZMod N.toNat) * a.residue = 1 := by
    rw [hcoprime.gcd_eq_one] at hdvd
    have hzero := (ZMod.intCast_zmod_eq_zero_iff_dvd _ _).mpr hdvd
    push_cast at hzero
    exact sub_eq_zero.mp hzero
  have hR := auxiliaryModulus_mul_inv (w := w) (N := N)
  rw [toZMod, toZMod, residue_ofResidue, Modulus.cubedFactor, ZMod.natCast_mod, Nat.cast_pow,
    Int.cast_natCast]
  generalize (N.auxiliaryModulus w : ZMod N.toNat) = R at hR
  calc a.residue * R⁻¹ * (coefficient * R ^ 3 * R⁻¹ * R⁻¹)
      = coefficient * a.residue * (R * R⁻¹) ^ 3 := by ring
    _ = 1 := by rw [hone, hR, one_pow, mul_one]

end Mod

end Hmpc.Ints
