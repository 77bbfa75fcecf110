/-
# Hmpc.Ints.ModConversion -- from integers to integers modulo a number, and back

An unsigned integer of the limbs of the modulus is multiplied by `R ^ 2` and reduced once. A wider
one is reduced by all of its own limbs first. A signed one becomes unsigned by adding a multiple of
the modulus when it is negative. The factors are constants that are computed with `%`, and their
spans have the bits of their numbers only. When such a division, the span of a constant or the
product with it does not compile, there is no value.
-/
import Hmpc.Ints.Residue
import Hmpc.Lib.Domain
import Mathlib.Data.ZMod.ValMinAbs

namespace Hmpc.Ints

open Hmpc.Core Hmpc.Lib Hmpc.Lib.Limbs Hmpc.Lib.Digits MaybeConstant SpanType

/-! ## The constants -/

namespace Modulus

variable (w : ℕ) (N : Modulus)

/-- `value % modulus`: `operator%` takes integers of one normalization, and passes a quotient
without bits. -/
def remainder (normalType : Normalization) (value : ℕ) : Option ℕ := do
  guard (normalType = N.normalType)
  let (_, remainder) ← Compiletime.divide w Compiletime.nullType
    ⟨N.bits, .unsigned, N.normalType⟩ value N.toNat
  return remainder

/-- `bit_copy<unsigned_type>(value)` -/
def toUnsignedType (value : ℕ) : ℕ := N.dataType.kept w value

/-- `reduced_auxiliary_modulus` -/
def reducedAuxiliaryModulus : Option ℕ := do
  return N.toUnsignedType w (← N.remainder w N.normalType (N.auxiliaryModulus w))

/-- `reduced_square_auxiliary_modulus` -/
def reducedSquareAuxiliaryModulus : Option ℕ := do
  let reduced ← N.reducedAuxiliaryModulus w
  return N.toUnsignedType w (← N.remainder w N.normalType (reduced * reduced))

/-- The factor behind
`reduced_other_auxiliary_modulus_times_square_auxiliary_modulus_span<OtherLimbSize>` -/
def reducedOtherAuxiliaryModulus (otherLimbSize : ℕ) : Option ℕ := do
  let square ← N.reducedSquareAuxiliaryModulus w
  return N.toUnsignedType w (← N.remainder w N.normalType ((2 ^ w) ^ otherLimbSize * square))

/-- `offset_to<OtherModulus>`, for a number of a normalization -/
def offsetTo (normalType : Normalization) (otherModulus : ℕ) : Option ℕ := do
  let reduced ← N.remainder w normalType otherModulus
  return if reduced = 0 then 0 else N.toNat - reduced

end Modulus

namespace Mod

variable {w : ℕ} {N : Modulus} (memory : ℕ → BitVec w)

/-! ## The constructors -/

/-- A `mod` that has not been written. -/
def uninitialized (N : Modulus) : Mod w N :=
  ⟨Bigint.uninitialized memory (N.limbSize w), Bigint.length_uninitialized _ _⟩

/-- `montgomery_reduce(*this, value, modulus_span, auxiliary_power, inverse_modulus)` -/
def montgomeryReduce (self : Mod w N) (value : Span w) (auxiliaryPower : ℕ) : Mod w N :=
  ⟨Num.montgomeryReduce N.dataType value (N.modulusSpan w) auxiliaryPower (N.inverseModulus w)
    self.limbs, by simp [self.limb_size]⟩

/-- `multiply(intermediate, value, factor)`, when it compiles, and the reduction by the limbs of the
modulus. -/
def multiplyReduce (self : Mod w N) (value : Span w) (factor : ℕ) : Option (Mod w N) := do
  let factorSpan ← tryConstantBitSpanOf w factor
  let productType : SpanType := ⟨value.bitSize + N.bitSize, .unsigned, .unnormal⟩
  let intermediate ← Num.tryMultiply productType value factorSpan
    (Bigint.uninitialized memory
      (limbSizeFor w (Nat.min productType.bitSize (value.bitSize + factorSpan.bitSize))))
    (Bigint.uninitialized memory (productType.limbSize w))
  return montgomeryReduce self (BitSpan.mk productType intermediate).span (N.limbSize w)

/-- `from_unsigned_integer(value)`, for small and for large values. The limbs of the object itself
are a small value; they are read before they are written. -/
def fromUnsignedInteger (self : Mod w N) (value : Span w) : Option (Mod w N) :=
  if value.bitSize ≤ N.limbSize w * w then do
    let square ← N.reducedSquareAuxiliaryModulus w
    multiplyReduce memory self value square
  else do
    let factor ← N.reducedOtherAuxiliaryModulus w value.limbSize
    let self := montgomeryReduce self value value.limbSize
    multiplyReduce memory self self.span factor

/-- The constructor from an unsigned integer. -/
def ofUnsigned (N : Modulus) (value : BitArray w) : Option (Mod w N) :=
  fromUnsignedInteger memory (uninitialized memory N) value.span

/-- The constructors from a small and from a larger signed integer. -/
def ofSigned (N : Modulus) (value : BitArray w) : Option (Mod w N) :=
  let read := value.span
  let sign := runtime read.sign.value
  if value.type.bitSize < N.bitSize then
    let self : Mod w N := ⟨(Core.Num.add N.dataType ((N.modulusSpan w).mask sign).source
      read.source (constant 0) (uninitialized memory N).limbs).1,
      by simp [(uninitialized memory N).limb_size]⟩
    fromUnsignedInteger memory self self.span
  else do
    let largestAbsoluteValue := 2 ^ (value.type.bitSize - 1)
    -- the smallest number is one `normal` limb, shifted
    let offset ← N.offsetTo w .normal largestAbsoluteValue
    let nextModulusMultiple := largestAbsoluteValue + offset
    let nextModulusMultipleSpan ← tryConstantBitSpanOf w nextModulusMultiple
    let integerType : SpanType := ⟨(nextModulusMultiple - 1).size, .unsigned, .unnormal⟩
    let normalizedInteger := (Core.Num.add integerType
      (nextModulusMultipleSpan.mask sign).source read.source (constant 0)
      (Bigint.uninitialized memory (integerType.limbSize w))).1
    fromUnsignedInteger memory (uninitialized memory N)
      (BitSpan.mk integerType normalizedInteger).span

/-- The constructor from an integer of either signedness. -/
def ofInteger (N : Modulus) (value : BitArray w) : Option (Mod w N) :=
  match value.type.signedness with
  | .unsigned => ofUnsigned memory N value
  | .signed => ofSigned memory N value

/-- `operator signed_type` -/
def toSigned (a : Mod w N) : BitArray w :=
  let unsignedResult := (toUnsigned memory a).span
  let t : SpanType := ⟨N.bitSize, .signed, N.normalType⟩
  let mask := runtime (Num.greater unsignedResult (constantBitSpanOf w (N.toNat / 2)))
  ⟨⟨t, (Num.subtract t unsignedResult.source ((N.modulusSpan w).mask mask).source (constant 0)
    (Bigint.uninitialized memory (t.limbSize w))).1⟩, by simp⟩

/-- The constructor from a `mod` of another modulus `M`. -/
def ofMod (N : Modulus) {M : Modulus} (value : Mod w M) : Option (Mod w N) := do
  -- `static_assert(OtherModulus != Modulus)`
  guard (M.toNat ≠ N.toNat)
  let integerValue := (toUnsigned memory value).span
  let mask := runtime (Num.greater integerValue (constantBitSpanOf w (M.toNat / 2)))
  if N.toNat > M.toNat then
    let offset := N.toNat - M.toNat
    let offsetSpan ← tryConstantBitSpanOf w offset
    let self : Mod w N := ⟨(Core.Num.add N.dataType integerValue.source
      (offsetSpan.mask mask).source (constant 0)
      (uninitialized memory N).limbs).1, by simp [(uninitialized memory N).limb_size]⟩
    fromUnsignedInteger memory self self.span
  else
    let offset ← N.offsetTo w M.normalType M.toNat
    let offsetSpan ← tryConstantBitSpanOf w offset
    let integerType : SpanType := ⟨(M.toNat + offset - 1).size, .unsigned, .unnormal⟩
    let normalizedInteger := (Core.Num.add integerType integerValue.source
      (offsetSpan.mask mask).source (constant 0)
      (Bigint.uninitialized memory (integerType.limbSize w))).1
    fromUnsignedInteger memory (uninitialized memory N)
      (BitSpan.mk integerType normalizedInteger).span

end Mod

/-! ## When the constants compile -/

theorem tryConstantBitSpanOf_definedWhen {w : ℕ} (x : ℕ) :
    DefinedWhen (x ≠ 0) (tryConstantBitSpanOf w x) (Num.Unsigned · x) := by
  refine ⟨fun hx => ?_, fun hx => ?_⟩
  · have : NeZero x := ⟨hx⟩
    exact ⟨_, tryConstantBitSpanOf_eq w x, constantBitSpanOf_unsigned x⟩
  · rw [not_not.mp hx]
    exact tryConstantBitSpanOf_zero w

namespace Modulus

open Core.Compiletime

variable {w : ℕ} [NeZero w] (N : Modulus)

/-- A remainder compiles for integers of one normalization when no step of the division carries. -/
theorem remainder_definedWhen (normalType : Normalization) (value : ℕ) :
    DefinedWhen (normalType = N.normalType ∧ ¬ DivisionCarries w value N.toNat)
      (N.remainder w normalType value) (· = value % N.toNat) := by
  have hpos : 0 < N.toNat := Nat.pos_of_ne_zero (NeZero.ne _)
  have hnull := @divide_null w _ value _ _
    ⟨N.bits, .unsigned, N.normalType⟩ hpos (show nullType.bitSize = 0 from rfl)
    ((Nat.mod_lt value hpos).trans N.lt)
  have hdivide : DefinedWhen (¬ DivisionCarries w value N.toNat)
      (divide w nullType ⟨N.bits, .unsigned, N.normalType⟩ value N.toNat)
      fun result => result.2 = value % N.toNat :=
    ⟨fun h => ⟨_, hnull.1 h, rfl⟩, fun h => hnull.2 (not_not.mp h)⟩
  exact (DefinedWhen.of_guard _).bind fun _ _ => hdivide.map fun _ h => h

theorem toUnsignedType_mod (value : ℕ) :
    N.toUnsignedType w (value % N.toNat) = value % N.toNat := by
  apply kept_of_lt
  exact (Nat.mod_lt value (Nat.pos_of_ne_zero (NeZero.ne _))).trans N.lt_two_pow

/-- The constants of the modulus have its normalization. -/
theorem remainder_toUnsignedType (value : ℕ) :
    DefinedWhen (¬ DivisionCarries w value N.toNat)
      (do return N.toUnsignedType w (← N.remainder w N.normalType value))
      (· = value % N.toNat) := by
  refine ((N.remainder_definedWhen N.normalType value).congr (and_iff_right rfl)).map ?_
  rintro _ rfl
  exact N.toUnsignedType_mod value

/-- `R ^ 2` modulo the modulus -/
def squareFactor (w : ℕ) (N : Modulus) : ℕ := N.auxiliaryModulus w * N.auxiliaryModulus w % N.toNat

/-- `R' * R ^ 2` modulo the modulus, for the `R'` of a value of some limbs -/
def otherFactor (w : ℕ) (N : Modulus) (otherLimbSize : ℕ) : ℕ :=
  (2 ^ w) ^ otherLimbSize * N.squareFactor w % N.toNat

/-- The divisions behind `reduced_square_auxiliary_modulus` compile. -/
def SquareCompiles (w : ℕ) (N : Modulus) : Prop :=
  ¬ DivisionCarries w (N.auxiliaryModulus w) N.toNat ∧
    ¬ DivisionCarries w
      (N.auxiliaryModulus w % N.toNat * (N.auxiliaryModulus w % N.toNat)) N.toNat

/-- The divisions behind the factor for a value of some limbs compile. -/
def FactorCompiles (w : ℕ) (N : Modulus) (otherLimbSize : ℕ) : Prop :=
  N.SquareCompiles w ∧
    ¬ DivisionCarries w ((2 ^ w) ^ otherLimbSize * N.squareFactor w) N.toNat

theorem reducedAuxiliaryModulus_definedWhen :
    DefinedWhen (¬ DivisionCarries w (N.auxiliaryModulus w) N.toNat) (N.reducedAuxiliaryModulus w)
      (· = N.auxiliaryModulus w % N.toNat) :=
  N.remainder_toUnsignedType _

theorem reducedSquareAuxiliaryModulus_definedWhen :
    DefinedWhen (N.SquareCompiles w) (N.reducedSquareAuxiliaryModulus w)
      (· = N.squareFactor w) := by
  refine N.reducedAuxiliaryModulus_definedWhen.bind ?_
  rintro _ rfl
  refine (N.remainder_toUnsignedType _).imp ?_
  rintro _ rfl
  exact (Nat.mul_mod _ _ _).symm

theorem reducedOtherAuxiliaryModulus_definedWhen (otherLimbSize : ℕ) :
    DefinedWhen (N.FactorCompiles w otherLimbSize) (N.reducedOtherAuxiliaryModulus w otherLimbSize)
      (· = N.otherFactor w otherLimbSize) := by
  refine N.reducedSquareAuxiliaryModulus_definedWhen.bind ?_
  rintro _ rfl
  exact N.remainder_toUnsignedType _

/-- The product of a value of some bits with a constant compiles. The span of a constant has the
bits of its number, so that there may be fewer limbs in the product than in what it is written
to. -/
def ProductCompiles (w : ℕ) (N : Modulus) (bitSize factor : ℕ) : Prop :=
  limbSizeFor w (bitSize + N.bitSize) ≤ limbSizeFor w (bitSize + factor.size)

instance decidableProductCompiles (w : ℕ) (N : Modulus) (bitSize factor : ℕ) :
    Decidable (N.ProductCompiles w bitSize factor) :=
  inferInstanceAs (Decidable (_ ≤ _))

/-- The construction from an unsigned integer of some bits compiles. -/
def UnsignedCompiles (w : ℕ) (N : Modulus) (bitSize : ℕ) : Prop :=
  if bitSize ≤ N.limbSize w * w then
    N.SquareCompiles w ∧ N.ProductCompiles w bitSize (N.squareFactor w)
  else
    N.FactorCompiles w (limbSizeFor w bitSize) ∧
      N.ProductCompiles w N.bitSize (N.otherFactor w (limbSizeFor w bitSize))

omit [NeZero w] in
theorem SquareCompiles.unsigned {N : Modulus} {bitSize : ℕ} (h : N.SquareCompiles w)
    (hroom : bitSize ≤ N.limbSize w * w)
    (hproduct : N.ProductCompiles w bitSize (N.squareFactor w)) : N.UnsignedCompiles w bitSize := by
  rw [UnsignedCompiles, if_pos hroom]
  exact ⟨h, hproduct⟩

omit [NeZero w] in
theorem UnsignedCompiles.square {N : Modulus} {bitSize : ℕ} (h : N.UnsignedCompiles w bitSize) :
    N.SquareCompiles w := by
  unfold UnsignedCompiles at h
  split_ifs at h
  · exact h.1
  · exact h.1.1

/-- The offset to the next multiple of the modulus. -/
def offset (N : Modulus) (x : ℕ) : ℕ := if x % N.toNat = 0 then 0 else N.toNat - x % N.toNat

omit [NeZero w] in
theorem dvd_add_offset (x : ℕ) : N.toNat ∣ x + N.offset x := by
  have hparts := Nat.div_add_mod x N.toNat
  have hlt := Nat.mod_lt x (Nat.pos_of_ne_zero (NeZero.ne N.toNat))
  unfold offset
  split_ifs with hzero
  · exact Nat.dvd_of_mod_eq_zero hzero
  · refine ⟨x / N.toNat + 1, ?_⟩
    rw [Nat.mul_succ]
    omega

omit [NeZero w] in
theorem offset_ne_zero_iff (x : ℕ) : N.offset x ≠ 0 ↔ ¬ N.toNat ∣ x := by
  have hlt := Nat.mod_lt x (Nat.pos_of_ne_zero (NeZero.ne N.toNat))
  rw [Nat.dvd_iff_mod_eq_zero, offset]
  split_ifs with hzero
  · simp [hzero]
  · exact iff_of_true (by omega) hzero

theorem offsetTo_definedWhen (normalType : Normalization) (x : ℕ) :
    DefinedWhen (normalType = N.normalType ∧ ¬ DivisionCarries w x N.toNat)
      (N.offsetTo w normalType x) (· = N.offset x) := by
  refine (N.remainder_definedWhen normalType x).map ?_
  rintro _ rfl
  rfl

/-- The construction from a signed integer of some bits compiles. -/
def SignedCompiles (w : ℕ) (N : Modulus) (bitSize : ℕ) : Prop :=
  if bitSize < N.bitSize then N.UnsignedCompiles w N.bitSize
  else (.normal = N.normalType ∧ ¬ DivisionCarries w (2 ^ (bitSize - 1)) N.toNat) ∧
    N.UnsignedCompiles w (2 ^ (bitSize - 1) + N.offset (2 ^ (bitSize - 1)) - 1).size

/-- The construction from an integer of a type compiles. -/
def IntegerCompiles (w : ℕ) (N : Modulus) (t : SpanType) : Prop :=
  match t.signedness with
  | .unsigned => N.UnsignedCompiles w t.bitSize
  | .signed => N.SignedCompiles w t.bitSize

/-- The construction from a value of the modulus `M` compiles. A multiple of the modulus has no
offset, and zero no constant span. -/
def ModCompiles (w : ℕ) (N M : Modulus) : Prop :=
  if N.toNat > M.toNat then N.UnsignedCompiles w N.bitSize
  else (M.normalType = N.normalType ∧ ¬ DivisionCarries w M.toNat N.toNat) ∧ ¬ N.toNat ∣ M.toNat ∧
    N.UnsignedCompiles w (M.toNat + N.offset M.toNat - 1).size

omit [NeZero w] in
/-- A power of the base is a unit. -/
theorem pow_mul_inv (l : ℕ) :
    (((2 ^ w) ^ l : ℕ) : ZMod N.toNat) * (((2 ^ w) ^ l : ℕ) : ZMod N.toNat)⁻¹ = 1 := by
  apply ZMod.coe_mul_inv_eq_one
  rw [← pow_mul]
  exact N.coprime_two_pow _

omit [NeZero w] in
theorem mod_pos {x : ℕ} (hx : Nat.Coprime x N.toNat) : 0 < x % N.toNat := by
  apply Nat.pos_of_ne_zero
  intro hzero
  have hdvd := Nat.dvd_of_mod_eq_zero hzero
  have hone := Nat.Coprime.eq_one_of_dvd hx.symm hdvd
  have := N.one_lt
  omega

omit [NeZero w] in
theorem coprime_auxiliaryModulus : Nat.Coprime (N.auxiliaryModulus w) N.toNat := by
  rw [auxiliaryModulus, ← pow_mul]
  exact N.coprime_two_pow _

end Modulus

/-! ## What the constructors return -/

namespace Mod

variable {w : ℕ} [NeZero w] {N : Modulus} (memory : ℕ → BitVec w)

theorem montgomeryReduce_self_eq (self : Mod w N) {value : Span w} {T : ℤ} {r : ℕ}
    (hvalue : value.Denotes T) (hT₀ : 0 ≤ T) (hT : T < (2 ^ w) ^ r * N.toNat) :
    montgomeryReduce self value r =
      ofResidue w N (T * (((2 ^ w) ^ r : ℕ) : ZMod N.toNat)⁻¹) :=
  Mod.ext (montgomeryReduce_eq self.limb_size hvalue hT₀ hT)

/-- The product with a factor below the modulus, in Montgomery form. -/
theorem multiplyReduce_definedWhen (self : Mod w N) {value : Span w} {z : ℤ} {factor : ℕ}
    (hvalue : Num.Unsigned value z) (hz : z < N.auxiliaryModulus w) (hfactor₀ : 0 < factor)
    (hfactor : factor < N.toNat) :
    DefinedWhen (N.ProductCompiles w value.bitSize factor)
      (multiplyReduce memory self value factor)
      (· = ofResidue w N (z * factor * (N.auxiliaryModulus w : ZMod N.toNat)⁻¹)) := by
  have hz₀ := hvalue.nonneg
  have hproduct₀ : 0 ≤ z * factor := mul_nonneg hz₀ (Int.natCast_nonneg _)
  have hlt : z * factor < N.auxiliaryModulus w * N.toNat :=
    mul_lt_mul'' hz (by exact_mod_cast hfactor) hz₀ (Int.natCast_nonneg _)
  have : NeZero factor := ⟨hfactor₀.ne'⟩
  have hfactorBits : (constantBitSpanOf w factor).bitSize ≠ 0 := (Nat.size_pos.mpr hfactor₀).ne'
  unfold multiplyReduce
  rw [tryConstantBitSpanOf_eq, Option.bind_eq_bind, Option.bind_some]
  dsimp only
  generalize hproductType : (⟨value.bitSize + N.bitSize, .unsigned, .unnormal⟩ : SpanType) =
    productType
  have hu : productType.signedness = .unsigned := by rw [← hproductType]
  have hwidth : productType.bitSize = value.bitSize + N.bitSize := by rw [← hproductType]
  have hiff : Num.MultiplyCompiles productType value (constantBitSpanOf w factor) ↔
      N.ProductCompiles w value.bitSize factor := by
    rw [Num.multiplyCompiles_iff, SpanType.limbSize, hwidth]
    rfl
  refine ((DefinedWhen.of_ite _ _).congr hiff).map ?_
  rintro _ ⟨hcompiles, rfl⟩
  have hmultiply := Num.multiply_eq (t := productType) hvalue
    (constantBitSpanOf_unsigned (w := w) factor) (fun hzero => absurd hzero hfactorBits) hcompiles
    (Bigint.length_uninitialized memory _) (Bigint.length_uninitialized memory _)
  -- the product is below `R * N`, as the reduction needs it
  have hdenotes : (BitSpan.mk productType (productType.image w (z * factor))).span.Denotes
      (z * factor) := by
    have hread := denotes_limbs hu (productType.length_image (w := w) (z * factor))
    have hfactor' : (factor : ℤ) < 2 ^ N.bitSize := by
      exact_mod_cast hfactor.trans N.lt_two_pow
    have hroom : z * factor < 2 ^ productType.bitSize := by
      rw [hwidth, pow_add]
      exact mul_lt_mul'' hvalue.lt hfactor' hz₀ (Int.natCast_nonneg _)
    rwa [productType.value_image_of_inRange hu
      ((productType.inRange_unsigned hu).mpr ⟨hproduct₀, hroom⟩)] at hread
  rw [← hwidth, hmultiply, montgomeryReduce_self_eq self hdenotes hproduct₀
    (by exact_mod_cast hlt), Int.cast_mul, Int.cast_natCast]
  rfl

omit [NeZero w] in
/-- A value of the limbs of the modulus is below `R`. -/
theorem lt_auxiliaryModulus_of_bits {bitSize : ℕ} {z : ℤ} (hz : z < 2 ^ bitSize)
    (hbits : bitSize ≤ N.limbSize w * w) : z < N.auxiliaryModulus w := by
  apply hz.trans_le
  rw [Modulus.auxiliaryModulus, ← pow_mul]
  push_cast
  exact pow_le_pow_right₀ one_le_two (by rwa [Nat.mul_comm])

/-- **From an unsigned integer.** Both paths return its Montgomery form, exactly when the constants
and the product with them compile. -/
theorem fromUnsignedInteger_definedWhen (self : Mod w N) {value : Span w} {z : ℤ}
    (hvalue : Num.Unsigned value z) :
    DefinedWhen (N.UnsignedCompiles w value.bitSize) (fromUnsignedInteger memory self value)
      (· = ofResidue w N (z * N.auxiliaryModulus w)) := by
  have hR : (N.auxiliaryModulus w : ZMod N.toNat) * (N.auxiliaryModulus w : ZMod N.toNat)⁻¹ = 1 :=
    auxiliaryModulus_mul_inv
  have hN : 0 < N.toNat := Nat.pos_of_ne_zero (NeZero.ne _)
  have hsquare : Nat.Coprime (N.auxiliaryModulus w * N.auxiliaryModulus w) N.toNat :=
    (N.coprime_auxiliaryModulus (w := w)).mul_left (N.coprime_auxiliaryModulus (w := w))
  unfold Modulus.UnsignedCompiles fromUnsignedInteger
  -- an integer of no more limbs than the modulus is reduced once; longer ones twice
  split_ifs with hbits
  · refine N.reducedSquareAuxiliaryModulus_definedWhen.bind ?_
    rintro _ rfl
    refine (multiplyReduce_definedWhen memory self hvalue
      (lt_auxiliaryModulus_of_bits hvalue.lt hbits) (N.mod_pos hsquare) (Nat.mod_lt _ hN)).imp ?_
    rintro _ rfl
    rw [ZMod.natCast_mod, Nat.cast_mul]
    congr 1
    linear_combination (z * N.auxiliaryModulus w : ZMod N.toNat) * hR
  · rw [← hvalue.limbs]
    refine (N.reducedOtherAuxiliaryModulus_definedWhen value.limbSize).bind ?_
    rintro _ rfl
    have hpow : Nat.Coprime ((2 ^ w) ^ value.limbSize) N.toNat := by
      rw [← pow_mul]
      exact N.coprime_two_pow _
    have hreduced : Nat.Coprime (N.squareFactor w) N.toNat :=
      (Nat.mod_modEq _ _).gcd_eq.trans hsquare
    have hT : z < (2 ^ w) ^ value.limbSize * N.toNat :=
      hvalue.lt_pow.trans_le (le_mul_of_one_le_right (by positivity) (by exact_mod_cast hN))
    -- the first reduction divides by a power of the base for the limbs of the integer
    have hfirst := montgomeryReduce_self_eq self hvalue.denotes hvalue.nonneg hT
    dsimp only
    generalize montgomeryReduce self value value.limbSize = first at hfirst ⊢
    have hfirst' : first.Reduced := by
      rw [hfirst]
      exact reduced_ofResidue _
    have hfirstR : (Lib.Limbs.value first.limbs : ℤ) < N.auxiliaryModulus w := by
      have hlt : Lib.Limbs.value first.limbs < N.auxiliaryModulus w :=
        hfirst'.trans N.lt_auxiliaryModulus
      exact_mod_cast hlt
    have hresidue : (Lib.Limbs.value first.limbs : ZMod N.toNat) =
        z * (((2 ^ w) ^ value.limbSize : ℕ) : ZMod N.toNat)⁻¹ := by
      have hstored := residue_ofResidue (w := w)
        ((z : ZMod N.toNat) * (((2 ^ w) ^ value.limbSize : ℕ) : ZMod N.toNat)⁻¹)
      rw [← hfirst] at hstored
      exact hstored
    have hB := N.pow_mul_inv (w := w) value.limbSize
    refine (multiplyReduce_definedWhen memory first hfirst'.operand.unsigned hfirstR
      (N.mod_pos (hpow.mul_left hreduced)) (Nat.mod_lt _ hN)).imp ?_
    rintro _ rfl
    rw [ZMod.natCast_mod, Nat.cast_mul, Modulus.squareFactor, ZMod.natCast_mod, Nat.cast_mul,
      Int.cast_natCast, hresidue]
    congr 1
    generalize (((2 ^ w) ^ value.limbSize : ℕ) : ZMod N.toNat) = B at hB ⊢
    linear_combination (z * N.auxiliaryModulus w : ZMod N.toNat) * hR +
      (z * N.auxiliaryModulus w * N.auxiliaryModulus w *
        (N.auxiliaryModulus w : ZMod N.toNat)⁻¹ : ZMod N.toNat) * hB

/-- The sum of a masked constant and an operand, in an array with room for it. -/
theorem unsigned_sum {t : SpanType} (hu : t.signedness = .unsigned) {left right : Span w} {x y : ℤ}
    (hx : left.Denotes x) (hy : right.Denotes y) (hsum₀ : 0 ≤ x + y)
    (hsum : x + y < 2 ^ t.bitSize) {result : List (BitVec w)}
    (hlen : result.length = t.limbSize w) :
    Num.Unsigned (BitSpan.mk t (Core.Num.add t left.source right.source (constant 0) result).1).span
      (x + y) := by
  have hadd := (Num.add_eq hlen (hx.reads result (t.limbSize w)) (hy.reads result (t.limbSize w))
    (constant 0)).1
  have hzero : ((constant (0 : Bit)).value.toNat : ℤ) = 0 := rfl
  rw [hzero, add_zero] at hadd
  have hread := denotes_limbs hu (t.length_image (w := w) (x + y))
  rw [t.value_image_of_inRange hu ((t.inRange_unsigned hu).mpr ⟨hsum₀, hsum⟩)] at hread
  rw [hadd]
  exact ⟨hread, rfl, hsum₀, hsum⟩

/-- The integer is congruent to what `from_unsigned_integer` gets. -/
theorem holds_of_congr {z z' : ℤ} (h : z' ≡ z [ZMOD N.toNat]) :
    Holds memory (ofResidue w N ((z' : ZMod N.toNat) * N.auxiliaryModulus w)) z := by
  apply holds_ofResidue
  rw [(ZMod.intCast_eq_intCast_iff _ _ _).mpr h, mul_assoc, auxiliaryModulus_mul_inv, mul_one]

/-- A constructor returns `z` modulo the modulus, when it compiles, and nothing else. -/
abbrev Returns (memory : ℕ → BitVec w) (compiles : Prop) (c : Option (Mod w N)) (z : ℤ) : Prop :=
  DefinedWhen compiles c (Holds memory · z)

theorem returns_fromUnsignedInteger (self : Mod w N) {value : Span w} {z z' : ℤ}
    (hvalue : Num.Unsigned value z') (h : z' ≡ z [ZMOD N.toNat]) :
    Returns memory (N.UnsignedCompiles w value.bitSize) (fromUnsignedInteger memory self value)
      z := by
  refine (fromUnsignedInteger_definedWhen memory self hvalue).imp ?_
  rintro _ rfl
  exact holds_of_congr memory h

theorem returns_sum (self : Mod w N) {t : SpanType} (hu : t.signedness = .unsigned)
    {left right : Span w} {x y z : ℤ} (hx : left.Denotes x) (hy : right.Denotes y)
    (hsum₀ : 0 ≤ x + y) (hsum : x + y < 2 ^ t.bitSize) (hcongr : x + y ≡ z [ZMOD N.toNat])
    {result : List (BitVec w)} (hlen : result.length = t.limbSize w) :
    Returns memory (N.UnsignedCompiles w t.bitSize) (fromUnsignedInteger memory self
      (BitSpan.mk t (Core.Num.add t left.source right.source (constant 0) result).1).span) z :=
  returns_fromUnsignedInteger memory self (unsigned_sum hu hx hy hsum₀ hsum hlen) hcongr

theorem returns_ofUnsigned {value : BitArray w} (hvalue : Bigint.Normalized value)
    (hu : value.type.signedness = .unsigned) :
    Returns memory (N.UnsignedCompiles w value.type.bitSize) (ofUnsigned memory N value)
      value.toInt :=
  returns_fromUnsignedInteger memory _ (Bigint.unsigned_span hvalue hu) rfl

/-- The sign of a normalized integer. -/
theorem represents_of_normalized {value : BitArray w} (hvalue : Bigint.Normalized value) :
    value.span.Represents value.toInt := by
  have hrepresents := BitArray.represents_span value hvalue.readable
  rwa [BitArray.storedInt_eq_toInt value hvalue.signed_pos hvalue.isNormal] at hrepresents

theorem returns_ofSigned {value : BitArray w} (hvalue : Bigint.Normalized value)
    (hs : value.type.signedness = .signed) :
    Returns memory (N.SignedCompiles w value.type.bitSize) (ofSigned memory N value)
      value.toInt := by
  have hbits := hvalue.signed_pos hs
  obtain ⟨hlow, hhigh⟩ := (value.type.inRange_signed hs hbits).mp (Bigint.toInt_inRange value)
  have hsign := (represents_of_normalized hvalue).sign_iff
  have hdenotes := hvalue.denotes
  generalize value.toInt = z at hlow hhigh hsign hdenotes ⊢
  unfold Modulus.SignedCompiles ofSigned
  dsimp only
  split_ifs with hsmall
  · -- the modulus is added
    have hpow : 2 ^ (value.type.bitSize - 1) ≤ N.toNat - 1 := by
      have hbit : N.bitSize - 1 < (N.toNat - 1).size := by
        unfold Modulus.bitSize at hsmall ⊢
        omega
      exact (Nat.pow_le_pow_right two_pos (by omega)).trans (Nat.lt_size.mp hbit)
    have hbelow : (2 : ℤ) ^ (value.type.bitSize - 1) ≤ N.toNat - 1 := by
      have hone := N.one_lt
      rw [← Nat.cast_pred (by omega)]
      exact_mod_cast hpow
    have hroom : (N.toNat : ℤ) < 2 ^ N.bitSize := by exact_mod_cast N.lt_two_pow
    have hmodulus := (constantBitSpanOf_unsigned (w := w) N.toNat).denotes.mask
      (runtime value.span.sign.value)
    simp only [value_runtime, hsign] at hmodulus
    have hcongr : (if z < 0 then (N.toNat : ℤ) else 0) + z ≡ z [ZMOD N.toNat] := by
      split_ifs
      · exact Int.modulus_add_modEq_iff.mpr rfl
      · rw [zero_add]
    refine returns_sum memory _ (t := N.dataType) rfl hmodulus hdenotes ?_ ?_ hcongr
      (uninitialized memory N).limb_size
    · split_ifs <;> omega
    · show _ < (2 : ℤ) ^ N.bitSize
      split_ifs <;> omega
  · -- the next multiple of the modulus is added
    generalize hlargest : 2 ^ (value.type.bitSize - 1) = largest
    refine (N.offsetTo_definedWhen .normal largest).bind ?_
    rintro _ rfl
    have hlargest' : (2 : ℤ) ^ (value.type.bitSize - 1) = largest := by exact_mod_cast hlargest
    rw [hlargest'] at hlow hhigh
    have hmultiple := N.dvd_add_offset largest
    have hpos : 0 < largest := by
      rw [← hlargest]
      exact Nat.two_pow_pos _
    have hge : largest ≤ largest + N.offset largest := Nat.le_add_right _ _
    generalize largest + N.offset largest = next at hmultiple hge ⊢
    have : NeZero next := ⟨by omega⟩
    rw [tryConstantBitSpanOf_eq, Option.bind_eq_bind, Option.bind_some]
    have hroom : (next : ℤ) ≤ 2 ^ (next - 1).size := by
      have hlt : next - 1 < 2 ^ (next - 1).size := Nat.lt_size_self _
      exact_mod_cast (by omega : next ≤ 2 ^ (next - 1).size)
    have hmask := (constantBitSpanOf_unsigned (w := w) next).denotes.mask
      (runtime value.span.sign.value)
    simp only [value_runtime, hsign] at hmask
    have hcongr : (if z < 0 then (next : ℤ) else 0) + z ≡ z [ZMOD N.toNat] := by
      split_ifs
      · have hzero : (next : ℤ) ≡ 0 [ZMOD N.toNat] :=
          Int.modEq_zero_iff_dvd.mpr (by exact_mod_cast hmultiple)
        simpa using hzero.add_right z
      · rw [zero_add]
    refine returns_sum memory _ (t := ⟨(next - 1).size, .unsigned, .unnormal⟩) rfl hmask hdenotes
      ?_ ?_ hcongr (Bigint.length_uninitialized memory _)
    · split_ifs <;> omega
    · show _ < (2 : ℤ) ^ (next - 1).size
      split_ifs <;> omega

/-- **From an integer.** -/
theorem returns_ofInteger {value : BitArray w} (hvalue : Bigint.Normalized value) :
    Returns memory (N.IntegerCompiles w value.type) (ofInteger memory N value) value.toInt := by
  unfold Modulus.IntegerCompiles ofInteger
  cases hs : value.type.signedness with
  | unsigned => exact returns_ofUnsigned memory hvalue hs
  | signed => exact returns_ofSigned memory hvalue hs

/-- Construction reduces an integer exactly when the divisions behind its constants do not carry,
and the constants are long enough for the products with them. -/
theorem ofInteger_holds_iff {N : Modulus} (memory : ℕ → BitVec 32) {value : BitArray 32}
    (hvalue : Bigint.Normalized value) :
    (∃ a : Mod 32 N, ofInteger memory N value = some a ∧ Holds memory a value.toInt) ↔
      N.IntegerCompiles 32 value.type :=
  (returns_ofInteger memory hvalue).exists_iff

/-! The square of the residue of `2 ^ 64` is `2 ^ 96 - 2 ^ 49 + 1`, whose two highest limbs are not
below the modulus. -/

def carrying : Modulus := ⟨64, .normal, 2 ^ 64 - 2 ^ 48 + 1, by decide, by decide, by decide⟩

theorem not_squareCompiles_carrying : ¬ carrying.SquareCompiles 32 := by
  rintro ⟨-, h⟩
  apply h
  rw [Core.Compiletime.divisionCarries_iff (l := 4) (by decide) (by decide +kernel)]
  decide +kernel

theorem not_unsignedCompiles_carrying {bitSize : ℕ} (hbits : bitSize ≤ 64) :
    ¬ carrying.UnsignedCompiles 32 bitSize := by
  have hroom : carrying.limbSize 32 * 32 = 64 := by decide +kernel
  rw [Modulus.UnsignedCompiles, hroom, if_pos hbits]
  exact fun h => not_squareCompiles_carrying h.1

def one : BitArray 32 := ⟨⟨⟨1, .unsigned, .normal⟩, [1]⟩, rfl⟩

theorem one_normalized : Bigint.Normalized one :=
  ⟨by decide, by unfold BitArray.IsNormal; decide⟩

theorem ofInteger_carrying : Bigint.Normalized one ∧
    ¬ ∃ a : Mod 32 carrying, ofInteger (fun _ => 0) carrying one = some a ∧
      Holds (fun _ => 0) a one.toInt := by
  refine ⟨one_normalized, ?_⟩
  rintro ⟨a, ha, -⟩
  exact not_unsignedCompiles_carrying (by decide)
    ((returns_ofInteger (fun _ => 0) one_normalized).domain ha)

/-! A prime of sixteen bits has constants of one limb, and so do all products with them. -/

theorem squareCompiles_prime : prime.SquareCompiles 32 := by
  constructor
  · rw [Core.Compiletime.divisionCarries_iff (l := 2) (by decide) (by decide +kernel)]
    decide +kernel
  · rw [Core.Compiletime.divisionCarries_iff (l := 2) (by decide) (by decide +kernel)]
    decide +kernel

/-- The smallest number of forty bits. -/
def smallest : BitArray 32 := ⟨⟨⟨40, .signed, .normal⟩, [0, 0xFFFFFF80]⟩, rfl⟩

theorem smallest_normalized : Bigint.Normalized smallest :=
  ⟨by decide, by unfold BitArray.IsNormal; decide⟩

theorem ofInteger_holds_smallest :
    ∃ a : Mod 32 prime, ofInteger (fun _ => 0) prime smallest = some a ∧
      Holds (fun _ => 0) a smallest.toInt :=
  (ofInteger_holds_iff (fun _ => 0) smallest_normalized).mpr <| by
    show prime.SignedCompiles 32 40
    have hsize : (2 ^ (40 - 1) + prime.offset (2 ^ (40 - 1)) - 1).size = 40 :=
      le_antisymm (Nat.size_le.mpr (by decide +kernel)) (Nat.lt_size.mpr (by decide +kernel))
    rw [Modulus.SignedCompiles, if_neg (by decide +kernel), hsize, Modulus.UnsignedCompiles,
      if_neg (by decide +kernel),
      Core.Compiletime.divisionCarries_iff (l := 3) (by decide) (by decide +kernel)]
    refine ⟨⟨rfl, by decide +kernel⟩, ⟨squareCompiles_prime, ?_⟩, by decide +kernel⟩
    rw [Core.Compiletime.divisionCarries_iff (l := 4) (by decide) (by decide +kernel)]
    decide +kernel

/-! ## The signed view, and other moduli -/

theorem normalized_toUnsigned {a : Mod w N} (ha : a.Reduced) :
    Bigint.Normalized (toUnsigned memory a) where
  signed_pos h := by cases h
  isNormal := by
    rw [ha.toUnsigned_eq]
    apply isNormal_array
    exact inRange_of_lt (Int.natCast_nonneg _) (by exact_mod_cast ZMod.val_lt _)

/-- The comparison with half of the modulus. -/
theorem greater_half {a : Mod w N} (ha : a.Reduced) :
    Num.greater (toUnsigned memory a).span (constantBitSpanOf w (N.toNat / 2)) = 1 ↔
      ¬ a.toZMod.val ≤ N.toNat / 2 := by
  have hrepresents := represents_of_normalized (normalized_toUnsigned memory ha)
  rw [ha.toInt_toUnsigned] at hrepresents
  rw [Num.greater, Num.compareOrder_eq Num.decides_greater hrepresents
    (constantBitSpanOf_represents (w := w) (N.toNat / 2)), Num.outcome_greater, bitOf_eq_one_iff,
    gt_iff_lt, Nat.cast_lt, Nat.not_le]

omit [NeZero w] in
theorem valMinAbs_eq (z : ZMod N.toNat) :
    z.valMinAbs = z.val - if ¬ z.val ≤ N.toNat / 2 then (N.toNat : ℤ) else 0 := by
  rw [ZMod.valMinAbs_def_pos]
  split_ifs <;> omega

theorem toSigned_eq {a : Mod w N} (ha : a.Reduced) :
    toSigned memory a =
      SpanType.array ⟨N.bitSize, .signed, N.normalType⟩ w a.toZMod.valMinAbs := by
  have hunsigned := (normalized_toUnsigned memory ha).denotes
  rw [ha.toInt_toUnsigned] at hunsigned
  have hmodulus := (constantBitSpanOf_unsigned (w := w) N.toNat).denotes.mask
    (runtime (Num.greater (toUnsigned memory a).span (constantBitSpanOf w (N.toNat / 2))))
  simp only [value_runtime, greater_half memory ha] at hmodulus
  have hsubtract := (Num.subtract_eq (t := ⟨N.bitSize, .signed, N.normalType⟩)
    (Bigint.length_uninitialized memory (limbSizeFor w N.bitSize)) (hunsigned.reads _ _)
    (hmodulus.reads _ _) (constant 0)).1
  have hzero : ((constant (0 : Bit)).value.toNat : ℤ) = 0 := rfl
  rw [hzero, sub_zero, ← valMinAbs_eq] at hsubtract
  exact eq_array _ _ hsubtract

omit [NeZero w] in
/-- The largest absolute value, from an odd modulus. -/
theorem valMinAbs_bounds (z : ZMod N.toNat) :
    -(((N.toNat : ℤ) - 1) / 2) ≤ z.valMinAbs ∧ z.valMinAbs ≤ ((N.toNat : ℤ) - 1) / 2 := by
  have hodd := N.odd
  obtain ⟨hlow, hhigh⟩ := z.valMinAbs_mem_Ioc
  omega

/-- It fits the bits of the signed type. -/
theorem inRange_valMinAbs (z : ZMod N.toNat) :
    SpanType.InRange ⟨N.bitSize, .signed, N.normalType⟩ z.valMinAbs := by
  have hbits : 0 < N.bitSize := Nat.size_pos.mpr (by
    have := N.one_lt
    omega)
  obtain ⟨hlow, hhigh⟩ := valMinAbs_bounds z
  have hroom : (N.toNat : ℤ) < 2 * 2 ^ (N.bitSize - 1) := by
    rw [← pow_succ', Nat.sub_add_cancel hbits]
    exact_mod_cast N.lt_two_pow
  refine (inRange_signed _ rfl hbits).mpr ⟨?_, ?_⟩
  · show -2 ^ (N.bitSize - 1) ≤ z.valMinAbs
    omega
  · show z.valMinAbs < 2 ^ (N.bitSize - 1)
    omega

theorem toInt_toSigned {a : Mod w N} (ha : a.Reduced) :
    (toSigned memory a).toInt = a.toZMod.valMinAbs := by
  rw [toSigned_eq memory ha, Bigint.toInt_array_eq_iff]
  exact inRange_valMinAbs _

theorem normalized_toSigned {a : Mod w N} (ha : a.Reduced) :
    Bigint.Normalized (toSigned memory a) where
  signed_pos _ := Nat.size_pos.mpr (by
    have := N.one_lt
    omega)
  isNormal := by
    rw [toSigned_eq memory ha]
    exact isNormal_array _ (inRange_valMinAbs _)

/-- **From another modulus.** -/
theorem returns_ofMod {M : Modulus} {value : Mod w M} (hvalue : value.Reduced) :
    Returns memory (N.ModCompiles w M) (ofMod memory N value) value.toZMod.valMinAbs := by
  have hdenotes := (normalized_toUnsigned memory hvalue).denotes
  rw [hvalue.toInt_toUnsigned] at hdenotes
  have hlt : (value.toZMod.val : ℤ) < M.toNat := by exact_mod_cast ZMod.val_lt value.toZMod
  have hmask {span : Span w} {x : ℕ} (hspan : Num.Unsigned span x) := hspan.denotes.mask
    (runtime (Num.greater (toUnsigned memory value).span (constantBitSpanOf w (M.toNat / 2))))
  simp only [value_runtime, greater_half memory hvalue] at hmask
  have hval := valMinAbs_eq value.toZMod
  generalize value.toZMod.valMinAbs = z at hval ⊢
  generalize value.toZMod.val = x at hdenotes hlt hmask hval
  have hM := M.one_lt
  unfold Modulus.ModCompiles ofMod
  by_cases hlarger : N.toNat > M.toNat
  · -- the difference of the moduli is added, which is below the larger one
    rw [if_pos hlarger]
    refine ((DefinedWhen.of_guard _).bind fun _ _ => ?_).congr (and_iff_right hlarger.ne)
    dsimp only
    rw [if_pos hlarger]
    have : NeZero (N.toNat - M.toNat) := ⟨(Nat.sub_pos_of_lt hlarger).ne'⟩
    rw [tryConstantBitSpanOf_eq, Option.bind_eq_bind, Option.bind_some]
    have hroom : (N.toNat : ℤ) < 2 ^ N.bitSize := by exact_mod_cast N.lt_two_pow
    have hcongr : (x : ℤ) + (if ¬ x ≤ M.toNat / 2 then ((N.toNat - M.toNat : ℕ) : ℤ) else 0) ≡ z
        [ZMOD N.toNat] := by
      rw [hval]
      split_ifs
      · rw [add_zero, sub_zero]
      · rw [Nat.cast_sub hlarger.le, ← add_sub_assoc, add_sub_right_comm]
        exact Int.add_modulus_modEq_iff.mpr rfl
    refine returns_sum memory _ (t := N.dataType) rfl hdenotes
      (hmask (constantBitSpanOf_unsigned _)) ?_ ?_ hcongr (uninitialized memory N).limb_size
    · split_ifs <;> omega
    · show _ < (2 : ℤ) ^ N.bitSize
      split_ifs <;> omega
  · -- what is missing to a multiple of the smaller modulus is added
    rw [if_neg hlarger]
    refine ((DefinedWhen.of_guard _).bind fun _ _ => ?_).congr
      (and_iff_right_of_imp fun h heq => ?_)
    rotate_left
    · exact h.2.1 (heq ▸ dvd_rfl)
    dsimp only
    rw [if_neg hlarger]
    refine (N.offsetTo_definedWhen M.normalType M.toNat).bind ?_
    rintro _ rfl
    refine ((tryConstantBitSpanOf_definedWhen _).congr (N.offset_ne_zero_iff M.toNat)).bind
      fun offsetSpan hoffset => ?_
    have hmultiple := N.dvd_add_offset M.toNat
    generalize N.offset M.toNat = offset at hmultiple hoffset ⊢
    have hroom : M.toNat + offset - 1 < 2 ^ (M.toNat + offset - 1).size := Nat.lt_size_self _
    have hroom' : ((M.toNat + offset - 1 : ℕ) : ℤ) < 2 ^ (M.toNat + offset - 1).size := by
      exact_mod_cast hroom
    have hcongr : (x : ℤ) + (if ¬ x ≤ M.toNat / 2 then (offset : ℤ) else 0) ≡ z
        [ZMOD N.toNat] := by
      rw [hval]
      split_ifs
      · rw [add_zero, sub_zero]
      · apply Int.modEq_iff_dvd.mpr
        have hdvd : (N.toNat : ℤ) ∣ M.toNat + offset := by exact_mod_cast hmultiple
        have hsum : (x : ℤ) - M.toNat - (x + offset) = -(M.toNat + offset) := by ring
        rw [hsum, dvd_neg]
        exact hdvd
    refine returns_sum memory _ (t := ⟨(M.toNat + offset - 1).size, .unsigned, .unnormal⟩) rfl
      hdenotes (hmask hoffset) ?_ ?_ hcongr (Bigint.length_uninitialized memory _)
    · split_ifs <;> omega
    · show _ < (2 : ℤ) ^ (M.toNat + offset - 1).size
      split_ifs <;> omega

/-- A value is determined by its unsigned conversion. -/
theorem eq_of_holds {a b : Mod w N} {z : ℤ} (ha : Holds memory a z) (hb : b.Reduced)
    (hz : (z : ZMod N.toNat) = b.toZMod) : a = b := by
  have hequal : a.toZMod = b.toZMod := by
    rw [← cast_toUnsigned memory ha.1, ha.2, ← hz, ZMod.intCast_mod]
  rw [ha.1.eq_ofResidue, hb.eq_ofResidue, residue_eq, residue_eq, hequal]

/-- The signed view of a value of a smaller modulus is also that of its image in a larger one. -/
theorem valMinAbs_of_holds {M : Modulus} {z : ZMod M.toNat} {c : Mod w N}
    (hc : Holds memory c z.valMinAbs) (hlarger : N.toNat > M.toNat) :
    c.toZMod.valMinAbs = z.valMinAbs := by
  obtain ⟨hlow, hhigh⟩ := valMinAbs_bounds z
  have hcast : c.toZMod = (z.valMinAbs : ZMod N.toNat) := by
    rw [← cast_toUnsigned memory hc.1, hc.2, ZMod.intCast_mod]
  refine (ZMod.valMinAbs_spec _ _).mpr ⟨hcast, ?_, ?_⟩ <;> omega

/-- What the signed view of a value of the modulus `M`, and its conversions, promise. -/
structure SwitchesModulus (memory : ℕ → BitVec w) (N : Modulus) {M : Modulus} (m : Mod w M) :
    Prop where
  congruent : (toSigned memory m).toInt ≡ (toUnsigned memory m).toInt [ZMOD M.toNat]
  bounds : -(((M.toNat : ℤ) - 1) / 2) ≤ (toSigned memory m).toInt ∧
    (toSigned memory m).toInt ≤ ((M.toNat : ℤ) - 1) / 2
  unique : ∀ z : ℤ, z ≡ (toUnsigned memory m).toInt [ZMOD M.toNat] →
    -(((M.toNat : ℤ) - 1) / 2) ≤ z → z ≤ ((M.toNat : ℤ) - 1) / 2 →
    z = (toSigned memory m).toInt
  ofUnsigned : ofInteger memory M (toUnsigned memory m) = some m
  ofSigned : ofInteger memory M (toSigned memory m) = some m
  ofMod : ∃ c : Mod w N, ofMod memory N m = some c ∧ Holds memory c (toSigned memory m).toInt
  back : N.toNat > M.toNat → ∃ c : Mod w N, Mod.ofMod memory N m = some c ∧
    Mod.ofMod memory M c = some m

/-- **The signed view and other moduli.** All of it holds exactly when the constructions from the
unsigned view and the signed view, and the conversions to the other modulus and back, compile. -/
theorem switchesModulus_iff {N M : Modulus} (memory : ℕ → BitVec 32) {m : Mod 32 M}
    (hm : m.Reduced) :
    SwitchesModulus memory N m ↔
      M.UnsignedCompiles 32 M.bitSize ∧ M.SignedCompiles 32 M.bitSize ∧ N.ModCompiles 32 M ∧
        (N.toNat > M.toNat → M.ModCompiles 32 N) := by
  have hunsigned := hm.toInt_toUnsigned memory
  have hsigned := toInt_toSigned memory hm
  have hreturns := returns_ofInteger (N := M) memory (normalized_toUnsigned memory hm)
  have hreturns' := returns_ofInteger (N := M) memory (normalized_toSigned memory hm)
  have hmod := returns_ofMod (N := N) memory hm
  have hback (c : Mod 32 N) (hc : c.Reduced) := returns_ofMod (N := M) memory hc
  rw [hunsigned] at hreturns
  rw [hsigned] at hreturns'
  have hcast : ((m.toZMod.val : ℤ) : ZMod M.toNat) = m.toZMod := by
    rw [Int.cast_natCast, ZMod.natCast_zmod_val]
  -- one condition for each conversion; the way back needs it only to the larger modulus
  constructor
  · intro h
    refine ⟨hreturns.domain h.ofUnsigned, hreturns'.domain h.ofSigned, ?_, ?_⟩
    · obtain ⟨c, hc, -⟩ := h.ofMod
      exact hmod.domain hc
    · intro hlarger
      obtain ⟨c, hc, hholds⟩ := h.ofMod
      obtain ⟨c', hc', hm'⟩ := h.back hlarger
      obtain rfl : c = c' := Option.some_injective _ (hc.symm.trans hc')
      exact (hback c hholds.1).domain hm'
  · rintro ⟨hunsigned', hsigned', hcompiles, hlarger'⟩
    obtain ⟨a, ha, hholds⟩ := hreturns.result hunsigned'
    obtain ⟨b, hb, hholds'⟩ := hreturns'.result hsigned'
    obtain ⟨c, hc, hholds''⟩ := hmod.result hcompiles
    exact
      { congruent := by
          rw [hsigned, hunsigned, ← ZMod.intCast_eq_intCast_iff, ZMod.coe_valMinAbs, hcast]
        bounds := by
          rw [hsigned]
          exact valMinAbs_bounds _
        unique := by
          intro z hz hlow hhigh
          rw [hunsigned, ← ZMod.intCast_eq_intCast_iff, hcast] at hz
          have hodd := M.odd
          rw [hsigned]
          refine ((ZMod.valMinAbs_spec _ _).mpr ⟨hz.symm, ?_, ?_⟩).symm <;> omega
        ofUnsigned := by rw [ha, eq_of_holds memory hholds hm hcast]
        ofSigned := by rw [hb, eq_of_holds memory hholds' hm (ZMod.coe_valMinAbs _)]
        ofMod := by
          rw [hsigned]
          exact ⟨c, hc, hholds''⟩
        back := by
          intro hlarger
          obtain ⟨d, hd, hholdsd⟩ := (hback c hholds''.1).result (hlarger' hlarger)
          refine ⟨c, hc, ?_⟩
          rw [hd, eq_of_holds memory hholdsd hm ?_]
          rw [valMinAbs_of_holds memory hholds'' hlarger, ZMod.coe_valMinAbs] }

def three : Modulus := ⟨2, .normal, 3, by decide, by decide, by decide⟩

/-- The stored limb is the residue of `R`, so this is 1 modulo 3. -/
def oneModThree : Mod 32 three := ⟨[1], by decide +kernel⟩

theorem not_switchesModulus_carrying : oneModThree.Reduced ∧
    ¬ SwitchesModulus (fun _ => 0) carrying oneModThree := by
  have hreduced : oneModThree.Reduced := by
    unfold Reduced
    decide
  refine ⟨hreduced, fun h => ?_⟩
  obtain ⟨c, hc, -⟩ := h.ofMod
  have hcompiles := (returns_ofMod (N := carrying) (fun _ => 0) hreduced).domain hc
  rw [Modulus.ModCompiles, if_pos (by decide)] at hcompiles
  exact not_unsignedCompiles_carrying (by decide +kernel) hcompiles

/-- A smaller prime. -/
def fermat : Modulus := ⟨9, .normal, 257, by decide, by decide, by decide⟩

theorem squareCompiles_fermat : fermat.SquareCompiles 32 := by
  constructor
  · rw [Core.Compiletime.divisionCarries_iff (l := 2) (by decide) (by decide +kernel)]
    decide +kernel
  · rw [Core.Compiletime.divisionCarries_iff (l := 2) (by decide) (by decide +kernel)]
    decide +kernel

/-- The largest stored value. -/
def largestModFermat : Mod 32 fermat := ⟨[256], by decide +kernel⟩

theorem switchesModulus_fermat : SwitchesModulus (fun _ => 0) prime largestModFermat := by
  refine (switchesModulus_iff (fun _ => 0) (by unfold Reduced; decide)).mpr
    ⟨squareCompiles_fermat.unsigned (by decide +kernel) (by decide +kernel), ?_, ?_, fun _ => ?_⟩
  · rw [Modulus.SignedCompiles, if_neg (by decide +kernel),
      Core.Compiletime.divisionCarries_iff (l := 2) (by decide) (by decide +kernel)]
    exact ⟨⟨rfl, by decide +kernel⟩,
      squareCompiles_fermat.unsigned (by decide +kernel) (by decide +kernel)⟩
  · rw [Modulus.ModCompiles, if_pos (by decide)]
    exact squareCompiles_prime.unsigned (by decide +kernel) (by decide +kernel)
  · rw [Modulus.ModCompiles, if_neg (by decide),
      Core.Compiletime.divisionCarries_iff (l := 2) (by decide) (by decide +kernel)]
    exact ⟨⟨rfl, by decide +kernel⟩, by decide,
      squareCompiles_fermat.unsigned (by decide +kernel) (by decide +kernel)⟩

end Mod

end Hmpc.Ints
