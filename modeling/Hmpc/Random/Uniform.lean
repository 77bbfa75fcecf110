/-
# Hmpc.Random.Uniform -- random residues, and how far they are from uniform

A random residue is a random number of more bits than the modulus has, brought into Montgomery form
by one reduction that takes its limbs for the power of the base. The reduction multiplies by the
inverse of that power, which permutes the residues; so every residue is hit as often as by the
numbers themselves, and what is left over is small against the security parameter: `residueBias`.
-/
import Hmpc.Core.BitScan
import Hmpc.Ints.ModConversion
import Hmpc.Ints.Pow
import Hmpc.Lib.Equidistribution
import Hmpc.Random.Keystream

namespace Hmpc.Random.Uniform

open Hmpc.Core Hmpc.Ints Hmpc.Crypto Hmpc.Lib.Limbs Hmpc.Lib.Loops Hmpc.Lib.Digits
  Hmpc.Lib.Equidistribution SpanType NumberGenerator

/-! ## The functions -/

variable (t : ChachaType) {w : ℕ} (memory : ℕ → BitVec w)

/-- The result of `uniform<Bits, Signedness>(random)`, before it is written. -/
def bitsResult (memory : ℕ → Word) (bits : ℕ) (signedness : Signedness) : BitSpan 32 :=
  ⟨⟨bits, signedness, .normal⟩, Bigint.uninitialized memory (limbSizeFor 32 bits)⟩

theorem length_bitsResult (memory : ℕ → Word) (bits : ℕ) (signedness : Signedness)
    (random : NumberGenerator) :
    (NumberGenerator.uniform t (bitsResult memory bits signedness) random).1.length =
      limbSizeFor 32 bits :=
  (length_uniform t _ random).trans (Bigint.length_uninitialized memory _)

/-- `uniform<Bits, Signedness>(random)` -/
def uniformBits (memory : ℕ → Word) (bits : ℕ) (signedness : Signedness)
    (random : NumberGenerator) : BitArray 32 × NumberGenerator :=
  let drawn := NumberGenerator.uniform t (bitsResult memory bits signedness) random
  (⟨⟨⟨bits, signedness, .normal⟩, drawn.1⟩, length_bitsResult t memory bits signedness random⟩,
    drawn.2)

/-- `bits` of `drown_uniform` -/
def drownBits (bound : BitArray w) (signedness : Signedness) (security : ℕ) : ℕ :=
  let maxValue := Bigint.shiftLeft memory (Bigint.subtract memory bound (Bigint.one w)) security
  Num.bitWidth maxValue.toBitSpan + if signedness = .signed then 1 else 0

/-- `drown_uniform<Bound, Signedness>(random)` -/
def drownUniform (memory : ℕ → Word) (bound : BitArray 32) (signedness : Signedness)
    (security : ℕ) (random : NumberGenerator) : BitArray 32 × NumberGenerator :=
  uniformBits t memory (drownBits memory bound signedness security) signedness random

/-- `mod(value, from_uniformly_random)` -/
def fromUniformlyRandom (N : Modulus) (value : BitArray w) : Mod w N :=
  Mod.montgomeryReduce (Mod.uninitialized memory N) value.span
    (max (N.limbSize w) (value.type.limbSize w))

/-- `modulus_constant` -/
def modulusConstant (w : ℕ) (N : Modulus) : BitArray w :=
  SpanType.array ⟨N.bits, .unsigned, N.normalType⟩ w N.toNat

/-- How many bits `uniform<mod<Modulus>>(random)` draws. -/
def residueBits (N : Modulus) (security : ℕ) : ℕ :=
  drownBits memory (modulusConstant w N) .unsigned security

/-- `uniform<mod<Modulus>>(random)` -/
def uniformMod (memory : ℕ → Word) (N : Modulus) (security : ℕ) (random : NumberGenerator) :
    Mod 32 N × NumberGenerator :=
  let drawn := drownUniform t memory (modulusConstant 32 N) .unsigned security random
  (fromUniformlyRandom memory N drawn.1, drawn.2)

/-! ## What is drawn -/

/-- The number that the next words are. -/
def drawnNumber (t : ChachaType) (bits : ℕ) (random : NumberGenerator) : ℕ :=
  value ((List.range (limbSizeFor 32 bits)).map (upcoming t random))

/-- A random number has the next words as its limbs, the last one without the bits above. -/
theorem uniform_eq_image {t : ChachaType} {random : NumberGenerator} (h : random.Ready)
    {u : SpanType} (hnormal : u.normalType = .normal) {limbs : List Word}
    (hlength : limbs.length = u.limbSize 32) :
    NumberGenerator.uniform t ⟨u, limbs⟩ random =
      (u.image 32 (drawnNumber t u.bitSize random), skip t (u.limbSize 32) random) := by
  have hfilled : u.Filled limbs (drawnNumber t u.bitSize random : ℤ) (u.limbSize 32)
      (scanRange (u.limbSize 32) (fun i l => u.write i (upcoming t random i) .normal l) limbs) := by
    apply scanRange_induction
      (P := fun i (l : List Word) => u.Filled limbs (drawnNumber t u.bitSize random : ℤ) i l)
    · exact Filled.start _ _ _
    · intro i hi l hl
      rw [← hnormal]
      refine hl.step (hlength ▸ hi) ?_
      have hrange : (List.range (limbSizeFor 32 u.bitSize))[i]? = some i := List.getElem?_range hi
      rw [drawnNumber, digit_value, List.getD_eq_getElem?_getD, List.getElem?_map, hrange]
      rfl
  have hwords := uniform_eq (t := t) h ⟨u, limbs⟩
  exact hwords.trans (Prod.ext (hfilled.done hlength) rfl)

theorem uniformBits_eq {t : ChachaType} {random : NumberGenerator} (h : random.Ready)
    (memory : ℕ → Word) (bits : ℕ) (signedness : Signedness) :
    uniformBits t memory bits signedness random =
      (SpanType.array ⟨bits, signedness, .normal⟩ 32 (drawnNumber t bits random),
        skip t (limbSizeFor 32 bits) random) := by
  have hdrawn := uniform_eq_image (t := t) h (u := ⟨bits, signedness, .normal⟩) rfl
    (Bigint.length_uninitialized memory (limbSizeFor 32 bits))
  have hsnd := congrArg Prod.snd hdrawn
  unfold uniformBits
  exact Prod.ext (eq_array _ _ (congrArg Prod.fst hdrawn)) hsnd

/-! ## The number of bits -/

section

variable [NeZero w] (N : Modulus)

theorem modulusConstant_normalized : Bigint.Normalized (modulusConstant w N) ∧
    (modulusConstant w N).toInt = N.toNat :=
  Bigint.array_normalized nofun ((inRange_unsigned _ rfl).mpr
    ⟨Int.natCast_nonneg _, by exact_mod_cast N.lt⟩)

theorem one_normalized : Bigint.Normalized (Bigint.one w) ∧ (Bigint.one w).toInt = 1 :=
  Bigint.array_normalized nofun ((inRange_unsigned _ rfl).mpr ⟨zero_le_one, one_lt_two⟩)

/-- The difference is signed, and there is a bit for the sign. -/
theorem modulus_sub_one : Bigint.Normalized
    (Bigint.subtract memory (modulusConstant w N) (Bigint.one w)) ∧
      (Bigint.subtract memory (modulusConstant w N) (Bigint.one w)).toInt = N.toNat - 1 := by
  obtain ⟨hbound, hboundValue⟩ := modulusConstant_normalized (w := w) N
  obtain ⟨hone, honeValue⟩ := one_normalized (w := w)
  rw [← hboundValue, ← honeValue, Bigint.subtract_eq_array memory hbound hone]
  refine Bigint.array_normalized (fun _ => Nat.succ_pos _) ?_
  exact (Bigint.subtract_inRange_iff hbound hone).mpr (.inl rfl)

/-- As many bits as the largest residue has, and those of the security parameter. -/
theorem drownBits_eq (security : ℕ) :
    drownBits memory (modulusConstant w N) .unsigned security =
      ((N.toNat - 1) * 2 ^ security).size := by
  unfold drownBits
  dsimp only
  obtain ⟨hdifference, hdifferenceValue⟩ := modulus_sub_one memory N
  generalize Bigint.subtract memory (modulusConstant w N) (Bigint.one w) = difference at *
  obtain ⟨hmax, hmaxValue⟩ :
      Bigint.Normalized (Bigint.shiftLeft memory difference security) ∧
        (Bigint.shiftLeft memory difference security).toInt =
          (((N.toNat - 1) * 2 ^ security : ℕ) : ℤ) := by
    have hvalue : difference.toInt * 2 ^ security =
        (((N.toNat - 1) * 2 ^ security : ℕ) : ℤ) := by
      rw [hdifferenceValue, Nat.cast_mul, Nat.cast_sub N.one_lt.le]
      push_cast
      rfl
    rw [← hvalue, Bigint.shiftLeft_eq_array memory hdifference]
    refine Bigint.array_normalized (fun hs => ?_) (Bigint.shiftLeft_inRange hdifference security)
    have hpos : 0 < difference.type.bitSize := hdifference.signed_pos hs
    show 0 < if difference.type.bitSize = 0 then 0 else difference.type.bitSize + security
    rw [if_neg hpos.ne']
    omega
  rw [Num.bitWidth_eq hmax.readable, BitArray.storedInt_eq_toInt _ hmax.signed_pos hmax.isNormal,
    hmaxValue, if_neg (Int.not_lt.mpr (Int.natCast_nonneg _)), Int.toNat_natCast]
  rfl

end

/-! ## The map to the residues -/

section

variable [NeZero w] {N : Modulus}

/-- A number divided by the powers of the base of both reductions. -/
def shuffle (w : ℕ) (N : Modulus) (r : ℕ) : ZMod N.toNat ≃ ZMod N.toNat :=
  Units.mulRight ((ZMod.unitOfCoprime _ (N.coprime_two_pow (w * r)))⁻¹ *
    (ZMod.unitOfCoprime _ (N.coprime_two_pow (w * N.limbSize w)))⁻¹)

omit [NeZero w] in
theorem coe_shuffle (r : ℕ) (z : ZMod N.toNat) : shuffle w N r z =
    z * (((2 ^ w) ^ r : ℕ) : ZMod N.toNat)⁻¹ * (N.auxiliaryModulus w : ZMod N.toNat)⁻¹ := by
  rw [Modulus.auxiliaryModulus, ← pow_mul, ← pow_mul, mul_assoc]
  rfl

theorem fromUniformlyRandom_eq {value : BitArray w} (hvalue : Bigint.Normalized value)
    (hu : value.type.signedness = .unsigned) :
    (fromUniformlyRandom memory N value).Reduced ∧
      (fromUniformlyRandom memory N value).toZMod =
        shuffle w N (max (N.limbSize w) (value.type.limbSize w)) value.toInt := by
  obtain ⟨hnonneg, hlt⟩ := Bigint.toInt_unsigned value hu
  have hroom : value.toInt < (2 ^ w) ^ max (N.limbSize w) (value.type.limbSize w) * N.toNat := by
    have hbits : value.type.bitSize ≤ w * max (N.limbSize w) (value.type.limbSize w) :=
      (limbSizeFor_le_iff _ _).mp (le_max_right _ _)
    have hone : (1 : ℤ) ≤ N.toNat := by exact_mod_cast N.one_lt.le
    calc value.toInt < 2 ^ value.type.bitSize := hlt
      _ ≤ 2 ^ (w * max (N.limbSize w) (value.type.limbSize w)) :=
          pow_le_pow_right₀ one_le_two hbits
      _ = (2 ^ w) ^ max (N.limbSize w) (value.type.limbSize w) := pow_mul _ _ _
      _ ≤ (2 ^ w) ^ max (N.limbSize w) (value.type.limbSize w) * N.toNat :=
          le_mul_of_one_le_right (by positivity) hone
  rw [fromUniformlyRandom, Mod.montgomeryReduce_self_eq _ hvalue.denotes hnonneg hroom]
  refine ⟨Mod.reduced_ofResidue _, ?_⟩
  rw [Mod.toZMod, Mod.residue_ofResidue, coe_shuffle]

end

/-! ## The bias -/

section

variable [NeZero w] (N : Modulus)

/-- The residue of a sampled number. -/
def sampled (bits v : ℕ) : Mod w N :=
  fromUniformlyRandom memory N (SpanType.array ⟨bits, .unsigned, .normal⟩ w v)

theorem sampled_eq {bits v : ℕ} (hv : v < 2 ^ bits) : (sampled memory N bits v).Reduced ∧
    (sampled memory N bits v).toZMod =
      shuffle w N (max (N.limbSize w) (limbSizeFor w bits)) v := by
  obtain ⟨hnormalized, hvalue⟩ := Bigint.array_normalized (w := w) (z := v)
    (t := ⟨bits, .unsigned, .normal⟩) nofun
    ((inRange_unsigned _ rfl).mpr ⟨Int.natCast_nonneg _, by exact_mod_cast hv⟩)
  have hsampled := fromUniformlyRandom_eq memory (N := N) hnormalized rfl
  rw [hvalue, Int.cast_natCast] at hsampled
  exact hsampled

/-- What `uniform` returns is the residue of the number that the next words are, as far as it has
bits. -/
theorem uniformMod_eq {t : ChachaType} {random : NumberGenerator} (h : random.Ready)
    (memory : ℕ → Word) (security : ℕ) :
    uniformMod t memory N security random =
      (sampled memory N (residueBits memory N security)
        (drawnNumber t (residueBits memory N security) random %
          2 ^ residueBits memory N security),
        skip t (limbSizeFor 32 (residueBits memory N security)) random) := by
  show (fromUniformlyRandom memory N
    (uniformBits t memory (residueBits memory N security) .unsigned random).1,
    (uniformBits t memory (residueBits memory N security) .unsigned random).2) = _
  generalize residueBits memory N security = bits
  have hlimbs : (SpanType.mk bits .unsigned .normal).image 32 (drawnNumber t bits random : ℤ) =
      (SpanType.mk bits .unsigned .normal).image 32
        ((drawnNumber t bits random % 2 ^ bits : ℕ) : ℤ) := by
    apply value_injective
    · rw [length_image, length_image]
    · rw [Checked.value_image rfl, Checked.value_image rfl]
      simp [kept]
  rw [uniformBits_eq h]
  exact Prod.ext (congrArg (fromUniformlyRandom memory N) (eq_array _ _ hlimbs)) rfl

/-- The residues of all numbers are spread evenly. -/
theorem balanced_sampled (bits : ℕ) :
    Balanced (2 ^ bits) fun v => (sampled memory N bits v).toZMod := by
  have hshuffled := (balanced_cast (2 ^ bits) N.toNat).map
    (shuffle w N (max (N.limbSize w) (limbSizeFor w bits)))
  intro z
  have hsame : frequency (2 ^ bits) (fun v => (sampled memory N bits v).toZMod) z =
      frequency (2 ^ bits) (fun v : ℕ =>
        shuffle w N (max (N.limbSize w) (limbSizeFor w bits)) (v : ZMod N.toNat)) z :=
    frequency_congr (fun v hv => (sampled_eq memory N hv).2) z
  rw [hsame]
  exact hshuffled z

/-- **The bias of random residues.** Every residue is hit by the same number of samples or by one
more, and the distance to the uniform distribution is at most that of the security parameter. -/
theorem residueBias (security : ℕ) :
    residueBits memory N security = ((N.toNat - 1) * 2 ^ security).size ∧
      (∀ v < 2 ^ residueBits memory N security,
        (sampled memory N (residueBits memory N security) v).Reduced) ∧
      (∀ z, frequency (2 ^ residueBits memory N security)
          (fun v => (sampled memory N (residueBits memory N security) v).toZMod) z =
            2 ^ residueBits memory N security / N.toNat ∨
        frequency (2 ^ residueBits memory N security)
          (fun v => (sampled memory N (residueBits memory N security) v).toZMod) z =
            2 ^ residueBits memory N security ⌈/⌉ N.toNat) ∧
      distance (distribution (2 ^ residueBits memory N security)
          fun v => (sampled memory N (residueBits memory N security) v).toZMod)
        (uniform (ZMod N.toNat)) ≤ 1 / 2 ^ security := by
  have hbits : residueBits memory N security = ((N.toNat - 1) * 2 ^ security).size :=
    drownBits_eq memory N security
  have hbalanced := balanced_sampled memory N (residueBits memory N security)
  generalize residueBits memory N security = bits at *
  refine ⟨hbits, fun v hv => (sampled_eq memory N hv).1, fun z => ?_, ?_⟩
  · have hz := hbalanced.floor_or_ceil z
    rwa [ZMod.card] at hz
  · have hdistance := distance_le (Nat.two_pow_pos bits) hbalanced
    rw [ZMod.card] at hdistance
    refine hdistance.trans ?_
    have hlt : (N.toNat - 1) * 2 ^ security < 2 ^ bits := by
      rw [hbits]
      exact Nat.lt_size_self _
    have hN := N.one_lt
    -- the bits have room for a multiple of the modulus of the size that the security asks for
    have hle : N.toNat * 2 ^ security ≤ 4 * 2 ^ bits := by
      calc N.toNat * 2 ^ security ≤ 4 * (N.toNat - 1) * 2 ^ security :=
            Nat.mul_le_mul_right _ (by omega)
        _ = 4 * ((N.toNat - 1) * 2 ^ security) := Nat.mul_assoc _ _ _
        _ ≤ 4 * 2 ^ bits := Nat.mul_le_mul_left _ hlt.le
    rw [div_le_div_iff₀ (by positivity) (by positivity), one_mul]
    exact_mod_cast hle

end

/-- A modulus of sixteen bits, drowned with forty bits. -/
theorem residueBias_prime :
    residueBits (fun _ => (0 : BitVec 32)) Mod.prime 40 = 56 ∧
      distance (distribution (2 ^ residueBits (fun _ => (0 : BitVec 32)) Mod.prime 40)
          fun v => (sampled (fun _ => (0 : BitVec 32)) Mod.prime
            (residueBits (fun _ => (0 : BitVec 32)) Mod.prime 40) v).toZMod)
        (uniform (ZMod Mod.prime.toNat)) ≤ 1 / 2 ^ 40 := by
  obtain ⟨hbits, -, -, hdistance⟩ := residueBias (fun _ => (0 : BitVec 32)) Mod.prime 40
  refine ⟨hbits.trans ?_, hdistance⟩
  exact le_antisymm (Nat.size_le.mpr (by decide)) (Nat.lt_size.mpr (by decide))

end Hmpc.Random.Uniform
