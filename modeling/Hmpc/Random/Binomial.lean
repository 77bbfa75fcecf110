/-
# Hmpc.Random.Binomial -- counting random bits

The bits of the limbs are added up one by one, as carries into a result that is wide enough for all
of them. The limb at hand is shifted by one bit at a time and replaced by the next one when it is
used up; after the last bit there is none at hand. A centered variable is the count of twice as
many bits as its mean, minus the mean.
-/
import Hmpc.Ints.Mod
import Hmpc.Random.Keystream
import Hmpc.Rational

namespace Hmpc.Random.Binomial

open Hmpc.Core Hmpc.Ints Hmpc.Crypto Hmpc.Lib.Limbs Hmpc.Lib.Loops Hmpc.Lib.Digits MaybeConstant
  SpanType

variable {w : ℕ} (memory : ℕ → BitVec w)

/-- `binomial_limits<Count>::value_type` -/
def valueType (count : ℕ) : SpanType := ⟨count.size, .unsigned, .unnormal⟩

/-- The limb that the next iteration gets. After the last bit there is none. -/
def nextLimb (count : ℕ) (bits : List (BitVec w)) (i : ℕ) (currentLimb : BitVec w) :
    Option (BitVec w) :=
  let bit := i % w
  let limb := i / w
  if bit = w - 1 then
    if limb < limbSizeFor w count - 1 then some (bits.getD (limb + 1) 0) else none
  else if i < count - 1 then some (currentLimb >>> 1) else none

theorem length_addTo (left : Source w) (carry : Bit) (result : BitArray w) :
    (Core.Num.add result.type left (nullspan w).source (runtime carry) result.limbs).1.length =
      result.type.limbSize w :=
  (Num.length_add _ _ _ _ _).trans result.limb_size

/-- `add(write_result, left, read_nullspan, carry)` -/
def addTo (left : Source w) (carry : Bit) (result : BitArray w) : BitArray w :=
  ⟨⟨result.type, (Core.Num.add result.type left (nullspan w).source (runtime carry)
    result.limbs).1⟩, length_addTo left carry result⟩

/-- An iteration: the lowest bit of the limb is added to nothing, or to the result itself. -/
def addBit (count : ℕ) (bits : List (BitVec w)) (i : ℕ)
    (s : BitArray w × Option (BitVec w)) : Option (BitArray w × Option (BitVec w)) :=
  s.2.map fun currentLimb =>
    let readResult : Source w := fun l => (BitSpan.mk s.1.type l).span
    (addTo (if i = 0 then (nullspan w).source else readResult) (currentLimb.setWidth 1) s.1,
      nextLimb count bits i currentLimb)

/-- The result before it is written. -/
def uninitialized (t : SpanType) : BitArray w :=
  ⟨⟨t, Bigint.uninitialized memory (t.limbSize w)⟩, Bigint.length_uninitialized memory _⟩

/-- `binomial<Count>(random)`, with the bits that were drawn. -/
def sumBits (count : ℕ) (bits : List (BitVec w)) : Option (BitArray w) :=
  (tryScanRange count (addBit count bits)
    (uninitialized memory (valueType count), some (bits.getD 0 0))).map Prod.fst

/-- `binomial<Count>(random)` -/
def binomial (t : ChachaType) (memory : ℕ → Word) (count : ℕ) (random : NumberGenerator) :
    Option (BitArray 32) × NumberGenerator :=
  let drawn := NumberGenerator.uniform t
    ⟨⟨count, .unsigned, .unnormal⟩, Bigint.uninitialized memory (limbSizeFor 32 count)⟩ random
  (sumBits memory count drawn.1, drawn.2)

/-! ## Centered variables -/

/-- `Variance`, with the assertions of `centered_binomial_limits` and `binomial`. -/
structure Variance where
  variance : RationalSize
  den_eq : (variance.scale 2).den = 1
  pos : 0 < (variance.scale 4).toSize

namespace Variance

variable (v : Variance)

/-- `bit_count` -/
def bitCount : ℕ := (v.variance.scale 4).toSize

/-- `mean` -/
def mean : ℕ := (v.variance.scale 2).toSize

/-- `centered_binomial_limits<Variance>::value_type` -/
def valueType : SpanType := ⟨v.mean.size + 1, .signed, .unnormal⟩

theorem length_copyMean (memory : ℕ → BitVec w) :
    (Num.bitCopy v.valueType (sizeLimbSpan w (BitVec.ofNat 64 v.mean)).source
      (Bigint.uninitialized memory (v.valueType.limbSize w))).length = v.valueType.limbSize w :=
  (Num.length_bitCopy _ _ _).trans (Bigint.length_uninitialized memory _)

/-- `max` -/
def max : BitArray w :=
  ⟨⟨v.valueType, Num.bitCopy v.valueType (sizeLimbSpan w (BitVec.ofNat 64 v.mean)).source
    (Bigint.uninitialized memory (v.valueType.limbSize w))⟩, v.length_copyMean memory⟩

/-- `min` -/
def min : BitArray w := Bigint.negate memory (v.max memory)

/-- There are at most twice as many bits as the mean, also if their number wraps. -/
theorem bitCount_le : v.bitCount ≤ 2 * v.mean := by
  have hmean : v.variance.den * v.mean = 2 * v.variance.num % sizeCount :=
    RationalSize.mul_toSize_of_den_eq_one v.den_eq
  have htwice : 4 * v.variance.num % sizeCount ≤ v.variance.den * (2 * v.mean) := by
    calc 4 * v.variance.num % sizeCount
        = 2 * (2 * v.variance.num % sizeCount) % sizeCount := by
          rw [Nat.mul_mod_mod, ← Nat.mul_assoc]
      _ ≤ 2 * (2 * v.variance.num % sizeCount) := Nat.mod_le _ _
      _ = v.variance.den * (2 * v.mean) := by rw [← hmean, Nat.mul_left_comm]
  unfold bitCount
  rw [RationalSize.toSize_scale]
  exact (Nat.div_le_div_right htwice).trans_eq (Nat.mul_div_cancel_left _ v.variance.den_pos)

/-- A variable has a bit, so that its mean is not zero. -/
instance : NeZero v.mean := by
  have hle := v.bitCount_le
  have hpos : 0 < v.bitCount := v.pos
  exact ⟨by omega⟩

theorem length_subtractMean (memory : ℕ → BitVec w) (count : BitArray w) :
    (Num.subtract v.valueType count.span.source (constantBitSpanOf w v.mean).source (constant 0)
      (Bigint.uninitialized memory (v.valueType.limbSize w))).1.length =
      v.valueType.limbSize w :=
  (Num.length_subtract _ _ _ _ _).trans (Bigint.length_uninitialized memory _)

/-- `subtract(result, noncentered_binomial, mean)` -/
def subtractMean (count : BitArray w) : BitArray w :=
  ⟨⟨v.valueType, (Num.subtract v.valueType count.span.source (constantBitSpanOf w v.mean).source
    (constant 0) (Bigint.uninitialized memory (v.valueType.limbSize w))).1⟩,
    v.length_subtractMean memory count⟩

end Variance

/-- `centered_binomial<Variance>(random)`, with the bits that were drawn. -/
def centeredSum (v : Variance) (bits : List (BitVec w)) : Option (BitArray w) :=
  (sumBits memory v.bitCount bits).map (v.subtractMean memory)

/-- `centered_binomial<Variance>(random)` -/
def centeredBinomial (t : ChachaType) (memory : ℕ → Word) (v : Variance)
    (random : NumberGenerator) : Option (BitArray 32) × NumberGenerator :=
  let drawn := binomial t memory v.bitCount random
  (drawn.1.map (v.subtractMean memory), drawn.2)

/-! ## The loop -/

/-- A bit of the string that was drawn. -/
def bitAt (bits : List (BitVec w)) (i : ℕ) : Bool := (bits.getD (i / w) 0).getLsbD (i % w)

/-- How many of the first bits are set. -/
def ones (bits : List (BitVec w)) (count : ℕ) : ℕ := (List.range count).countP (bitAt bits)

theorem ones_succ (bits : List (BitVec w)) (i : ℕ) :
    ones bits (i + 1) = ones bits i + (bitAt bits i).toNat := by
  unfold ones
  rw [List.range_succ, List.countP_append, List.countP_singleton]
  cases bitAt bits i <;> rfl

theorem ones_le (bits : List (BitVec w)) (count : ℕ) : ones bits count ≤ count := by
  have hle := List.countP_le_length (p := bitAt bits) (l := List.range count)
  rwa [List.length_range] at hle

section

variable [NeZero w] {count : ℕ} {bits : List (BitVec w)}

/-- The limb at hand begins with bit `i`. -/
theorem nextLimb_eq {i : ℕ} (hi : i < count) :
    nextLimb count bits i (bits.getD (i / w) 0 >>> (i % w)) =
      if i + 1 < count then some (bits.getD ((i + 1) / w) 0 >>> ((i + 1) % w)) else none := by
  have hw : 0 < w := NeZero.pos w
  have hlt := Nat.mod_lt i hw
  have hsplit := Nat.div_add_mod i w
  unfold nextLimb
  dsimp only
  by_cases hlast : i % w = w - 1
  · -- the limb is used up
    have hnext : i + 1 = w * (i / w + 1) := by
      calc i + 1 = w * (i / w) + (i % w + 1) := by rw [← Nat.add_assoc, hsplit]
        _ = w * (i / w) + w := by rw [hlast, Nat.sub_add_cancel hw]
        _ = w * (i / w + 1) := (Nat.mul_succ _ _).symm
    have hmore : i / w < limbSizeFor w count - 1 ↔ i + 1 < count := by
      rw [Nat.lt_sub_iff_add_lt, ← Nat.not_le, limbSizeFor_le_iff, ← hnext, Nat.not_le]
    have hdiv : (i + 1) / w = i / w + 1 := by rw [hnext, Nat.mul_div_cancel_left _ hw]
    have hmod : (i + 1) % w = 0 := by rw [hnext, Nat.mul_mod_right]
    simp only [if_pos hlast, hmore, hdiv, hmod, BitVec.ushiftRight_zero]
  · have hnext : i + 1 = w * (i / w) + (i % w + 1) := by omega
    have hdiv : (i + 1) / w = i / w := by
      rw [hnext, Nat.mul_add_div hw, Nat.div_eq_of_lt (show i % w + 1 < w by omega), Nat.add_zero]
    have hmod : (i + 1) % w = i % w + 1 := by
      rw [hnext, Nat.mul_add_mod, Nat.mod_eq_of_lt (show i % w + 1 < w by omega)]
    have hmore : i < count - 1 ↔ i + 1 < count := by omega
    simp only [if_neg hlast, hmore, hdiv, hmod, BitVec.shiftRight_add]

omit [NeZero w] in
/-- The lowest bit of the limb at hand. -/
theorem setWidth_shift (i : ℕ) : ((bits.getD (i / w) 0 >>> (i % w)).setWidth 1 : Bit) =
    BitVec.ofBool (bitAt bits i) := by
  apply BitVec.eq_of_getLsbD_eq
  intro j hj
  obtain rfl : j = 0 := by omega
  simp [bitAt]

/-- What the loop has added up. -/
structure Summed (count : ℕ) (bits : List (BitVec w)) (i : ℕ)
    (s : BitArray w × Option (BitVec w)) : Prop where
  type_eq : s.1.type = valueType count
  sum_eq : 0 < i → s.1 = (valueType count).array w (ones bits i)
  limb_eq : s.2 = if i < count then some (bits.getD (i / w) 0 >>> (i % w)) else none

omit [NeZero w] in
theorem inRange_ones (bits : List (BitVec w)) {i : ℕ} (hi : i ≤ count) :
    (valueType count).InRange (ones bits i) := by
  refine (inRange_unsigned _ rfl).mpr ⟨Int.natCast_nonneg _, ?_⟩
  have hlt : ones bits i < 2 ^ count.size :=
    (ones_le bits i).trans_lt (hi.trans_lt (Nat.lt_size_self count))
  exact_mod_cast hlt

omit [NeZero w] in
/-- The limbs of the result, while it is written. -/
theorem readResult_reads (result : BitArray w) (hu : result.type.signedness = .unsigned) :
    Source.Reads (fun l => (BitSpan.mk result.type l).span) result.limbs
      (result.type.limbSize w) (value result.limbs) := by
  intro i hi l hl hrest
  rw [digit_value, ← hrest i le_rfl, ← digit_value]
  exact Mod.denotes_limbs hu (hl.trans result.limb_size) i

/-- The bit is added, and no carry is lost. -/
theorem addTo_eq {result : BitArray w} {left : Source w} {n : ℕ}
    (hleft : left.Reads result.limbs (result.type.limbSize w) n) (bit : Bool) :
    addTo left (BitVec.ofBool bit) result =
      result.type.array w ((n + bit.toNat : ℕ) : ℤ) := by
  have hadd := (Num.add_eq result.limb_size hleft ((nullspan_denotes).reads _ _)
    (runtime (BitVec.ofBool bit))).1
  apply eq_array
  rw [hadd]
  cases bit <;> simp

theorem Summed.step {i : ℕ} (hi : i < count) {s : BitArray w × Option (BitVec w)}
    (h : Summed count bits i s) :
    ∃ s', addBit count bits i s = some s' ∧ Summed count bits (i + 1) s' := by
  have hlimb := h.limb_eq
  rw [if_pos hi] at hlimb
  refine ⟨_, by rw [addBit, hlimb, Option.map_some], ?_⟩
  have hreads : (if i = 0 then (nullspan w).source
      else fun l => (BitSpan.mk s.1.type l).span).Reads s.1.limbs (s.1.type.limbSize w)
        (ones bits i) := by
    split_ifs with hfirst
    · rw [hfirst]
      exact (nullspan_denotes).reads _ _
    · have hsum := h.sum_eq (Nat.pos_of_ne_zero hfirst)
      have hvalue : (value s.1.limbs : ℤ) = ones bits i := by
        rw [hsum]
        exact value_image_of_inRange _ rfl (inRange_ones bits hi.le)
      rw [← hvalue]
      exact readResult_reads s.1 (by rw [h.type_eq]; rfl)
  refine ⟨h.type_eq, fun _ => ?_, nextLimb_eq hi⟩
  rw [setWidth_shift]
  dsimp only
  rw [addTo_eq hreads, ones_succ, h.type_eq]

/-- **The number of ones.** -/
theorem sumBits_eq (hcount : 0 < count) (bits : List (BitVec w)) :
    sumBits memory count bits = some ((valueType count).array w (ones bits count)) := by
  obtain ⟨s, hs, hsummed⟩ := tryScanRange_induction (P := Summed count bits)
    (f := addBit count bits)
    (s := (uninitialized memory (valueType count), some (bits.getD 0 0)))
    ⟨rfl, fun h => absurd h (Nat.lt_irrefl 0), by
      rw [if_pos hcount, Nat.zero_div, Nat.zero_mod, BitVec.ushiftRight_zero]⟩
    fun i hi s hs => hs.step hi
  rw [sumBits, hs, Option.map_some, hsummed.sum_eq hcount]

end

/-! ## The mean -/

namespace Variance

variable (v : Variance)

/-- The number of bits and the mean of a variance whose fourfold is a fraction of sizes. -/
theorem exact_of_lt (h : 4 * v.variance.num < sizeCount) :
    (v.mean : ℚ) = 2 * v.variance.toRat ∧ (v.bitCount : ℚ) = 4 * v.variance.toRat := by
  have hnum : 2 * v.variance.num < sizeCount := by omega
  have hmean : (v.mean : ℚ) = 2 * v.variance.toRat :=
    (RationalSize.cast_toSize_of_den_eq_one v.den_eq).trans (RationalSize.toRat_scale hnum)
  have hcount : v.bitCount = 2 * v.mean := by
    have hproduct : v.variance.den * v.mean = 2 * v.variance.num % sizeCount :=
      RationalSize.mul_toSize_of_den_eq_one v.den_eq
    rw [Nat.mod_eq_of_lt hnum] at hproduct
    unfold bitCount
    rw [RationalSize.toSize_scale, Nat.mod_eq_of_lt h,
      show 4 * v.variance.num = v.variance.den * (2 * v.mean) by
        rw [Nat.mul_left_comm, hproduct]; omega,
      Nat.mul_div_cancel_left _ v.variance.den_pos]
  refine ⟨hmean, ?_⟩
  rw [hcount, Nat.cast_mul, hmean]
  ring

section

variable [NeZero w]

/-- What is at most the mean away from zero fits. -/
theorem inRange_of_abs_le {z : ℤ} (hlow : -(v.mean : ℤ) ≤ z) (hhigh : z ≤ v.mean) :
    v.valueType.InRange z := by
  have hlt : (v.mean : ℤ) < 2 ^ v.mean.size := by exact_mod_cast Nat.lt_size_self v.mean
  refine (inRange_signed _ rfl (Nat.succ_pos _)).mpr ?_
  show -2 ^ (v.mean.size + 1 - 1) ≤ z ∧ z < 2 ^ (v.mean.size + 1 - 1)
  rw [Nat.add_sub_cancel]
  omega

theorem max_eq : v.max memory = v.valueType.array w v.mean := by
  have hvalue : (BitVec.ofNat 64 v.mean).toNat = v.mean := by
    rw [BitVec.toNat_ofNat]
    exact Nat.mod_eq_of_lt (RationalSize.toSize_lt _)
  apply eq_array
  have hcopy := Num.bitCopy_eq (t := v.valueType) (Bigint.length_uninitialized memory _)
    ((sizeLimbSpan_denotes (w := w) (BitVec.ofNat 64 v.mean)).reads _ _)
  rwa [hvalue] at hcopy

theorem max_normalized : Bigint.Normalized (v.max memory) ∧ (v.max memory).toInt = v.mean := by
  rw [max_eq]
  exact Bigint.array_normalized (fun _ => Nat.succ_pos _)
    (v.inRange_of_abs_le (by omega) le_rfl)

theorem toInt_min : (v.min memory).toInt = -v.mean := by
  obtain ⟨hmax, hvalue⟩ := v.max_normalized memory
  unfold min
  rw [Bigint.negate_eq_array memory hmax, hvalue]
  exact (toInt_array _ _).trans (v.inRange_of_abs_le le_rfl (by omega))

theorem inRange_sub_mean {n : ℕ} (hn : n ≤ v.bitCount) :
    v.valueType.InRange ((n : ℤ) - v.mean) := by
  have hle := v.bitCount_le
  exact v.inRange_of_abs_le (by omega) (by omega)

theorem subtractMean_eq_array {count : BitArray w} {n : ℕ} (hcount : count.span.Denotes n) :
    v.subtractMean memory count = v.valueType.array w ((n : ℤ) - v.mean) := by
  have hsubtract := (Num.subtract_eq (t := v.valueType) (Bigint.length_uninitialized memory _)
    (hcount.reads _ _) ((constantBitSpanOf_unsigned (w := w) v.mean).denotes.reads _ _)
    (constant 0)).1
  rw [show (n : ℤ) - v.mean - ((constant 0 : MaybeConstant Bit).value.toNat : ℤ) = n - v.mean
    from Int.sub_zero _] at hsubtract
  exact eq_array _ _ hsubtract

/-- The difference is exact. -/
theorem subtractMean_eq {count : BitArray w} {n : ℕ} (hcount : count.span.Denotes n)
    (hn : n ≤ v.bitCount) : (v.subtractMean memory count).type = v.valueType ∧
      (v.subtractMean memory count).toInt = n - v.mean := by
  rw [v.subtractMean_eq_array memory hcount]
  exact ⟨rfl, (toInt_array _ _).trans (v.inRange_sub_mean hn)⟩

end

end Variance

/-! ## Samples -/

/-- **Binomial samples.** A sample is the number of ones, and a centered one is that number minus
the mean, between the limits. -/
theorem binomialSampling [NeZero w] (memory : ℕ → BitVec w) :
    (∀ count, 0 < count → ∀ bits : List (BitVec w), ∃ result : BitArray w,
      sumBits memory count bits = some result ∧ result.type = valueType count ∧
        result.toInt = ones bits count ∧ ones bits count < 2 ^ (valueType count).bitSize) ∧
    (∀ (v : Variance) (bits : List (BitVec w)), ∃ result : BitArray w,
      centeredSum memory v bits = some result ∧ result.type = v.valueType ∧
        result.toInt = ones bits v.bitCount - v.mean ∧
        (v.min memory).toInt ≤ result.toInt ∧ result.toInt ≤ (v.max memory).toInt ∧
        (v.min memory).toInt = -v.mean ∧ (v.max memory).toInt = v.mean) ∧
    ∀ v : Variance, 4 * v.variance.num < sizeCount →
      (v.mean : ℚ) = 2 * v.variance.toRat ∧ (v.bitCount : ℚ) = 4 * v.variance.toRat := by
  refine ⟨fun count hcount bits => ?_, fun v bits => ?_, Variance.exact_of_lt⟩
  · have hrange := inRange_ones bits (le_refl count)
    refine ⟨_, sumBits_eq memory hcount bits, rfl, (toInt_array _ _).trans hrange, ?_⟩
    exact (ones_le bits count).trans_lt (Nat.lt_size_self count)
  -- the count is the operand of the subtraction of the mean
  · obtain ⟨hcount, hvalue⟩ := Bigint.array_normalized (w := w) (t := valueType v.bitCount)
      nofun (inRange_ones bits (le_refl v.bitCount))
    have hdenotes := hcount.denotes
    rw [hvalue] at hdenotes
    have hle := ones_le bits v.bitCount
    have hbits := v.bitCount_le
    have hpos : 0 < v.bitCount := v.pos
    obtain ⟨htype, hresult⟩ := v.subtractMean_eq memory hdenotes hle
    obtain ⟨-, hmax⟩ := v.max_normalized memory
    have hmin := v.toInt_min memory
    refine ⟨_, by rw [centeredSum, sumBits_eq memory hpos, Option.map_some], htype, hresult,
      ?_, ?_, hmin, hmax⟩
    · rw [hmin, hresult]
      omega
    · rw [hmax, hresult]
      omega

/-- Ten bits in limbs of eight fit four bits. -/
theorem binomialSampling_ten : ∃ result : BitArray 8,
    sumBits (fun _ => 0) 10 [0xB5, 0xFE] = some result ∧ result.type = valueType 10 ∧
      result.toInt = ones [(0xB5 : BitVec 8), 0xFE] 10 ∧
      ones [(0xB5 : BitVec 8), 0xFE] 10 < 2 ^ (valueType 10).bitSize :=
  (binomialSampling fun _ => 0).1 10 (by decide) [0xB5, 0xFE]

/-- Ten bits in limbs of eight. -/
example : (sumBits (fun _ => (0 : BitVec 8)) 10 [0xB5, 0xFE]).map BitArray.toInt = some 6 := by
  decide +kernel

end Hmpc.Random.Binomial
