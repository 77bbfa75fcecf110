/-
# Hmpc.Core.Checked -- spans at compile time, with their assertions

At compile time the width of a span is a value, and reads and writes assert that the index is
inside and that the last limb of a `normal` span is normal. A failed assertion ends the
compilation; then there is no result. The functions of `hmpc::core::num` are loops over such reads
and writes. None of them fails on operands that hold numbers of their bits, and what they leave in
their result is what the versions at run time leave there.
-/
import Hmpc.Core.Compare
import Hmpc.Core.Multiply
import Hmpc.Core.Divide

namespace Hmpc.Core.Checked

open Hmpc.Lib.Loops Hmpc.Lib.Limbs Hmpc.Lib.Digits MaybeConstant SpanType

variable {w : ℕ}

/-! ## Reads and writes -/

/-- `compiletime_bit_span::read(index, normalization)` -/
def read (x : BitSpan w) (index : ℕ) (normalization : Normalization) : Option (BitVec w) :=
  if index < x.type.limbSize w then
    let limb := x.limbs.getD index 0
    if x.type.bitSize % w ≠ 0 ∧ index = x.type.limbSize w - 1 then
      match x.type.normalType with
      | .normal => if isNormal (lastLimbBitSize w x.type.bitSize) limb then some limb else none
      | .unnormal =>
        match normalization with
        | .normal => some (maskInside (lastLimbBitSize w x.type.bitSize) limb)
        | .unnormal => some limb
    else some limb
  else none

/-- `compiletime_bit_span::extended_read(index, normalization)` -/
def extendedRead (x : BitSpan w) (index : ℕ) (normalization : Normalization) :
    Option (BitVec w) :=
  if index < x.type.limbSize w then read x index normalization else some 0

/-- `compiletime_bit_span::write(index, value, normalization)` -/
def write (t : SpanType) (index : ℕ) (value : BitVec w) (normalization : Normalization)
    (limbs : List (BitVec w)) : Option (List (BitVec w)) :=
  if index < t.limbSize w then
    if index = t.limbSize w - 1 then
      match t.normalType, normalization with
      | .normal, .unnormal =>
        if isNormal (lastLimbBitSize w t.bitSize) value then some (limbs.set index value) else none
      | _, .normal => some (limbs.set index (maskInside (lastLimbBitSize w t.bitSize) value))
      | .unnormal, .unnormal => some (limbs.set index value)
    else some (limbs.set index value)
  else none

/-- A span and the number it holds. Bits above its own are not set. -/
structure Holds (x : BitSpan w) (z : ℕ) : Prop where
  unsigned : x.type.signedness = .unsigned
  length_eq : x.limbs.length = x.type.limbSize w
  value_eq : value x.limbs = z
  lt : z < 2 ^ x.type.bitSize

/-- The last limb of a number has the bits of the last limb. -/
theorem toNat_last_limb_lt [NeZero w] {bitSize z i : ℕ} (hz : z < 2 ^ bitSize)
    (hi : i < limbSizeFor w bitSize) (hlast : i = limbSizeFor w bitSize - 1) :
    (digit w z i).toNat < 2 ^ lastLimbBitSize w bitSize := by
  have hpos : 0 < bitSize := by
    apply Nat.pos_of_ne_zero
    intro hzero
    rw [hzero, limbSizeFor_zero] at hi
    omega
  obtain ⟨m, hm, hbits, -, hr, -⟩ := bitSize_split (w := w) hpos
  obtain rfl : i = m := by omega
  have hz' : (z : ℤ) < 2 ^ (w * i + lastLimbBitSize w bitSize) := by
    rw [← hbits]
    exact_mod_cast hz
  have hlow : -(2 : ℤ) ^ (w * i + lastLimbBitSize w bitSize) ≤ z := by
    have := pow_pos (two_pos : (0 : ℤ) < 2) (w * i + lastLimbBitSize w bitSize)
    omega
  exact (toNat_last_digit hr hlow hz').1 (Int.natCast_nonneg z)

theorem lastLimbBitSize_le [NeZero w] (bitSize : ℕ) : lastLimbBitSize w bitSize ≤ w := by
  have hlt := Nat.mod_lt bitSize (Nat.pos_of_ne_zero (NeZero.ne w))
  unfold lastLimbBitSize
  split_ifs <;> omega

/-- A number of some bits has no digits above their limbs. -/
theorem digit_above [NeZero w] {bitSize z i : ℕ} (hz : z < 2 ^ bitSize)
    (hi : limbSizeFor w bitSize ≤ i) : digit w z i = 0 := by
  have hle := (limbSizeFor_le_iff (w := w) bitSize i).mp hi
  have hz' : (z : ℤ) < (2 ^ w) ^ i := by
    rw [← pow_mul]
    exact_mod_cast hz.trans_le (Nat.pow_le_pow_right two_pos hle)
  exact digit_of_lt (Int.natCast_nonneg z) hz' le_rfl

/-- Reads of a span that holds a number do not fail, with any normalization. -/
theorem Holds.read_eq [NeZero w] {x : BitSpan w} {z : ℕ} (h : Holds x z) {i : ℕ}
    (hi : i < x.type.limbSize w) (normalization : Normalization) :
    read x i normalization = some (digit w z i) := by
  have hlimb : x.limbs.getD i 0 = digit w z i := by rw [← digit_value, h.value_eq]
  unfold read
  rw [if_pos hi]
  simp only [hlimb]
  by_cases hlast : x.type.bitSize % w ≠ 0 ∧ i = x.type.limbSize w - 1
  · have hlt := toNat_last_limb_lt h.lt hi hlast.2
    have hmask : maskInside (lastLimbBitSize w x.type.bitSize) (digit w z i) = digit w z i := by
      apply BitVec.eq_of_toNat_eq
      rw [toNat_maskInside (lastLimbBitSize_le _), Nat.mod_eq_of_lt hlt]
    have hnormal := (isNormal_iff (lastLimbBitSize_le _) _).mpr hlt
    rw [if_pos hlast, hmask, hnormal]
    cases x.type.normalType <;> cases normalization <;> rfl
  · rw [if_neg hlast]

theorem Holds.extendedRead_eq [NeZero w] {x : BitSpan w} {z : ℕ} (h : Holds x z) (i : ℕ)
    (normalization : Normalization) :
    extendedRead x i normalization = some (digit w z i) := by
  unfold extendedRead
  split_ifs with hi
  · exact h.read_eq hi normalization
  · rw [digit_above h.lt (Nat.le_of_not_lt hi)]

/-- What the reads of a span assert: a `normal` span is normal. -/
structure Sound (x : BitSpan w) : Prop where
  unsigned : x.type.signedness = .unsigned
  length_eq : x.limbs.length = x.type.limbSize w
  isNormal : x.type.normalType = .normal → x.type.bitSize % w ≠ 0 →
    isNormal (lastLimbBitSize w x.type.bitSize) x.lastLimb = true

/-- At run time the same is asserted. -/
theorem sound_iff_readable [NeZero w] {x : BitArray w} (hu : x.type.signedness = .unsigned) :
    Sound x.toBitSpan ↔ x.Readable := by
  have hmask : x.signMask.value = 0 := by
    unfold BitSpan.signMask
    rw [hu]
    rfl
  constructor
  · intro h
    refine ⟨fun hs => absurd (hu.symm.trans hs) (by decide), fun hn hbits => ?_⟩
    rw [hmask, isNormalSigned_zero (lastLimbBitSize_le _)]
    exact h.isNormal hn hbits
  · intro h
    refine ⟨hu, x.limb_size, fun hn hbits => ?_⟩
    have hnormal := h.isNormal hn hbits
    rwa [hmask, isNormalSigned_zero (lastLimbBitSize_le _)] at hnormal

/-- Reads inside a span return what those at run time do. -/
theorem Sound.read_eq {x : BitSpan w} (h : Sound x) {i : ℕ} (hi : i < x.type.limbSize w)
    (normalization : Normalization) : read x i normalization = some (x.read i normalization) := by
  unfold read BitSpan.read
  rw [if_pos hi]
  dsimp only
  by_cases hlast : x.type.bitSize % w ≠ 0 ∧ i = x.type.limbSize w - 1
  · have hlimb : x.limbs.getD i 0 = x.lastLimb := by rw [BitSpan.lastLimb, ← hlast.2]
    rw [if_pos hlast, if_pos hlast, h.unsigned]
    cases hn : x.type.normalType with
    | normal =>
        have hnormal := h.isNormal hn hlast.1
        rw [← hlimb] at hnormal
        simp only [hnormal, if_true]
    | unnormal => cases normalization <;> rfl
  · rw [if_neg hlast, if_neg hlast]

/-- Without a `normal` access a limb is read as it is. -/
theorem Sound.read_own {x : BitSpan w} (h : Sound x) {i : ℕ} (hi : i < x.type.limbSize w) :
    read x i x.type.normalType = some (x.limbs.getD i 0) := by
  rw [h.read_eq hi]
  unfold BitSpan.read
  cases x.type.normalType <;> simp

/-- These are the digits of all limbs. -/
theorem Sound.extendedRead_own {x : BitSpan w} (h : Sound x) (i : ℕ) :
    extendedRead x i x.type.normalType = some (digit w (value x.limbs) i) := by
  rw [digit_value]
  unfold extendedRead
  split_ifs with hi
  · exact h.read_own hi
  · rw [List.getD_eq_getElem?_getD, List.getElem?_eq_none (by rw [h.length_eq]; omega)]
    rfl

/-- A `normal` access gives the digits of the bits of the span. -/
theorem Sound.extendedRead_normal [NeZero w] {x : BitSpan w} (h : Sound x) (i : ℕ) :
    extendedRead x i .normal = some (digit w (value x.limbs % 2 ^ x.type.bitSize : ℕ) i) := by
  let array : BitArray w := ⟨x, h.length_eq⟩
  have hdenotes := array.denotesNormal_span ((sound_iff_readable h.unsigned).mp h) i
  have hstored : array.storedInt = (value x.limbs % 2 ^ x.type.bitSize : ℕ) := by
    unfold BitArray.storedInt
    rw [show array.type.signedness = .unsigned from h.unsigned]
    push_cast
    rfl
  rw [← hstored, ← hdenotes]
  show _ = some (x.extendedRead i .normal).value
  unfold extendedRead BitSpan.extendedRead
  split_ifs with hi
  · exact h.read_eq hi .normal
  · unfold BitSpan.signMask
    rw [h.unsigned]
    rfl

theorem Holds.sound [NeZero w] {x : BitSpan w} {z : ℕ} (h : Holds x z) : Sound x where
  unsigned := h.unsigned
  length_eq := h.length_eq
  isNormal _ hbits := by
    have hpos : 0 < x.type.bitSize := by
      apply Nat.pos_of_ne_zero
      intro hzero
      exact hbits (by rw [hzero, Nat.zero_mod])
    have hi : x.type.limbSize w - 1 < x.type.limbSize w := by
      obtain ⟨m, hm, -⟩ := bitSize_split (w := w) hpos
      rw [limbSize, hm]
      omega
    rw [isNormal_iff (lastLimbBitSize_le _), BitSpan.lastLimb, ← digit_value, h.value_eq]
    exact toNat_last_limb_lt h.lt hi rfl

/-- A write with the normalization of the span never fails. -/
theorem write_eq {t : SpanType} (hu : t.signedness = .unsigned) {i : ℕ} (hi : i < t.limbSize w)
    (v : BitVec w) (limbs : List (BitVec w)) :
    write t i v t.normalType limbs = some (t.write i v t.normalType limbs) := by
  unfold write SpanType.write stored
  rw [if_pos hi]
  cases t.normalType <;> by_cases hlast : i = t.limbSize w - 1 <;> simp [hlast, hu]

/-- Zero is normal. -/
theorem write_zero [NeZero w] {t : SpanType} {i : ℕ} (hi : i < t.limbSize w)
    (limbs : List (BitVec w)) :
    write t i 0 .unnormal limbs = some (t.write i 0 .unnormal limbs) := by
  have hnormal : isNormal (lastLimbBitSize w t.bitSize) (0 : BitVec w) = true := by
    rw [isNormal_iff (lastLimbBitSize_le _)]
    exact Nat.two_pow_pos _
  unfold write SpanType.write
  rw [if_pos hi, stored_zero, hnormal]
  cases t.normalType <;> simp

/-- What a result holds after a number of its bits was written. -/
theorem holds_image [NeZero w] {t : SpanType} (hu : t.signedness = .unsigned) {z : ℕ}
    (hz : z < 2 ^ t.bitSize) : Holds ⟨t, t.image w z⟩ z where
  unsigned := hu
  length_eq := t.length_image z
  value_eq := by
    have hvalue := t.value_image_of_inRange (w := w) (z := z) hu
      ((t.inRange_unsigned hu).mpr ⟨Int.natCast_nonneg z, by exact_mod_cast hz⟩)
    exact_mod_cast hvalue
  lt := hz

/-- In any case the value of the limbs is what the span keeps. -/
theorem value_image [NeZero w] {t : SpanType} (hu : t.signedness = .unsigned) (z : ℤ) :
    value (t.image w z) = t.kept w z := by
  have hlen := value_lt (t.image w z)
  rw [t.length_image] at hlen
  unfold kept
  cases hn : t.normalType with
  | normal =>
      -- the write masks what is above the bits
      have hmod := t.value_image_mod (w := w) z
      have hlt : value (t.image w z) < 2 ^ t.bitSize := by
        rcases Nat.eq_zero_or_pos t.bitSize with hzero | hpos
        · rw [limbSize, hzero, limbSizeFor_zero] at hlen
          rw [hzero]
          exact hlen
        · obtain ⟨m, hm, hbits, -, hr, -⟩ := bitSize_split (w := w) hpos
          have hsize : t.limbSize w = m + 1 := hm
          have hlast : (t.image w z).getD m 0 =
              maskInside (lastLimbBitSize w t.bitSize) (digit w z m) := by
            rw [getD_image t (by omega), stored, if_pos ⟨by omega, hn⟩, hu]
          have htop : ((digit w (value (t.image w z)) m).toNat : ℤ) <
              2 ^ lastLimbBitSize w t.bitSize := by
            rw [digit_value, hlast, toNat_maskInside hr]
            exact_mod_cast Nat.mod_lt _ (Nat.two_pow_pos _)
          have hsucc := emod_succ (w := w) (value (t.image w z)) m
          rw [hsize] at hlen
          rw [Int.emod_eq_of_lt (by positivity) (by exact_mod_cast hlen)] at hsucc
          have hbelow := Int.emod_lt_of_pos (value (t.image w z) : ℤ) (pow_base_pos w m)
          have hpow : (2 : ℤ) ^ t.bitSize = (2 ^ w) ^ m * 2 ^ lastLimbBitSize w t.bitSize := by
            rw [← pow_mul, ← pow_add, ← hbits]
          have hle := Int.mul_le_mul_of_nonneg_left (Int.add_one_le_of_lt htop)
            (pow_base_pos w m).le
          have hcast : (value (t.image w z) : ℤ) < 2 ^ t.bitSize := by
            rw [hpow]
            linarith
          exact_mod_cast hcast
      rw [Int.emod_eq_of_lt (Int.natCast_nonneg _) (by exact_mod_cast hlt)] at hmod
      show _ = (z % 2 ^ t.bitSize).toNat
      rw [← hmod, Int.toNat_natCast]
  | unnormal =>
      have himage : t.image w z = digits w (t.limbSize w) z := by
        apply List.map_congr_left
        intro i _
        rw [stored, if_neg (fun h => by rw [hn] at h; exact absurd h.2 (by decide))]
      show _ = (z % (2 ^ w) ^ t.limbSize w).toNat
      rw [himage, ← value_digits, Int.toNat_natCast]

/-! ## Operands -/

/-- An operand has limbs of its own, or shares those of the result. -/
inductive Operand (w : ℕ) where
  | apart (x : BitSpan w)
  | shared (t : SpanType)

namespace Operand

/-- The operand, while the result is written. -/
def span : Operand w → List (BitVec w) → BitSpan w
  | apart x, _ => x
  | shared t, result => ⟨t, result⟩

/-- `extended_read(index)` -/
def read (x : Operand w) (index : ℕ) (result : List (BitVec w)) : Option (BitVec w) :=
  extendedRead (x.span result) index (x.span result).type.normalType

/-- `extended_read(index, normal)` -/
def readNormal (x : Operand w) (index : ℕ) (result : List (BitVec w)) : Option (BitVec w) :=
  extendedRead (x.span result) index .normal

/-- As long as the limbs from `i` on are those before the loop, limb `i` is a digit of `z`. -/
def Reads (x : Operand w) (before : List (BitVec w)) (z : ℕ) : Prop :=
  ∀ i l, (∀ k, i ≤ k → l.getD k 0 = before.getD k 0) → x.read i l = some (digit w z i)

/-- So is every higher limb, with `normal` access. -/
def ReadsNormal (x : Operand w) (before : List (BitVec w)) (z : ℕ) : Prop :=
  ∀ i j l, i ≤ j → (∀ k, i ≤ k → l.getD k 0 = before.getD k 0) →
    x.readNormal j l = some (digit w z j)

theorem extendedRead_congr (t : SpanType) {l l' : List (BitVec w)} {i : ℕ}
    (h : l.getD i 0 = l'.getD i 0) (normalization : Normalization) :
    extendedRead ⟨t, l⟩ i normalization = extendedRead ⟨t, l'⟩ i normalization := by
  unfold extendedRead Checked.read
  simp only [h]

variable {x : Operand w} {before : List (BitVec w)} {z : ℕ}

theorem reads (h : Sound (x.span before)) : x.Reads before (value (x.span before).limbs) := by
  intro i l hrest
  rw [← h.extendedRead_own i]
  cases x with
  | apart x => rfl
  | shared t => exact extendedRead_congr t (hrest i le_rfl) t.normalType

theorem readsNormal [NeZero w] (h : Sound (x.span before)) :
    x.ReadsNormal before (value (x.span before).limbs % 2 ^ (x.span before).type.bitSize) := by
  intro i j l hij hrest
  rw [← h.extendedRead_normal j]
  cases x with
  | apart x => rfl
  | shared t => exact extendedRead_congr t (hrest j hij) .normal

variable [NeZero w] (h : Holds (x.span before) z)
include h

theorem reads_of_holds : x.Reads before z := by
  have hreads := reads h.sound
  rwa [h.value_eq] at hreads

theorem readsNormal_of_holds : x.ReadsNormal before z := by
  have hreads := readsNormal h.sound
  rwa [h.value_eq, Nat.mod_eq_of_lt h.lt] at hreads

end Operand

end Hmpc.Core.Checked
