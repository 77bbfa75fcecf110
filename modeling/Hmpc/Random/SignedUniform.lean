/-
# Hmpc.Random.SignedUniform -- random signed integers

A random integer is written limb by limb, and the last write cuts off what is above the integer's
bits. For a signed integer the write only adds bits: those above a sign that is set. Above a sign
that is not set the random bits stay, although the integer says that it is normal. So a random
signed integer is normal exactly if its bits fill the last limb, its sign is set or the bits above
happen to be zero: `normalized_uniform_signed_iff`.
-/
import Hmpc.Random.Uniform

namespace Hmpc.Random.Uniform

open Hmpc.Core Hmpc.Ints Hmpc.Crypto Hmpc.Lib.Limbs Hmpc.Lib.Digits SpanType NumberGenerator

section

variable {w : ℕ} [NeZero w]

omit [NeZero w] in
theorem getLsbD_extendSign {r : ℕ} (hpos : 0 < r) (hr : r < w) (v mask : BitVec w) {j : ℕ}
    (hj : j < w) : (extendSign r v mask).getLsbD j =
      ((decide (r ≤ j) && mask.getLsbD j) || v.getLsbD j) := by
  unfold extendSign
  rw [if_neg hpos.ne', if_neg hr.ne, BitVec.getLsbD_or, getLsbD_maskOutside hr.le _ hj]

/-- What is written to a last limb with bits above the sign is normal if the sign is set, and
otherwise if there is nothing above. -/
theorem isNormalSigned_extendSign_iff {r : ℕ} (hpos : 0 < r) (hr : r < w) (v : BitVec w) :
    let stored := extendSign r v (maskFrom w (extractBit (r - 1) v))
    isNormalSigned r stored (maskFrom w (extractBit (r - 1) stored)) = true ↔
      v.getLsbD (r - 1) = true ∨ v.toNat < 2 ^ r := by
  intro stored
  unfold stored
  have hlt : r - 1 < w := by omega
  have hbit (x : BitVec w) := extractBit_eq hlt x
  cases hsign : v.getLsbD (r - 1) with
  | true =>
      have hone : extractBit (r - 1) v = 1 := by rw [hbit, hsign]; rfl
      have hset : extractBit (r - 1) (extendSign r v (BitVec.allOnes w)) = 1 := by
        rw [hbit, getLsbD_extendSign hpos hr _ _ (by omega), hsign, Bool.or_true]
        rfl
      rw [hone, maskFrom_one, hset, maskFrom_one]
      refine iff_of_true ?_ (Or.inl rfl)
      unfold isNormalSigned
      rw [if_neg hr.ne, beq_iff_eq]
      apply BitVec.eq_of_getLsbD_eq
      intro j hj
      rw [getLsbD_maskOutside hr.le _ hj, getLsbD_maskOutside hr.le _ hj,
        getLsbD_extendSign hpos hr _ _ hj, BitVec.getLsbD_allOnes]
      by_cases hle : r ≤ j
      · simp [hle, hj]
      · simp [hle]
  | false =>
      have hzero : extractBit (r - 1) v = 0 := by rw [hbit, hsign]; rfl
      rw [hzero, maskFrom_zero, extendSign_zero hpos, hzero, maskFrom_zero,
        isNormalSigned_zero hr.le, isNormal_iff hr.le]
      simp

/-- The last limb of what is written. -/
theorem isNormal_array_signed_iff {t : SpanType} (hs : t.signedness = .signed)
    (hnormal : t.normalType = .normal) (hpos : 0 < t.bitSize) (z : ℤ) :
    (t.array w z).IsNormal ↔ t.bitSize % w = 0 ∨
      (digit w z (t.limbSize w - 1)).getLsbD (t.bitSize % w - 1) = true ∨
      (digit w z (t.limbSize w - 1)).toNat < 2 ^ (t.bitSize % w) := by
  obtain ⟨m, hm, -⟩ := bitSize_split (w := w) hpos
  by_cases hfull : t.bitSize % w = 0
  · exact iff_of_true (fun h => absurd hfull h) (Or.inl hfull)
  have hr : lastLimbBitSize w t.bitSize = t.bitSize % w := by
    rw [lastLimbBitSize, if_neg (fun h => hfull h.1), Nat.add_zero]
  have hlt : t.bitSize % w < w := Nat.mod_lt _ (Nat.pos_of_ne_zero (NeZero.ne w))
  have hsignBit : t.signBit w = t.bitSize % w - 1 := by
    have hparts := Nat.div_add_mod t.bitSize w
    have hsplit : t.bitSize - 1 = (t.bitSize % w - 1) + w * (t.bitSize / w) := by omega
    rw [SpanType.signBit, hsplit, Nat.add_mul_mod_self_left, Nat.mod_eq_of_lt (by omega)]
  have hlast : (t.array w z).lastLimb = extendSign (t.bitSize % w)
      (digit w z (t.limbSize w - 1))
        (maskFrom w (extractBit (t.bitSize % w - 1) (digit w z (t.limbSize w - 1)))) := by
    show (t.image w z).getD (t.limbSize w - 1) 0 = _
    rw [getD_image t (by rw [limbSize, hm]; omega), stored, if_pos ⟨rfl, hnormal⟩, hs, hr,
      hsignBit]
  have hmask : (t.array w z).signMask.value =
      maskFrom w (extractBit (t.bitSize % w - 1) (t.array w z).lastLimb) := by
    unfold BitSpan.signMask BitSpan.sign
    rw [show (t.array w z).type.signedness = .signed from hs,
      show (t.array w z).type.signBit w = t.bitSize % w - 1 from hsignBit]
    rfl
  have hnormalSigned := isNormalSigned_extendSign_iff (Nat.pos_of_ne_zero hfull) hlt
    (digit w z (t.limbSize w - 1))
  dsimp only at hnormalSigned
  rw [← hlast, ← hmask, ← hr] at hnormalSigned
  rw [or_iff_right hfull, ← hr]
  exact ⟨fun h => hnormalSigned.mp (h hfull), fun h _ => hnormalSigned.mpr h⟩

end

variable {t : ChachaType} {random : NumberGenerator} {bits : ℕ}

/-- **Random signed integers** are normal exactly if their bits fill the last limb, or the last word
that was drawn has the sign set or nothing above it. -/
theorem normalized_uniform_signed_iff (h : random.Ready) (memory : ℕ → Word) (hbits : 0 < bits) :
    Bigint.Normalized (uniformBits t memory bits .signed random).1 ↔
      bits % 32 = 0 ∨
        (upcoming t random (limbSizeFor 32 bits - 1)).getLsbD (bits % 32 - 1) = true ∨
        (upcoming t random (limbSizeFor 32 bits - 1)).toNat < 2 ^ (bits % 32) := by
  obtain ⟨m, hm, -⟩ := bitSize_split (w := 32) hbits
  have hlast : digit 32 (drawnNumber t bits random : ℤ) (limbSizeFor 32 bits - 1) =
      upcoming t random (limbSizeFor 32 bits - 1) := by
    have hrange : (List.range (limbSizeFor 32 bits))[limbSizeFor 32 bits - 1]? =
        some (limbSizeFor 32 bits - 1) := List.getElem?_range (by omega)
    rw [drawnNumber, digit_value, List.getD_eq_getElem?_getD, List.getElem?_map, hrange]
    rfl
  have hnormal := isNormal_array_signed_iff (w := 32) (t := ⟨bits, .signed, .normal⟩) rfl rfl hbits
    (drawnNumber t bits random)
  rw [show (SpanType.mk bits .signed .normal).limbSize 32 - 1 = limbSizeFor 32 bits - 1 from rfl,
    hlast] at hnormal
  rw [uniformBits_eq h, ← hnormal]
  exact ⟨fun h => h.isNormal, fun h => ⟨fun _ => hbits, h⟩⟩

/-- The generator of the key, the nonce and the counter zero. -/
def zeroGenerator : NumberGenerator := construct chacha20 {
  key := List.replicate 8 0#32
  nonce := List.replicate 3 0#32
  counter := [0#32]
  key_size := rfl
  nonce_size := rfl
  counter_size := rfl }

theorem ready_zeroGenerator : zeroGenerator.Ready := Ready.ofEngine (Chacha.construct _)

theorem not_normalized_uniform_four :
    ¬ Bigint.Normalized (uniformBits chacha20 (fun _ => 0) 4 .signed zeroGenerator).1 := by
  rw [normalized_uniform_signed_iff ready_zeroGenerator _ (by decide)]
  decide +kernel

/-- Its first word is written as it is, and read as a number of four bits. -/
example : (uniformBits chacha20 (fun _ => 0) 4 .signed zeroGenerator).1.limbs = [0xade0b876] := by
  decide +kernel

end Hmpc.Random.Uniform
