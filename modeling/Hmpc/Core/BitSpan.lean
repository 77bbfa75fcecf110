/-
# Hmpc.Core.BitSpan -- arrays of limbs with a number of bits and a sign

A bit array stores an integer of a fixed number of bits in as many limbs as it takes. The bits of
its last limb above that number are no part of the integer. In a `normal` array they repeat the
sign (zero without sign); otherwise a read with `normal` access masks them, or sets them when the
sign is set. `toInt` is the integer of the bits, `storedInt` the one whose digits a `normal` read
gives; they differ only when a signed array has bits set above a clear sign bit.
-/
import Hmpc.Core.Bits
import Hmpc.Lib.Digits

namespace Hmpc.Core

open Hmpc.Lib Hmpc.Lib.Limbs Hmpc.Lib.Digits MaybeConstant

variable {w : ℕ}

inductive Signedness where
  | unsigned
  | signed
  deriving DecidableEq

/-- If one of the operands is signed, the result is signed as well. -/
def commonSignedness (left right : Signedness) : Signedness :=
  if left = .signed || right = .signed then .signed else .unsigned

inductive Normalization where
  | normal
  | unnormal
  deriving DecidableEq

def commonNormal : Normalization → Normalization → Normalization
  | .normal, .normal => .normal
  | _, _ => .unnormal

/-- `limb_size_for` -/
def limbSizeFor (w bitSize : ℕ) : ℕ := (bitSize + w - 1) / w

/-- `last_limb_bit_size` -/
def lastLimbBitSize (w bitSize : ℕ) : ℕ :=
  bitSize % w + if bitSize % w = 0 ∧ bitSize ≠ 0 then w else 0

/-- The limbs are as many as it takes. -/
theorem limbSizeFor_le_iff [NeZero w] (bitSize n : ℕ) :
    limbSizeFor w bitSize ≤ n ↔ bitSize ≤ w * n := by
  have hw : 0 < w := Nat.pos_of_ne_zero (NeZero.ne w)
  rw [limbSizeFor, Nat.div_le_iff_le_mul_add_pred hw]
  omega

/-- A number of full limbs. -/
@[simp] theorem limbSizeFor_mul [NeZero w] (n : ℕ) : limbSizeFor w (w * n) = n := by
  have hw : 0 < w := Nat.pos_of_ne_zero (NeZero.ne w)
  apply Nat.le_antisymm
  · exact (limbSizeFor_le_iff _ _).mpr le_rfl
  · have h : w * n ≤ w * limbSizeFor w (w * n) := (limbSizeFor_le_iff _ _).mp le_rfl
    exact Nat.le_of_mul_le_mul_left h hw

theorem limbSizeFor_mul_add [NeZero w] (m n : ℕ) :
    limbSizeFor w (w * m + n) = m + limbSizeFor w n := by
  have hw : 0 < w := Nat.pos_of_ne_zero (NeZero.ne w)
  unfold limbSizeFor
  rw [show w * m + n + w - 1 = w * m + (n + w - 1) by omega, Nat.mul_add_div hw]

theorem limbSizeFor_mono {a b : ℕ} (h : a ≤ b) : limbSizeFor w a ≤ limbSizeFor w b :=
  Nat.div_le_div_right (by omega)

/-- What the type of a bit span says, apart from the limb type. -/
structure SpanType where
  bitSize : ℕ
  signedness : Signedness
  normalType : Normalization

def SpanType.limbSize (t : SpanType) (w : ℕ) : ℕ := limbSizeFor w t.bitSize

/-- The position of the sign in the last limb. -/
def SpanType.signBit (t : SpanType) (w : ℕ) : ℕ := (t.bitSize - 1) % w

/-- A number of bits is some full limbs and a last one. -/
theorem bitSize_split [NeZero w] {bitSize : ℕ} (h : 0 < bitSize) :
    ∃ n, limbSizeFor w bitSize = n + 1 ∧ bitSize = w * n + lastLimbBitSize w bitSize ∧
      0 < lastLimbBitSize w bitSize ∧ lastLimbBitSize w bitSize ≤ w ∧
      (bitSize - 1) % w = lastLimbBitSize w bitSize - 1 := by
  have hw : 0 < w := Nat.pos_of_ne_zero (NeZero.ne w)
  have hdiv := Nat.div_add_mod bitSize w
  have hmod := Nat.mod_lt bitSize hw
  unfold limbSizeFor lastLimbBitSize
  -- the last limb is full exactly if the number of bits is a multiple
  by_cases hzero : bitSize % w = 0
  · obtain ⟨n, hn⟩ : ∃ n, bitSize / w = n + 1 := by
      apply Nat.exists_eq_succ_of_ne_zero
      intro hdiv₀
      rw [hdiv₀, hzero] at hdiv
      omega
    have hbits : bitSize = w * n + w := by rw [hn, hzero] at hdiv; rw [← hdiv]; ring
    refine ⟨n, ?_, ?_, ?_, ?_, ?_⟩
    · apply Nat.div_eq_of_lt_le
      · rw [Nat.mul_comm, Nat.mul_add]
        omega
      · rw [Nat.mul_comm, Nat.mul_add, Nat.mul_add]
        omega
    · rw [hzero, if_pos ⟨rfl, by omega⟩]
      omega
    · rw [hzero, if_pos ⟨rfl, by omega⟩]
      omega
    · rw [hzero, if_pos ⟨rfl, by omega⟩]
      omega
    · rw [hzero, if_pos ⟨rfl, by omega⟩, show bitSize - 1 = w * n + (w - 1) by omega,
        Nat.mul_add_mod, Nat.mod_eq_of_lt (by omega)]
      omega
  · refine ⟨bitSize / w, ?_, ?_, ?_, ?_, ?_⟩
    · apply Nat.div_eq_of_lt_le
      · rw [Nat.mul_comm, Nat.mul_add]
        omega
      · rw [Nat.mul_comm, Nat.mul_add, Nat.mul_add]
        omega
    · rw [if_neg (by omega)]
      omega
    · rw [if_neg (by omega)]
      omega
    · rw [if_neg (by omega)]
      omega
    · have hpred : bitSize - 1 = w * (bitSize / w) + (bitSize % w - 1) := by omega
      rw [if_neg (by omega), Nat.add_zero]
      generalize bitSize % w = r at *
      rw [hpred, Nat.mul_add_mod, Nat.mod_eq_of_lt (by omega)]

@[simp] theorem limbSizeFor_zero [NeZero w] : limbSizeFor w 0 = 0 := by
  have hw : 0 < w := Nat.pos_of_ne_zero (NeZero.ne w)
  rw [limbSizeFor, Nat.div_eq_of_lt (by omega)]

theorem SpanType.pos_of_lt_limbSize [NeZero w] (t : SpanType) {i : ℕ} (h : i < t.limbSize w) :
    0 < t.bitSize := by
  apply Nat.pos_of_ne_zero
  intro hzero
  rw [SpanType.limbSize, hzero, limbSizeFor_zero] at h
  exact Nat.not_lt_zero i h

/-! ## Spans -/

/-- A readable span, as the functions on spans use it: `read_only_bit_span`. -/
structure Span (w : ℕ) where
  bitSize : ℕ
  signedness : Signedness
  limbSize : ℕ
  sign : MaybeConstant Bit
  /-- `extended_read(index)` with the span's own `normal_type` -/
  read : ℕ → MaybeConstant (BitVec w)
  /-- `extended_read(index, normal)` -/
  readNormal : ℕ → MaybeConstant (BitVec w)

/-- The limbs a span reads are the digits of `z`. -/
def Span.Denotes (x : Span w) (z : ℤ) : Prop := ∀ i, (x.read i).value = digit w z i

def Span.DenotesNormal (x : Span w) (z : ℤ) : Prop := ∀ i, (x.readNormal i).value = digit w z i

/-- `read_nullspan` -/
def nullspan (w : ℕ) : Span w := ⟨0, .unsigned, 0, constant 0, fun _ => zero w, fun _ => zero w⟩

theorem nullspan_denotes : (nullspan w).Denotes 0 := fun i => (digit_zero i).symm

/-- `masked_bit_span` -/
def Span.mask (x : Span w) (choice : MaybeConstant Bit) : Span w where
  bitSize := x.bitSize
  signedness := x.signedness
  limbSize := x.limbSize
  sign := select (constant 0) x.sign choice
  read i := select (zero w) (x.read i) choice
  readNormal i := select (zero w) (x.readNormal i) choice

theorem Span.Denotes.mask [NeZero w] {x : Span w} {z : ℤ} (h : x.Denotes z)
    (choice : MaybeConstant Bit) :
    (x.mask choice).Denotes (if choice.value = 1 then z else 0) := by
  intro i
  show (select (zero w) (x.read i) choice).value = _
  rw [value_select]
  split_ifs
  · exact h i
  · exact (digit_zero i).symm

/-- A span whose limbs are the digits of `z`, and above its limbs there is only the sign of `z`. -/
structure Span.Represents (x : Span w) (z : ℤ) : Prop where
  digits : x.DenotesNormal z
  above : ∀ i, x.limbSize ≤ i → z / (2 ^ w) ^ i = -(x.sign.value.toNat : ℤ)
  unsigned : x.signedness = .unsigned → x.sign.value = 0

/-! ## Bit arrays -/

/-- The sign of a span is that of the integer. -/
theorem Span.Represents.sign_iff {x : Span w} {z : ℤ} (h : x.Represents z) :
    x.sign.value = 1 ↔ z < 0 := by
  have habove := h.above x.limbSize le_rfl
  have hpow := pow_base_pos w x.limbSize
  rw [← Int.not_le, ← Int.ediv_nonneg_iff_of_pos hpow, habove]
  rcases bit_eq x.sign.value with hsign | hsign <;> rw [hsign] <;> decide

theorem nullspan_represents : (nullspan w).Represents 0 where
  digits i := (digit_zero i).symm
  above i _ := by
    rw [Int.zero_ediv]
    rfl
  unsigned _ := rfl

/-- `bit_span`: its type, and the limbs behind its pointer. -/
structure BitSpan (w : ℕ) where
  type : SpanType
  limbs : List (BitVec w)

namespace BitSpan

variable (x : BitSpan w)

/-- The last limb. -/
def lastLimb : BitVec w := x.limbs.getD (x.type.limbSize w - 1) 0

def sign : MaybeConstant Bit :=
  match x.type.signedness with
  | .unsigned => constant 0
  | .signed => runtime (extractBit (x.type.signBit w) x.lastLimb)

def signMask : MaybeConstant (BitVec w) :=
  match x.type.signedness with
  | .unsigned => zero w
  | .signed => runtime (maskFrom w x.sign.value)

/-- `read(index, normalization)` -/
def read (index : ℕ) (normalization : Normalization) : BitVec w :=
  let limb := x.limbs.getD index 0
  if x.type.bitSize % w ≠ 0 ∧ index = x.type.limbSize w - 1 then
    if x.type.normalType = .normal then limb
    else if normalization = .normal then
      match x.type.signedness with
      | .signed => extendSign (lastLimbBitSize w x.type.bitSize) limb x.signMask.value
      | .unsigned => maskInside (lastLimbBitSize w x.type.bitSize) limb
    else limb
  else limb

/-- `extended_read(index, normalization)` -/
def extendedRead (index : ℕ) (normalization : Normalization) : MaybeConstant (BitVec w) :=
  if index < x.type.limbSize w then runtime (x.read index normalization) else x.signMask

def span : Span w where
  bitSize := x.type.bitSize
  signedness := x.type.signedness
  limbSize := x.type.limbSize w
  sign := x.sign
  read i := x.extendedRead i x.type.normalType
  readNormal i := x.extendedRead i .normal

end BitSpan

/-- `bit_array` -/
structure BitArray (w : ℕ) extends BitSpan w where
  limb_size : limbs.length = type.limbSize w

theorem BitArray.eq_of_limbs {x y : BitArray w} (htype : x.type = y.type)
    (hlimbs : x.limbs = y.limbs) : x = y := by
  obtain ⟨⟨type, limbs⟩, hx⟩ := x
  obtain ⟨⟨type', limbs'⟩, hy⟩ := y
  obtain rfl : type = type' := htype
  obtain rfl : limbs = limbs' := hlimbs
  rfl

namespace BitArray

open BitSpan

variable (x : BitArray w)

/-- What `read` asserts of a `normal` array. -/
def IsNormal : Prop :=
  x.type.bitSize % w ≠ 0 →
    isNormalSigned (lastLimbBitSize w x.type.bitSize) x.lastLimb x.signMask.value = true

/-- A signed array has a sign bit, and a `normal` one is normal. -/
structure Readable : Prop where
  signed_pos : x.type.signedness = .signed → 0 < x.type.bitSize
  isNormal : x.type.normalType = .normal → x.IsNormal

end BitArray

/-- The integer of some bits: modulo a power of two, and negative when the sign is set. -/
def wrap (bitSize : ℕ) (signedness : Signedness) (z : ℤ) : ℤ :=
  match signedness with
  | .unsigned => z % 2 ^ bitSize
  | .signed => Int.bmod z (2 ^ bitSize)

namespace BitArray

open BitSpan

variable (x : BitArray w)

/-- The integer of the bits of an array. -/
def toInt : ℤ := wrap x.type.bitSize x.type.signedness (value x.limbs)

/-- The integer of the limbs that a `normal` read gives. -/
def storedInt : ℤ :=
  match x.type.signedness with
  | .unsigned => value x.limbs % 2 ^ x.type.bitSize
  | .signed =>
      if x.sign.value = 1 then value x.limbs % 2 ^ x.type.bitSize - 2 ^ x.type.bitSize
      else value x.limbs

/-! ## What a read gives -/

theorem digit_limbs (i : ℕ) : digit w (value x.limbs) i = x.limbs.getD i 0 := digit_value _ _

theorem value_lt : (value x.limbs : ℤ) < (2 ^ w) ^ x.type.limbSize w := by
  have h := Limbs.value_lt x.limbs
  rw [x.limb_size] at h
  exact_mod_cast h

/-- The sign is the highest bit. -/
theorem sign_eq_one_iff [NeZero w] (hs : x.type.signedness = .signed) (hpos : 0 < x.type.bitSize) :
    x.sign.value = 1 ↔ (2 : ℤ) ^ (x.type.bitSize - 1) ≤ value x.limbs % 2 ^ x.type.bitSize := by
  obtain ⟨m, hm, hbits, hr₀, hr, hsign⟩ := bitSize_split (w := w) hpos
  generalize lastLimbBitSize w x.type.bitSize = r at *
  have hsize : x.type.limbSize w - 1 = m := by rw [SpanType.limbSize, hm]; rfl
  have hbit : x.sign.value = BitVec.ofBool ((digit w (value x.limbs) m).getLsbD (r - 1)) := by
    rw [sign, hs, digit_limbs, ← hsize]
    show extractBit ((x.type.bitSize - 1) % w) x.lastLimb = _
    rw [hsign, extractBit_eq (by omega), lastLimb]
  have hlow := Int.emod_nonneg (value x.limbs : ℤ) (pow_base_pos w m).ne'
  have hlt := Int.emod_lt_of_pos (value x.limbs : ℤ) (pow_base_pos w m)
  -- split off the last limb: the lower ones are less than one unit of it
  rw [hbit, hbits, emod_bits _ _ hr]
  generalize (value x.limbs : ℤ) % (2 ^ w) ^ m = low at *
  generalize digit w (value x.limbs) m = top
  have hpred : (2 : ℤ) ^ (w * m + r - 1) = (2 ^ w) ^ m * 2 ^ (r - 1) := by
    rw [← pow_mul, ← pow_add]
    congr 1
    omega
  -- the bit of the last limb, as a bound on what it holds
  have hhigh : top.getLsbD (r - 1) = true ↔ (2 : ℤ) ^ (r - 1) ≤ top.toNat % 2 ^ r := by
    have hpow : 2 ^ r = 2 ^ (r - 1) * 2 := by rw [← pow_succ]; congr 1; omega
    have hmod : top.toNat % 2 ^ r / 2 ^ (r - 1) = top.toNat / 2 ^ (r - 1) % 2 := by
      rw [hpow, Nat.mod_mul_right_div_self]
    rw [BitVec.getLsbD, Nat.testBit_eq_decide_div_mod_eq, decide_eq_true_iff, ← hmod]
    have hcast : (2 : ℤ) ^ (r - 1) ≤ top.toNat % 2 ^ r ↔ 2 ^ (r - 1) ≤ top.toNat % 2 ^ r := by
      exact_mod_cast Iff.rfl
    rw [hcast]
    have hltr := Nat.mod_lt top.toNat (Nat.two_pow_pos r)
    rw [hpow] at hltr ⊢
    constructor
    · intro h
      by_contra hcon
      rw [Nat.div_eq_of_lt (by omega)] at h
      omega
    · intro h
      exact Nat.div_eq_of_lt_le (by omega) (by omega)
  have hofBool : BitVec.ofBool (top.getLsbD (r - 1)) = 1 ↔ top.getLsbD (r - 1) = true := by
    cases top.getLsbD (r - 1) <;> decide
  rw [hofBool, hhigh, hpred]
  have hbase := pow_base_pos w m
  constructor
  · intro h
    have := mul_le_mul_of_nonneg_left h hbase.le
    linarith
  · intro h
    by_contra hcon
    have hle : (top.toNat % 2 ^ r : ℤ) + 1 ≤ 2 ^ (r - 1) := by omega
    have := mul_le_mul_of_nonneg_left hle hbase.le
    linarith

/-- The last limb with the bits above the sign set as the sign says. -/
def normalLimb : BitVec w :=
  match x.type.signedness with
  | .signed => extendSign (lastLimbBitSize w x.type.bitSize) x.lastLimb x.signMask.value
  | .unsigned => maskInside (lastLimbBitSize w x.type.bitSize) x.lastLimb

theorem isNormal_lastLimb [NeZero w] (hpos : 0 < x.type.bitSize) (h : x.IsNormal) :
    x.normalLimb = x.lastLimb := by
  obtain ⟨m, hm, hbits, hr₀, hr, -⟩ := bitSize_split (w := w) hpos
  unfold IsNormal at h
  unfold normalLimb
  by_cases hfull : x.type.bitSize % w = 0
  · have hrw : lastLimbBitSize w x.type.bitSize = w := by
      rw [lastLimbBitSize, hfull, if_pos ⟨rfl, hpos.ne'⟩, Nat.zero_add]
    rw [hrw]
    split
    · rw [extendSign, if_neg (NeZero.ne w), if_pos rfl]
    · rw [maskInside, if_neg (NeZero.ne w), if_pos rfl]
  · have hlt : lastLimbBitSize w x.type.bitSize ≠ w := by
      rw [lastLimbBitSize, if_neg (by omega), Nat.add_zero]
      exact (Nat.mod_lt _ (Nat.pos_of_ne_zero (NeZero.ne w))).ne
    have hnormal := h hfull
    rw [isNormalSigned, if_neg hlt, beq_iff_eq] at hnormal
    split
    · -- the bits above the sign are there already
      rw [extendSign, if_neg hr₀.ne', if_neg hlt, ← hnormal]
      apply BitVec.eq_of_getLsbD_eq
      intro j hj
      rw [BitVec.getLsbD_or, getLsbD_maskOutside hr _ hj]
      cases x.lastLimb.getLsbD j <;> simp
    · rename_i hs
      have hmask : x.signMask.value = 0 := by rw [signMask, hs]; rfl
      apply BitVec.eq_of_getLsbD_eq
      intro j hj
      have hbit := congrArg (fun v : BitVec w => v.getLsbD j) hnormal
      simp only [getLsbD_maskOutside hr _ hj, hmask] at hbit
      rw [getLsbD_maskInside hr _ hj]
      by_cases hjr : j < lastLimbBitSize w x.type.bitSize
      · simp [hjr]
      · simp [Nat.le_of_not_lt hjr] at hbit
        simp [hbit]

/-- What a read gives, when the array is normal wherever the read relies on it. -/
theorem read_eq [NeZero w] (hpos : 0 < x.type.bitSize) {normalization : Normalization}
    (h : x.type.normalType = .normal ∨ normalization = .unnormal → x.IsNormal) {i : ℕ} :
    x.read i normalization =
      if i = x.type.limbSize w - 1 then x.normalLimb else x.limbs.getD i 0 := by
  unfold BitSpan.read
  by_cases hlast : i = x.type.limbSize w - 1
  · rw [if_pos hlast]
    by_cases hfull : x.type.bitSize % w = 0
    · rw [if_neg (by omega), isNormal_lastLimb x hpos (fun hne => absurd hfull hne), lastLimb,
        ← hlast]
    · rw [if_pos ⟨hfull, hlast⟩]
      split_ifs with hnormal haccess
      · rw [isNormal_lastLimb x hpos (h (.inl hnormal)), lastLimb, ← hlast]
      · rw [hlast]
        rfl
      · have hun : normalization = .unnormal := by
          cases normalization
          · exact absurd rfl haccess
          · rfl
        rw [isNormal_lastLimb x hpos (h (.inr hun)), lastLimb, ← hlast]
  · rw [if_neg hlast, if_neg (fun hcon => hlast hcon.2)]

/-- The stored integer, from the limbs below the last one and what the last limb and the sign say of
those above. -/
theorem storedInt_split [NeZero w] (hpos : 0 < x.type.bitSize) {m : ℕ}
    (hsize : x.type.limbSize w = m + 1) :
    ∃ t : ℤ, x.storedInt = value x.limbs % (2 ^ w) ^ m + (2 ^ w) ^ m * t ∧
      (x.normalLimb.toNat : ℤ) = t % 2 ^ w ∧
      (0 ≤ t ∧ t < 2 ^ w ∧ x.signMask.value = 0 ∨
        -2 ^ w ≤ t ∧ t < 0 ∧ x.signMask.value = BitVec.allOnes w) := by
  obtain ⟨m', hm, hbits, hr₀, hr, -⟩ := bitSize_split (w := w) hpos
  obtain rfl : m' = m := Nat.succ_injective (hm.symm.trans hsize)
  have htop : digit w (value x.limbs) m' = x.lastLimb := by
    rw [digit_limbs, lastLimb, hsize]
    rfl
  have hlow := emod_bits (w := w) (value x.limbs) m' hr
  rw [← hbits, htop] at hlow
  have hmod₀ := Int.emod_nonneg (x.lastLimb.toNat : ℤ)
    (show (2 : ℤ) ^ lastLimbBitSize w x.type.bitSize ≠ 0 by positivity)
  have hmodlt := Int.emod_lt_of_pos (x.lastLimb.toNat : ℤ)
    (show (0 : ℤ) < 2 ^ lastLimbBitSize w x.type.bitSize by positivity)
  have hle : (2 : ℤ) ^ lastLimbBitSize w x.type.bitSize ≤ 2 ^ w :=
    pow_le_pow_right₀ (by norm_num) hr
  cases hsign : x.type.signedness with
  | unsigned =>
      refine ⟨x.lastLimb.toNat % 2 ^ lastLimbBitSize w x.type.bitSize, ?_, ?_,
        .inl ⟨hmod₀, hmodlt.trans_le hle, ?_⟩⟩
      · rw [storedInt, hsign]
        exact hlow
      · rw [normalLimb, hsign]
        dsimp only
        rw [toNat_maskInside hr, Int.emod_eq_of_lt hmod₀ (hmodlt.trans_le hle)]
        exact Int.natCast_mod _ _
      · rw [signMask, hsign]
        rfl
  | signed =>
      by_cases hset : x.sign.value = 1
      · have hmask : x.signMask.value = BitVec.allOnes w := by
          rw [signMask, hsign]
          show maskFrom w x.sign.value = _
          rw [hset, maskFrom_one]
        -- the bits above the width count as one times minus its power of two
        refine ⟨x.lastLimb.toNat % 2 ^ lastLimbBitSize w x.type.bitSize -
          2 ^ lastLimbBitSize w x.type.bitSize, ?_, ?_, .inr ⟨by linarith, by linarith, hmask⟩⟩
        · have hpow : (2 : ℤ) ^ x.type.bitSize =
              (2 ^ w) ^ m' * 2 ^ lastLimbBitSize w x.type.bitSize := by
            rw [← pow_mul, ← pow_add, ← hbits]
          have hstored : x.storedInt =
              value x.limbs % 2 ^ x.type.bitSize - 2 ^ x.type.bitSize := by
            rw [storedInt, hsign]
            exact if_pos hset
          rw [hstored, hlow, hpow]
          ring
        · rw [normalLimb, hsign]
          dsimp only
          rw [hmask, toNat_extendSign_allOnes hr₀ hr, ← Int.add_mul_emod_self_left _ (2 ^ w) 1,
            Int.emod_eq_of_lt (by linarith) (by linarith)]
          push_cast [Nat.cast_sub (Nat.pow_le_pow_right two_pos hr)]
          ring
      · have hclear : x.sign.value = 0 := (bit_eq _).resolve_right hset
        have hmask : x.signMask.value = 0 := by
          rw [signMask, hsign]
          show maskFrom w x.sign.value = _
          rw [hclear, maskFrom_zero]
        have hlt : (value x.limbs : ℤ) < 2 ^ w * (2 ^ w) ^ m' := by
          rw [← pow_succ', ← hsize]
          exact x.value_lt
        refine ⟨value x.limbs / (2 ^ w) ^ m', ?_, ?_, .inl ⟨?_, ?_, hmask⟩⟩
        · rw [Int.emod_add_mul_ediv, storedInt, hsign]
          exact if_neg hset
        · rw [normalLimb, hsign]
          dsimp only
          rw [hmask, extendSign_zero hr₀, ← htop, toNat_digit]
        · exact Int.ediv_nonneg (Int.natCast_nonneg _) (pow_base_pos w m').le
        · exact Int.ediv_lt_of_lt_mul (pow_base_pos w m') hlt

/-- A digit of the stored integer. -/
theorem digit_storedInt [NeZero w] (hs : x.type.signedness = .signed → 0 < x.type.bitSize)
    (i : ℕ) : digit w x.storedInt i =
      if i < x.type.limbSize w then
        if i = x.type.limbSize w - 1 then x.normalLimb else x.limbs.getD i 0
      else x.signMask.value := by
  rcases Nat.eq_zero_or_pos x.type.bitSize with hzero | hpos
  · -- no limbs, and no sign
    have hun : x.type.signedness = .unsigned := by
      cases h : x.type.signedness
      · rfl
      · have := hs h
        omega
    have hstored : x.storedInt = 0 := by
      rw [storedInt, hun, hzero, pow_zero]
      exact Int.emod_one _
    have hmask : x.signMask.value = 0 := by rw [signMask, hun]; rfl
    rw [SpanType.limbSize, hzero, limbSizeFor_zero, if_neg (Nat.not_lt_zero i), hstored, hmask]
    exact digit_zero i
  · obtain ⟨m, hm, -⟩ := bitSize_split (w := w) hpos
    have hsize : x.type.limbSize w = m + 1 := hm
    obtain ⟨t, hstored, hnormal, hmask⟩ := x.storedInt_split hpos hsize
    rw [hsize, Nat.add_sub_cancel, hstored]
    rcases Nat.lt_trichotomy i m with hi | rfl | hi
    · rw [if_pos (by omega), if_neg hi.ne, digit_emod_add_mul_of_lt _ _ hi, digit_limbs]
    · rw [if_pos (Nat.lt_succ_self _), if_pos rfl]
      symm
      apply eq_digit
      rw [hnormal, emod_add_mul_ediv]
    · obtain ⟨k, rfl⟩ : ∃ k, i = m + (k + 1) := ⟨i - (m + 1), by omega⟩
      rw [if_neg (by omega), digit_emod_add_mul]
      -- above the last limb there are copies of the sign
      rcases hmask with ⟨h₀, hlt, hmask⟩ | ⟨hge, h₀, hmask⟩
      · rw [hmask]
        exact digit_of_lt (n := 1) h₀ (by rwa [pow_one]) (by omega)
      · rw [hmask]
        exact digit_of_neg (n := 1) h₀ (by rwa [pow_one]) (by omega)

/-- A limb read with `normal` access is a digit of the stored integer. -/
theorem denotesNormal_span [NeZero w] (h : x.Readable) : x.span.DenotesNormal x.storedInt := by
  intro i
  show (x.extendedRead i .normal).value = _
  rw [digit_storedInt x h.signed_pos]
  unfold extendedRead
  by_cases hi : i < x.type.limbSize w
  · rw [if_pos hi, if_pos hi, value_runtime, read_eq x (x.type.pos_of_lt_limbSize hi)]
    rintro (hnormal | hcon)
    · exact h.isNormal hnormal
    · cases hcon
  · rw [if_neg hi, if_neg hi]

/-! ## The integers of an array -/

theorem sign_of_unsigned (hs : x.type.signedness = .unsigned) : x.sign.value = 0 := by
  rw [sign, hs]
  rfl

/-- The integer of the bits, with the sign read from the array. -/
theorem toInt_eq [NeZero w] (hs : x.type.signedness = .signed → 0 < x.type.bitSize) :
    x.toInt = value x.limbs % 2 ^ x.type.bitSize -
      if x.sign.value = 1 then 2 ^ x.type.bitSize else 0 := by
  unfold toInt wrap
  cases hsign : x.type.signedness with
  | unsigned =>
      rw [if_neg (by rw [sign_of_unsigned x hsign]; decide), Int.sub_zero]
  | signed =>
      have hpos := hs hsign
      have hhalf : (2 : ℤ) ^ x.type.bitSize = 2 * 2 ^ (x.type.bitSize - 1) := by
        rw [← pow_succ']
        congr 1
        omega
      have hmid : ((2 : ℤ) ^ x.type.bitSize + 1) / 2 = 2 ^ (x.type.bitSize - 1) := by omega
      dsimp only
      rw [Int.bmod_def, Nat.cast_pow, Nat.cast_ofNat, hmid]
      by_cases hset : x.sign.value = 1
      · have hle := (sign_eq_one_iff x hsign hpos).mp hset
        rw [if_pos hset, if_neg (by omega)]
      · have hlt := mt (sign_eq_one_iff x hsign hpos).mpr hset
        rw [if_neg hset, if_pos (by omega), Int.sub_zero]

/-- The stored integer, with the sign read from the array. -/
theorem storedInt_eq : x.storedInt =
    if x.type.signedness = .signed ∧ x.sign.value = 0 then (value x.limbs : ℤ)
    else value x.limbs % 2 ^ x.type.bitSize -
      if x.sign.value = 1 then 2 ^ x.type.bitSize else 0 := by
  unfold storedInt
  cases hsign : x.type.signedness with
  | unsigned =>
      have hclear := sign_of_unsigned x hsign
      simp [hclear]
  | signed =>
      rcases bit_eq x.sign.value with hclear | hset
      · simp [hclear]
      · simp [hset]

/-- Bits above a clear sign bit are the only difference between the two integers. -/
theorem storedInt_eq_toInt_iff [NeZero w]
    (hs : x.type.signedness = .signed → 0 < x.type.bitSize) :
    x.storedInt = x.toInt ↔
      (x.type.signedness = .signed ∧ x.sign.value = 0 → value x.limbs < 2 ^ x.type.bitSize) := by
  rw [storedInt_eq, toInt_eq x hs]
  split_ifs with hclear hset
  · exact absurd (hclear.2.symm.trans hset) (by decide)
  · rw [Int.sub_zero]
    have hiff : (value x.limbs : ℤ) = value x.limbs % 2 ^ x.type.bitSize ↔
        value x.limbs < 2 ^ x.type.bitSize := by
      have hcast : ((value x.limbs : ℤ) < 2 ^ x.type.bitSize) ↔
          value x.limbs < 2 ^ x.type.bitSize := by exact_mod_cast Iff.rfl
      rw [← hcast]
      constructor
      · intro heq
        rw [heq]
        exact Int.emod_lt_of_pos _ (by positivity)
      · intro hlt
        exact (Int.emod_eq_of_lt (by positivity) hlt).symm
    rw [hiff]
    exact ⟨fun h _ => h, fun h => h hclear⟩
  · exact iff_of_true rfl fun h => absurd h hclear
  · exact iff_of_true rfl fun h => absurd h hclear

/-- A normal array stores the integer of its bits. -/
theorem storedInt_eq_toInt [NeZero w] (hs : x.type.signedness = .signed → 0 < x.type.bitSize)
    (h : x.IsNormal) : x.storedInt = x.toInt := by
  rw [storedInt_eq_toInt_iff x hs]
  rintro ⟨hsigned, hclear⟩
  have hpos := hs hsigned
  obtain ⟨m, hm, hbits, hr₀, hr, -⟩ := bitSize_split (w := w) hpos
  have hsize : x.type.limbSize w = m + 1 := hm
  by_cases hfull : x.type.bitSize % w = 0
  · -- full limbs cannot hold more
    have hlast : lastLimbBitSize w x.type.bitSize = w := by
      rw [lastLimbBitSize, hfull, if_pos ⟨rfl, hpos.ne'⟩, Nat.zero_add]
    have hlt := x.value_lt
    rw [hsize, ← pow_mul] at hlt
    rw [hlast] at hbits
    rw [hbits]
    exact_mod_cast hlt
  · -- the bits of the last limb above the sign are clear
    have hmask : x.signMask.value = 0 := by
      rw [signMask, hsigned]
      show maskFrom w x.sign.value = _
      rw [hclear, maskFrom_zero]
    have hnormal := h hfull
    rw [hmask, isNormalSigned_zero hr, isNormal_iff hr] at hnormal
    have hu := emod_bits (w := w) (value x.limbs) m hr
    have hv := emod_succ (w := w) (value x.limbs) m
    have htopdigit : digit w (value x.limbs) m = x.lastLimb := by
      rw [digit_limbs, lastLimb, hsize]
      rfl
    have hlt := x.value_lt
    rw [hsize] at hlt
    rw [htopdigit, Int.emod_eq_of_lt (by positivity) hlt] at hv
    have hmod : (x.lastLimb.toNat : ℤ) % 2 ^ lastLimbBitSize w x.type.bitSize =
        x.lastLimb.toNat := Int.emod_eq_of_lt (by positivity) (by exact_mod_cast hnormal)
    rw [htopdigit, hmod, ← hv, ← hbits] at hu
    have hfit := Int.emod_lt_of_pos (value x.limbs : ℤ)
      (show (0 : ℤ) < 2 ^ x.type.bitSize by positivity)
    rw [hu] at hfit
    exact_mod_cast hfit

/-- Above the limbs of an array the stored integer continues with its sign. -/
theorem represents_span [NeZero w] (h : x.Readable) : x.span.Represents x.storedInt where
  digits := denotesNormal_span x h
  unsigned := sign_of_unsigned x
  above := by
    intro i hi
    have hi : x.type.limbSize w ≤ i := hi
    have hV := x.value_lt
    have hV₀ : (0 : ℤ) ≤ value x.limbs := by positivity
    have hu₀ := Int.emod_nonneg (value x.limbs : ℤ)
      (show (2 : ℤ) ^ x.type.bitSize ≠ 0 by positivity)
    have hult := Int.emod_lt_of_pos (value x.limbs : ℤ)
      (show (0 : ℤ) < 2 ^ x.type.bitSize by positivity)
    have hle : (value x.limbs : ℤ) % 2 ^ x.type.bitSize ≤ value x.limbs := by
      exact_mod_cast Nat.mod_le _ _
    show x.storedInt / (2 ^ w) ^ i = -(x.sign.value.toNat : ℤ)
    rw [storedInt_eq]
    -- without the sign the integer is below the limbs; with it, less than a unit below zero
    rcases bit_eq x.sign.value with hclear | hset
    · rw [hclear]
      split_ifs with hc hcon
      · exact ediv_of_lt hV₀ hV hi
      · exact absurd hcon (by decide)
      · exact ediv_of_lt (by linarith) (by linarith) hi
    · have hne : ¬(x.type.signedness = .signed ∧ x.sign.value = 0) := by
        rintro ⟨-, hclear⟩
        exact absurd (hclear.symm.trans hset) (by decide)
      have hpos : 0 < x.type.bitSize := h.signed_pos (by
        cases hs : x.type.signedness
        · exact absurd ((sign_of_unsigned x hs).symm.trans hset) (by decide)
        · rfl)
      have hbits : (2 : ℤ) ^ x.type.bitSize ≤ (2 ^ w) ^ i := by
        rw [← pow_mul]
        apply pow_le_pow_right₀ (by norm_num)
        exact (limbSizeFor_le_iff _ _).mp hi
      rw [if_neg hne, if_pos hset, hset, ediv_of_neg (by linarith) (by linarith)]
      rfl

/-- A normal array is read as the integer of its bits. -/
theorem IsNormal.denotes [NeZero w] {x : BitArray w}
    (hs : x.type.signedness = .signed → 0 < x.type.bitSize) (h : x.IsNormal) :
    x.span.Denotes x.toInt := by
  intro i
  show (x.extendedRead i x.type.normalType).value = _
  rw [← storedInt_eq_toInt x hs h, digit_storedInt x hs]
  unfold extendedRead
  by_cases hi : i < x.type.limbSize w
  · rw [if_pos hi, if_pos hi, value_runtime,
      read_eq x (x.type.pos_of_lt_limbSize hi) (fun _ => h)]
  · rw [if_neg hi, if_neg hi]

end BitArray

end Hmpc.Core
