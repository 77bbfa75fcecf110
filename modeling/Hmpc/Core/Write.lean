/-
# Hmpc.Core.Write -- the limbs a loop writes

A function on spans writes the limbs of its result one after the other. The last one is brought
into normal form by the write itself: without sign its high bits are masked, with sign they are set
when the sign bit is (`extend_sign` does not clear them). `image` is what stands in the result when
every limb written was the digit of one integer, and `Filled` what stands there after the first
limbs; so a loop only has to show that it writes digits. Operands may be read from the result
itself: a `Source` is a span that depends on what the result holds, and it is enough that a limb
is not overwritten before it is read.
-/
import Hmpc.Core.BitSpan
import Hmpc.Lib.Loops

namespace Hmpc.Core

open Hmpc.Lib.Limbs Hmpc.Lib.Digits MaybeConstant

variable {w : ℕ}

/-- What `write(index, value, normalization)` stores. -/
def SpanType.stored (t : SpanType) (index : ℕ) (value : BitVec w) (normalization : Normalization) :
    BitVec w :=
  if index = t.limbSize w - 1 ∧ normalization = .normal then
    match t.signedness with
    | .signed => extendSign (lastLimbBitSize w t.bitSize) value
        (maskFrom w (extractBit (t.signBit w) value))
    | .unsigned => maskInside (lastLimbBitSize w t.bitSize) value
  else value

/-- `write(index, value, normalization)` -/
def SpanType.write (t : SpanType) (index : ℕ) (value : BitVec w) (normalization : Normalization)
    (limbs : List (BitVec w)) : List (BitVec w) :=
  limbs.set index (t.stored index value normalization)

@[simp] theorem SpanType.length_write (t : SpanType) (index : ℕ) (value : BitVec w)
    (normalization : Normalization) (limbs : List (BitVec w)) :
    (t.write index value normalization limbs).length = limbs.length := List.length_set

/-- An operand, which may read the limbs of the result. -/
abbrev Source (w : ℕ) := List (BitVec w) → Span w

/-- An operand that is not part of the result. -/
def Span.source (x : Span w) : Source w := fun _ => x

@[simp] theorem Span.source_apply (x : Span w) (l : List (BitVec w)) : x.source l = x := rfl

/-- As long as the limbs from `i` on are those before the loop, limb `i` is a digit of `z`. -/
def Source.Reads (x : Source w) (before : List (BitVec w)) (n : ℕ) (z : ℤ) : Prop :=
  ∀ i < n, ∀ l : List (BitVec w), l.length = before.length →
    (∀ j, i ≤ j → l.getD j 0 = before.getD j 0) → ((x l).read i).value = digit w z i

theorem Span.Denotes.reads {x : Span w} {z : ℤ} (h : x.Denotes z) (before : List (BitVec w))
    (n : ℕ) : x.source.Reads before n z := fun i _ _ _ _ => h i

/-- Without a `normal` access a limb is read as it is. -/
theorem BitSpan.read_own (x : BitSpan w) (i : ℕ) :
    x.read i x.type.normalType = x.limbs.getD i 0 := by
  unfold BitSpan.read
  cases x.type.normalType <;> simp

theorem BitSpan.read_span (x : BitSpan w) {i : ℕ} (hi : i < x.type.limbSize w) :
    (x.span.read i).value = x.limbs.getD i 0 := by
  show (x.extendedRead i x.type.normalType).value = _
  rw [BitSpan.extendedRead, if_pos hi, value_runtime, x.read_own]

/-- The limbs of an array, read as they are. -/
theorem BitSpan.reads_limbs (x : BitSpan w) (before : List (BitVec w)) :
    x.span.source.Reads before (x.type.limbSize w) (value x.limbs) := by
  intro i hi l _ _
  rw [Span.source_apply, x.read_span hi, digit_value]

/-- The limbs of the result. -/
def SpanType.result (t : SpanType) : Source w := fun l => (BitSpan.mk t l).span

theorem SpanType.result_reads (t : SpanType) (before : List (BitVec w)) :
    t.result.Reads before (t.limbSize w) (value before) := by
  intro i hi l _ hrest
  show ((BitSpan.mk t l).span.read i).value = _
  rw [(BitSpan.mk t l).read_span hi, digit_value]
  exact hrest i le_rfl

theorem getD_set (l : List (BitVec w)) (i j : ℕ) (v d : BitVec w) :
    (l.set i v).getD j d = if i = j ∧ j < l.length then v else l.getD j d := by
  rw [List.getD_eq_getElem?_getD, List.getD_eq_getElem?_getD, List.getElem?_set]
  by_cases hij : i = j
  · subst hij
    by_cases hi : i < l.length
    · simp [hi]
    · simp [hi]
  · simp [hij]

namespace SpanType

variable (t : SpanType)

/-- The limbs of a result that holds `z`. -/
def image (w : ℕ) (z : ℤ) : List (BitVec w) :=
  (List.range (t.limbSize w)).map fun i => t.stored i (digit w z i) t.normalType

@[simp] theorem length_image (z : ℤ) : (t.image w z).length = t.limbSize w := by simp [image]

/-- The first `i` limbs of the result are written, the others are as before. -/
structure Filled (before : List (BitVec w)) (z : ℤ) (i : ℕ) (l : List (BitVec w)) : Prop where
  length_eq : l.length = before.length
  written : ∀ j < i, l.getD j 0 = t.stored j (digit w z j) t.normalType
  rest : ∀ j, i ≤ j → l.getD j 0 = before.getD j 0

theorem Filled.start (before : List (BitVec w)) (z : ℤ) : t.Filled before z 0 before :=
  ⟨rfl, fun _ hj => absurd hj (Nat.not_lt_zero _), fun _ _ => rfl⟩

variable {t}

theorem Filled.stepStored {before l : List (BitVec w)} {z : ℤ} {i : ℕ} {v : BitVec w}
    {n : Normalization} (h : t.Filled before z i l) (hi : i < before.length)
    (hv : t.stored i v n = t.stored i (digit w z i) t.normalType) :
    t.Filled before z (i + 1) (t.write i v n l) where
  length_eq := by rw [length_write, h.length_eq]
  written j hj := by
    rw [write, getD_set]
    by_cases hij : i = j
    · subst hij
      rw [if_pos ⟨rfl, h.length_eq ▸ hi⟩, hv]
    · rw [if_neg (fun hcon => hij hcon.1)]
      exact h.written j (by omega)
  rest j hj := by
    rw [write, getD_set, if_neg (by omega)]
    exact h.rest j (by omega)

theorem Filled.step {before l : List (BitVec w)} {z : ℤ} {i : ℕ} {v : BitVec w}
    (h : t.Filled before z i l) (hi : i < before.length) (hv : v = digit w z i) :
    t.Filled before z (i + 1) (t.write i v t.normalType l) := h.stepStored hi (by rw [hv])

theorem Filled.done {before l : List (BitVec w)} {z : ℤ}
    (h : t.Filled before z (t.limbSize w) l) (hlen : before.length = t.limbSize w) :
    l = t.image w z := by
  apply List.ext_getElem
  · rw [h.length_eq, hlen, length_image]
  · intro i hi hi'
    rw [length_image] at hi'
    have hw : l[i] = t.stored i (digit w z i) t.normalType := by
      simpa [List.getD_eq_getElem?_getD, hi] using h.written i hi'
    rw [hw]
    simp [image]

/-- An operand that is not overwritten before it is read. -/
theorem Filled.read {before l : List (BitVec w)} {z y : ℤ} {i n : ℕ} {x : Source w}
    (h : t.Filled before z i l) (hx : x.Reads before n y) (hi : i < n) :
    ((x l).read i).value = digit w y i := hx i hi l h.length_eq h.rest

variable (t) in
/-- The limbs from `i` on are written, by a loop that goes down. -/
structure FilledFrom (z : ℤ) (i : ℕ) (l : List (BitVec w)) : Prop where
  length_eq : l.length = t.limbSize w
  written : ∀ j, i ≤ j → j < t.limbSize w → l.getD j 0 = t.stored j (digit w z j) t.normalType

theorem FilledFrom.start {l : List (BitVec w)} (h : l.length = t.limbSize w) (z : ℤ) :
    t.FilledFrom z (t.limbSize w) l := ⟨h, fun _ hj hlt => absurd hlt (Nat.not_lt.mpr hj)⟩

theorem FilledFrom.step {l : List (BitVec w)} {z : ℤ} {i : ℕ} {v : BitVec w} {n : Normalization}
    (h : t.FilledFrom z (i + 1) l) (hi : i < t.limbSize w)
    (hv : t.stored i v n = t.stored i (digit w z i) t.normalType) :
    t.FilledFrom z i (t.write i v n l) where
  length_eq := by rw [length_write, h.length_eq]
  written j hj hlt := by
    rw [write, getD_set]
    by_cases hij : i = j
    · subst hij
      rw [if_pos ⟨rfl, h.length_eq ▸ hi⟩, hv]
    · rw [if_neg (fun hcon => hij hcon.1)]
      exact h.written j (by omega) hlt

theorem FilledFrom.done {l : List (BitVec w)} {z : ℤ} (h : t.FilledFrom z 0 l) :
    l = t.image w z := by
  apply Filled.done _ h.length_eq
  exact ⟨rfl, fun j hj => h.written j (Nat.zero_le j) hj, fun _ _ => rfl⟩

/-! ## What a written result denotes -/

variable (t)

/-- The result that holds `z`. -/
def array (w : ℕ) (z : ℤ) : BitArray w := ⟨⟨t, t.image w z⟩, t.length_image z⟩

theorem eq_array {l : List (BitVec w)} {z : ℤ} (hlen : l.length = t.limbSize w)
    (h : l = t.image w z) : (⟨⟨t, l⟩, hlen⟩ : BitArray w) = t.array w z := by
  subst h
  rfl

theorem getD_image {z : ℤ} {i : ℕ} (hi : i < t.limbSize w) :
    (t.image w z).getD i 0 = t.stored i (digit w z i) t.normalType := by
  simp [image, List.getD_eq_getElem?_getD, hi]

/-- Limbs below the last one are stored as they are. -/
theorem stored_of_ne {i : ℕ} (h : i ≠ t.limbSize w - 1) (v : BitVec w) (n : Normalization) :
    t.stored i v n = v := by
  rw [stored, if_neg (fun hcon => h hcon.1)]

/-- Zero is stored as it is. -/
theorem stored_zero (i : ℕ) (n : Normalization) : t.stored i (0 : BitVec w) n = 0 := by
  have hbit : extractBit (t.signBit w) (0 : BitVec w) = 0 := by
    unfold extractBit
    split_ifs
    · exact BitVec.setWidth_zero 1 w
    · exact bitOf_eq_zero_iff.mpr (by simp)
  unfold stored
  rw [hbit, maskFrom_zero]
  split_ifs
  · cases t.signedness with
    | unsigned => simp [maskInside]
    | signed => simp [extendSign, maskOutside]
  · rfl

/-- A write does not change the bits that belong to the result. -/
theorem stored_mod [NeZero w] (hpos : 0 < t.bitSize) (i : ℕ) (v : BitVec w) (n : Normalization) :
    (t.stored i v n).toNat % 2 ^ lastLimbBitSize w t.bitSize =
      v.toNat % 2 ^ lastLimbBitSize w t.bitSize := by
  obtain ⟨m, hm, hbits, hr₀, hr, hsign⟩ := bitSize_split (w := w) hpos
  unfold stored
  split_ifs with h
  · cases t.signedness with
    | unsigned =>
        dsimp only
        rw [toNat_maskInside hr, Nat.mod_mod]
    | signed =>
        dsimp only
        rcases bit_eq (extractBit (t.signBit w) v) with hbit | hbit
        · rw [hbit, maskFrom_zero, extendSign_zero hr₀]
        · -- the bits that are set are multiples of a higher power
          obtain ⟨c, hc⟩ :
              2 ^ lastLimbBitSize w t.bitSize ∣ 2 ^ w - 2 ^ lastLimbBitSize w t.bitSize :=
            Nat.dvd_sub (pow_dvd_pow 2 hr) dvd_rfl
          rw [hbit, maskFrom_one, toNat_extendSign_allOnes hr₀ hr, hc, Nat.add_mul_mod_self_left,
            Nat.mod_mod]
  · rfl

/-- The bits of the result are those of the integer written. -/
theorem value_image_mod [NeZero w] (z : ℤ) :
    (value (t.image w z) : ℤ) % 2 ^ t.bitSize = z % 2 ^ t.bitSize := by
  rcases Nat.eq_zero_or_pos t.bitSize with hzero | hpos
  · rw [hzero, pow_zero, Int.emod_one, Int.emod_one]
  · obtain ⟨m, hm, hbits, hr₀, hr, -⟩ := bitSize_split (w := w) hpos
    have hsize : t.limbSize w = m + 1 := hm
    have hlast : digit w (value (t.image w z)) m = t.stored m (digit w z m) t.normalType := by
      rw [digit_value, getD_image t (by omega)]
    have hbelow : ∀ i < m, digit w (value (t.image w z)) i = digit w z i := fun i hi => by
      rw [digit_value, getD_image t (by omega), stored_of_ne t (by omega)]
    have htop : ((t.stored m (digit w z m) t.normalType).toNat : ℤ) %
        2 ^ lastLimbBitSize w t.bitSize =
          (digit w z m).toNat % 2 ^ lastLimbBitSize w t.bitSize := by
      exact_mod_cast t.stored_mod hpos m (digit w z m) t.normalType
    rw [hbits, emod_bits _ m hr, emod_bits _ m hr, emod_congr hbelow, hlast, htop]

/-- The result denotes the integer written, as far as its bits and its sign can. -/
theorem toInt_array [NeZero w] (z : ℤ) :
    (t.array w z).toInt = wrap t.bitSize t.signedness z := by
  have hmod := t.value_image_mod (w := w) z
  show wrap t.bitSize t.signedness (value (t.image w z)) = _
  unfold wrap
  cases t.signedness with
  | unsigned => exact hmod
  | signed =>
      dsimp only
      rw [Int.bmod_def, Int.bmod_def]
      push_cast
      rw [hmod]

/-- The integers a type can hold. -/
def InRange (z : ℤ) : Prop := wrap t.bitSize t.signedness z = z

theorem inRange_unsigned (hs : t.signedness = .unsigned) {z : ℤ} :
    t.InRange z ↔ 0 ≤ z ∧ z < 2 ^ t.bitSize := by
  unfold InRange wrap
  rw [hs]
  dsimp only
  constructor
  · intro h
    rw [← h]
    exact ⟨Int.emod_nonneg _ (by positivity), Int.emod_lt_of_pos _ (by positivity)⟩
  · rintro ⟨h₀, h⟩
    exact Int.emod_eq_of_lt h₀ h

theorem inRange_signed (hs : t.signedness = .signed) (hpos : 0 < t.bitSize) {z : ℤ} :
    t.InRange z ↔ -2 ^ (t.bitSize - 1) ≤ z ∧ z < 2 ^ (t.bitSize - 1) := by
  have hhalf : (2 : ℤ) ^ t.bitSize = 2 * 2 ^ (t.bitSize - 1) := by
    rw [← pow_succ']
    congr 1
    omega
  unfold InRange wrap
  rw [hs]
  dsimp only
  rw [Int.bmod_def]
  push_cast
  have hmod₀ := Int.emod_nonneg z (show (2 : ℤ) ^ t.bitSize ≠ 0 by positivity)
  have hmod := Int.emod_lt_of_pos z (show (0 : ℤ) < 2 ^ t.bitSize by positivity)
  constructor
  · intro h
    split_ifs at h <;> omega
  · rintro ⟨h₀, h⟩
    rcases le_or_gt 0 z with hz | hz
    · rw [Int.emod_eq_of_lt hz (by omega), if_pos (by omega)]
    · have hshift : z % 2 ^ t.bitSize = z + 2 ^ t.bitSize := by
        rw [← Int.add_emod_right, Int.emod_eq_of_lt (by omega) (by omega)]
      rw [hshift, if_neg (by omega)]
      omega

/-- The last limb of an integer in range. -/
theorem toNat_last_digit [NeZero w] {z : ℤ} {m r : ℕ} (hr : r ≤ w) (h : -(2 ^ (w * m + r)) ≤ z)
    (hlt : z < 2 ^ (w * m + r)) :
    (0 ≤ z → (digit w z m).toNat < 2 ^ r) ∧ (z < 0 → 2 ^ w - 2 ^ r ≤ (digit w z m).toNat) := by
  have hpos := pow_base_pos w m
  have hpow : (2 : ℤ) ^ (w * m + r) = 2 ^ r * (2 ^ w) ^ m := by rw [pow_add, pow_mul, mul_comm]
  have hle : (2 : ℤ) ^ r ≤ 2 ^ w := pow_le_pow_right₀ (by norm_num) hr
  have hd := toNat_digit (w := w) z m
  rw [hpow] at h hlt
  -- a negative limb wraps around, to the highest values
  constructor
  · intro hz
    have hq₀ : 0 ≤ z / (2 ^ w) ^ m := Int.ediv_nonneg hz hpos.le
    have hq : z / (2 ^ w) ^ m < 2 ^ r := Int.ediv_lt_of_lt_mul hpos hlt
    rw [Int.emod_eq_of_lt hq₀ (by omega)] at hd
    zify
    omega
  · intro hz
    have hq : z / (2 ^ w) ^ m < 0 := Int.ediv_neg_of_neg_of_pos hz hpos
    have hq₀ : -2 ^ r ≤ z / (2 ^ w) ^ m := by
      rw [Int.le_ediv_iff_mul_le hpos]
      linarith
    rw [← Int.add_emod_right, Int.emod_eq_of_lt (by omega) (by omega)] at hd
    have hcast : ((2 ^ w - 2 ^ r : ℕ) : ℤ) = 2 ^ w - 2 ^ r := by
      rw [Nat.cast_sub (Nat.pow_le_pow_right (by omega) hr)]
      push_cast
      rfl
    zify
    rw [hcast]
    omega

theorem getLsbD_of_lt {v : BitVec w} {r j : ℕ} (h : v.toNat < 2 ^ r) (hj : r ≤ j) :
    v.getLsbD j = false := by
  rw [BitVec.getLsbD]
  exact Nat.testBit_lt_two_pow (lt_of_lt_of_le h (Nat.pow_le_pow_right (by omega) hj))

theorem getLsbD_of_ge {v : BitVec w} {r j : ℕ} (h : 2 ^ w - 2 ^ r ≤ v.toNat) (hj : r ≤ j)
    (hjw : j < w) : v.getLsbD j = true := by
  have hnot : (~~~v).toNat < 2 ^ r := by
    have hv := v.isLt
    have hr : 2 ^ r ≤ 2 ^ w := Nat.pow_le_pow_right (by omega) (by omega)
    have hpos := Nat.two_pow_pos r
    rw [BitVec.toNat_not]
    omega
  have hbit := getLsbD_of_lt hnot hj
  rw [BitVec.getLsbD_not] at hbit
  simpa [hjw] using hbit

section

variable {v : BitVec w} {r s : ℕ} (hs : s ≤ r) (hr : r ≤ w)
include hs hr

/-- A small word has no bits above. -/
theorem maskOutside_of_lt (h : v.toNat < 2 ^ s) : maskOutside r v = maskOutside r 0 := by
  apply BitVec.eq_of_getLsbD_eq
  intro j hj
  rw [getLsbD_maskOutside hr _ hj, getLsbD_maskOutside hr _ hj]
  by_cases hrj : r ≤ j
  · rw [getLsbD_of_lt h (hs.trans hrj)]
    simp
  · simp [hrj]

/-- A large word has all bits above. -/
theorem maskOutside_of_ge (h : 2 ^ w - 2 ^ s ≤ v.toNat) :
    maskOutside r v = maskOutside r (BitVec.allOnes w) := by
  apply BitVec.eq_of_getLsbD_eq
  intro j hj
  rw [getLsbD_maskOutside hr _ hj, getLsbD_maskOutside hr _ hj]
  by_cases hrj : r ≤ j
  · rw [getLsbD_of_ge h (hs.trans hrj) hj]
    simp [hj]
  · simp [hrj]

end

theorem extendSign_allOnes {v : BitVec w} {r : ℕ} (hpos : 0 < r) (hr : r ≤ w)
    (h : maskOutside r v = maskOutside r (BitVec.allOnes w)) :
    extendSign r v (BitVec.allOnes w) = v := by
  unfold extendSign
  split_ifs with h₀
  · omega
  · rfl
  · rw [← h]
    apply BitVec.eq_of_getLsbD_eq
    intro j hj
    rw [BitVec.getLsbD_or, getLsbD_maskOutside hr _ hj]
    cases v.getLsbD j <;> simp

/-- The last limb of an integer in range: its sign bit is that of the integer, and the bits above
repeat it. -/
theorem last_digit_of_inRange [NeZero w] {z : ℤ} (h : t.InRange z) (hpos : 0 < t.bitSize)
    (n : Normalization) :
    let last := digit w z (t.limbSize w - 1)
    let mask : BitVec w := match t.signedness with
      | .unsigned => 0
      | .signed => maskFrom w (extractBit (t.signBit w) last)
    t.stored (t.limbSize w - 1) last n = last ∧
      maskOutside (lastLimbBitSize w t.bitSize) last =
        maskOutside (lastLimbBitSize w t.bitSize) mask := by
  obtain ⟨m, hm, hbits, hr₀, hr, hsign⟩ := bitSize_split (w := w) hpos
  have hsize : t.limbSize w - 1 = m := by rw [limbSize, hm]; rfl
  rw [hsize]
  dsimp only
  unfold stored
  rw [hsize]
  cases hsg : t.signedness with
  -- below the width nothing is above the last bit
  | unsigned =>
      have hrange := (t.inRange_unsigned hsg).mp h
      rw [hbits] at hrange
      have hlow := (toNat_last_digit hr (by have := pow_base_pos w m; linarith) hrange.2).1 hrange.1
      constructor
      · split_ifs
        · apply BitVec.eq_of_toNat_eq
          rw [toNat_maskInside hr, Nat.mod_eq_of_lt hlow]
        · rfl
      · exact maskOutside_of_lt le_rfl hr hlow
  | signed =>
      have hrange := (t.inRange_signed hsg hpos).mp h
      have hpred : t.bitSize - 1 = w * m + (lastLimbBitSize w t.bitSize - 1) := by omega
      rw [hpred] at hrange
      obtain ⟨hnonneg, hneg⟩ := toNat_last_digit (r := lastLimbBitSize w t.bitSize - 1)
        (by omega) hrange.1 hrange.2
      have hbit : extractBit (t.signBit w) (digit w z m) =
          BitVec.ofBool ((digit w z m).getLsbD (lastLimbBitSize w t.bitSize - 1)) := by
        rw [signBit, hsign, extractBit_eq (by omega)]
      -- the sign bit is that of the integer, and the bits above are copies of it
      rcases le_or_gt 0 z with hz | hz
      · have hlow := hnonneg hz
        have hclear : extractBit (t.signBit w) (digit w z m) = 0 := by
          rw [hbit, getLsbD_of_lt hlow le_rfl]
          rfl
        rw [hclear, maskFrom_zero]
        constructor
        · split_ifs
          · exact extendSign_zero hr₀ _
          · rfl
        · exact maskOutside_of_lt (Nat.sub_le _ _) hr hlow
      · have hhigh := hneg hz
        have hset : extractBit (t.signBit w) (digit w z m) = 1 := by
          rw [hbit, getLsbD_of_ge hhigh le_rfl (by omega)]
          rfl
        have hout := maskOutside_of_ge (Nat.sub_le _ _) hr hhigh
        rw [hset, maskFrom_one]
        refine ⟨?_, hout⟩
        split_ifs
        · exact extendSign_allOnes hr₀ hr hout
        · rfl

/-- An integer in range is stored as its digits. -/
theorem image_of_inRange [NeZero w] {z : ℤ} (h : t.InRange z) :
    t.image w z = digits w (t.limbSize w) z := by
  apply List.map_congr_left
  intro i hi
  have hi := List.mem_range.mp hi
  by_cases hlast : i = t.limbSize w - 1
  · rw [hlast]
    exact (t.last_digit_of_inRange h (t.pos_of_lt_limbSize hi) t.normalType).1
  · exact t.stored_of_ne hlast _ _

/-- The limbs have room for the bits. -/
theorem two_pow_le [NeZero w] : (2 : ℤ) ^ t.bitSize ≤ (2 ^ w) ^ t.limbSize w := by
  rw [← pow_mul]
  exact pow_le_pow_right₀ one_le_two ((limbSizeFor_le_iff _ _).mp le_rfl)

/-- The limbs of an unsigned integer in range are its value. -/
theorem value_image_of_inRange [NeZero w] (hu : t.signedness = .unsigned) {z : ℤ}
    (h : t.InRange z) : (value (t.image w z) : ℤ) = z := by
  obtain ⟨hz₀, hz⟩ := (t.inRange_unsigned hu).mp h
  rw [t.image_of_inRange h, value_digits, Int.emod_eq_of_lt hz₀ (hz.trans_le t.two_pow_le)]

/-- Limbs that hold no bits above the type are what is written of their value. -/
theorem eq_image_of_lt [NeZero w] (hu : t.signedness = .unsigned) {limbs : List (BitVec w)}
    (hlength : limbs.length = t.limbSize w) (hlt : value limbs < 2 ^ t.bitSize) :
    limbs = t.image w (value limbs) := by
  have hvalue := t.value_image_of_inRange (w := w) hu ((t.inRange_unsigned hu).mpr
    ⟨Int.natCast_nonneg (value limbs), by exact_mod_cast hlt⟩)
  apply value_injective (hlength.trans (length_image _ _).symm)
  exact_mod_cast hvalue.symm

/-- A result that can hold the integer written is normal and denotes it. -/
theorem isNormal_array [NeZero w] {z : ℤ} (h : t.InRange z) : (t.array w z).IsNormal := by
  intro hfull
  have hpos : 0 < t.bitSize := by
    apply Nat.pos_of_ne_zero
    intro hzero
    exact hfull (by show t.bitSize % w = 0; rw [hzero, Nat.zero_mod])
  obtain ⟨hstored, hout⟩ := t.last_digit_of_inRange (w := w) h hpos t.normalType
  obtain ⟨m, hm, -⟩ := bitSize_split (w := w) hpos
  have hlast : (t.array w z).lastLimb = digit w z (t.limbSize w - 1) := by
    show (t.image w z).getD (t.limbSize w - 1) 0 = _
    rw [getD_image t (by rw [limbSize, hm]; omega), hstored]
  show isNormalSigned (lastLimbBitSize w t.bitSize) (t.array w z).lastLimb
    (t.array w z).signMask.value = true
  unfold isNormalSigned
  split_ifs with hfull'
  · rfl
  · rw [beq_iff_eq, hlast, hout]
    congr 1
    unfold BitSpan.signMask BitSpan.sign
    rw [hlast]
    show _ = (match t.signedness with
      | .unsigned => zero w
      | .signed => runtime (maskFrom w (match t.signedness with
        | .unsigned => constant 0
        | .signed =>
            runtime (extractBit (t.signBit w) (digit w z (t.limbSize w - 1)))).value)).value
    cases t.signedness <;> rfl

theorem array_denotes [NeZero w] (hs : t.signedness = .signed → 0 < t.bitSize) {z : ℤ}
    (h : t.InRange z) : (t.array w z).span.Denotes z := by
  have hd := (t.isNormal_array (w := w) h).denotes hs
  rwa [toInt_array, h] at hd

end SpanType

end Hmpc.Core
