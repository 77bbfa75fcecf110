/-
# Hmpc.Core.Num -- arithmetic on spans of limbs

`add`, `subtract`, `bit_not`, `bit_copy`, `negate` and the shifts of `hmpc::core::num`. Each is a
loop over the limbs of its result, and what it leaves there is the image of the exact result: how
much of it that is depends on the width of the result alone. A limb of an operand is read before
the limb of the same index is written, so that operands may share their limbs with the result.
-/
import Hmpc.Core.Write

namespace Hmpc.Core

open Hmpc.Lib.Loops Hmpc.Lib.Limbs Hmpc.Lib.Digits MaybeConstant SpanType

variable {w : ℕ}

namespace Num

/-! ## Sums and differences -/

/-- `add(result, left, right, carry)` -/
def add (t : SpanType) (left right : Source w) (carry : MaybeConstant Bit)
    (result : List (BitVec w)) : List (BitVec w) × MaybeConstant Bit :=
  scanRange (t.limbSize w) (fun i s =>
    let r := extendedAddCarry ((left s.1).read i) ((right s.1).read i) s.2
    (t.write i r.sum.value t.normalType s.1, r.carry)) (result, carry)

/-- `subtract(result, left, right, borrow)` -/
def subtract (t : SpanType) (left right : Source w) (borrow : MaybeConstant Bit)
    (result : List (BitVec w)) : List (BitVec w) × MaybeConstant Bit :=
  scanRange (t.limbSize w) (fun i s =>
    let r := subtractBorrow ((left s.1).read i) ((right s.1).read i) s.2
    (t.write i r.difference.value t.normalType s.1, r.borrow)) (result, borrow)

/-- A loop over limbs keeps their number. -/
@[simp] theorem length_add (t : SpanType) (left right : Source w) (carry : MaybeConstant Bit)
    (result : List (BitVec w)) : (add t left right carry result).1.length = result.length := by
  apply scanRange_induction
    (P := fun _ (s : List (BitVec w) × MaybeConstant Bit) => s.1.length = result.length)
  · rfl
  · intro i _ s hs
    exact (t.length_write _ _ _ _).trans hs

@[simp] theorem length_subtract (t : SpanType) (left right : Source w)
    (borrow : MaybeConstant Bit) (result : List (BitVec w)) :
    (subtract t left right borrow result).1.length = result.length := by
  apply scanRange_induction
    (P := fun _ (s : List (BitVec w) × MaybeConstant Bit) => s.1.length = result.length)
  · rfl
  · intro i _ s hs
    exact (t.length_write _ _ _ _).trans hs

theorem sub_eq_of_add_eq {d b x y c m : ℤ} (h : d + (y + b) = x + m * c) :
    d - m * c = x - y - b := by linarith

section

variable {t : SpanType} {left right : Source w} {result : List (BitVec w)} {x y : ℤ}
  (hlen : result.length = t.limbSize w) (hx : left.Reads result (t.limbSize w) x)
  (hy : right.Reads result (t.limbSize w) y)
include hlen hx hy

/-- The sum, and the carry as what is missing above the limbs. -/
theorem add_eq [NeZero w] (carry : MaybeConstant Bit) :
    (add t left right carry result).1 = t.image w (x + y + carry.value.toNat) ∧
      (x + y + carry.value.toNat) / (2 ^ w) ^ t.limbSize w = x / (2 ^ w) ^ t.limbSize w +
        y / (2 ^ w) ^ t.limbSize w + (add t left right carry result).2.value.toNat := by
  have hscan : t.Filled result (x + y + carry.value.toNat) (t.limbSize w)
      (add t left right carry result).1 ∧
      (x + y + carry.value.toNat) / (2 ^ w) ^ t.limbSize w = x / (2 ^ w) ^ t.limbSize w +
        y / (2 ^ w) ^ t.limbSize w + (add t left right carry result).2.value.toNat := by
    apply scanRange_induction (P := fun i (s : List (BitVec w) × MaybeConstant Bit) =>
      t.Filled result (x + y + carry.value.toNat) i s.1 ∧
        (x + y + carry.value.toNat) / (2 ^ w) ^ i =
          x / (2 ^ w) ^ i + y / (2 ^ w) ^ i + s.2.value.toNat)
    · exact ⟨Filled.start t _ _, add_start _ _ _⟩
    · rintro i hi ⟨l, c⟩ ⟨hfilled, hcarry⟩
      have hadds := adds_extendedAddCarry ((left l).read i) ((right l).read i) c
      unfold AddResult.Adds at hadds
      rw [hfilled.read hx hi, hfilled.read hy hi] at hadds
      zify at hadds
      obtain ⟨hdigit, hnext⟩ := add_step hcarry hadds
      exact ⟨hfilled.step (hlen ▸ hi) hdigit, hnext⟩
  exact ⟨hscan.1.done hlen, hscan.2⟩

/-- The difference, and the borrow as what is missing above the limbs. -/
theorem subtract_eq [NeZero w] (borrow : MaybeConstant Bit) :
    (subtract t left right borrow result).1 = t.image w (x - y - borrow.value.toNat) ∧
      (x - y - borrow.value.toNat) / (2 ^ w) ^ t.limbSize w = x / (2 ^ w) ^ t.limbSize w -
        y / (2 ^ w) ^ t.limbSize w - (subtract t left right borrow result).2.value.toNat := by
  have hscan : t.Filled result (x - y - borrow.value.toNat) (t.limbSize w)
      (subtract t left right borrow result).1 ∧
      (x - y - borrow.value.toNat) / (2 ^ w) ^ t.limbSize w = x / (2 ^ w) ^ t.limbSize w -
        y / (2 ^ w) ^ t.limbSize w - (subtract t left right borrow result).2.value.toNat := by
    apply scanRange_induction (P := fun i (s : List (BitVec w) × MaybeConstant Bit) =>
      t.Filled result (x - y - borrow.value.toNat) i s.1 ∧
        (x - y - borrow.value.toNat) / (2 ^ w) ^ i =
          x / (2 ^ w) ^ i - y / (2 ^ w) ^ i - s.2.value.toNat)
    · exact ⟨Filled.start t _ _, sub_start _ _ _⟩
    · rintro i hi ⟨l, b⟩ ⟨hfilled, hborrow⟩
      have hsubtracts := subtracts_subtractBorrow ((left l).read i) ((right l).read i) b
      unfold SubResult.Subtracts at hsubtracts
      rw [hfilled.read hx hi, hfilled.read hy hi] at hsubtracts
      zify at hsubtracts
      obtain ⟨hdigit, hnext⟩ := sub_step hborrow (sub_eq_of_add_eq hsubtracts)
      exact ⟨hfilled.step (hlen ▸ hi) hdigit, hnext⟩
  exact ⟨hscan.1.done hlen, hscan.2⟩

/-- Between numbers of the limbs of the result, the borrow tells which one is smaller. -/
theorem subtract_underflow [NeZero w] (hx₀ : 0 ≤ x) (hxt : x < (2 ^ w) ^ t.limbSize w) (hy₀ : 0 ≤ y)
    (hyt : y < (2 ^ w) ^ t.limbSize w) :
    (subtract t left right (constant 0) result).1 = t.image w (x - y) ∧
      ((subtract t left right (constant 0) result).2.value = 1 ↔ x < y) := by
  obtain ⟨himage, hborrow⟩ := subtract_eq hlen hx hy (constant 0)
  have hzero : ((constant (0 : Bit)).value.toNat : ℤ) = 0 := rfl
  rw [hzero, sub_zero] at himage hborrow
  rw [ediv_of_lt hx₀ hxt le_rfl, ediv_of_lt hy₀ hyt le_rfl, sub_zero, zero_sub] at hborrow
  refine ⟨himage, ?_⟩
  generalize (subtract t left right (constant 0) result).2.value = b at hborrow ⊢
  rcases Int.lt_or_le x y with hlt | hle
  · rw [ediv_of_neg (by omega) (by omega)] at hborrow
    have hb : b.toNat = 1 := by omega
    exact ⟨fun _ => hlt, fun _ => BitVec.eq_of_toNat_eq hb⟩
  · rw [ediv_of_lt (by omega) (by omega) le_rfl] at hborrow
    refine ⟨fun h => ?_, fun h => absurd h (by omega)⟩
    subst h
    exact absurd hborrow (by decide)

end

/-! ## Copies, complements, negation -/

/-- `bit_copy(result, value)` -/
def bitCopy (t : SpanType) (value : Source w) (result : List (BitVec w)) : List (BitVec w) :=
  scanRange (t.limbSize w) (fun i l => t.write i ((value l).read i).value t.normalType l) result

@[simp] theorem length_bitCopy (t : SpanType) (value : Source w) (result : List (BitVec w)) :
    (bitCopy t value result).length = result.length :=
  scanRange_keeps (fun _ _ => t.length_write _ _ _ _) _ result

/-- `bit_not(result, value)` -/
def bitNot (t : SpanType) (value : Source w) (result : List (BitVec w)) : List (BitVec w) :=
  scanRange (t.limbSize w)
    (fun i l => t.write i (Core.bitNot ((value l).read i)).value t.normalType l) result

@[simp] theorem length_bitNot (t : SpanType) (value : Source w) (result : List (BitVec w)) :
    (bitNot t value result).length = result.length :=
  scanRange_keeps (fun _ _ => t.length_write _ _ _ _) _ result

section

variable {t : SpanType} {value : Source w} {result : List (BitVec w)} {x : ℤ}
  (hlen : result.length = t.limbSize w) (hx : value.Reads result (t.limbSize w) x)
include hlen hx

theorem bitCopy_eq : bitCopy t value result = t.image w x := by
  have hscan : t.Filled result x (t.limbSize w) (bitCopy t value result) := by
    apply scanRange_induction (P := fun i (l : List (BitVec w)) => t.Filled result x i l)
    · exact Filled.start t _ _
    · intro i hi l hfilled
      exact hfilled.step (hlen ▸ hi) (hfilled.read hx hi)
  exact hscan.done hlen

theorem bitNot_eq : bitNot t value result = t.image w (-1 - x) := by
  have hscan : t.Filled result (-1 - x) (t.limbSize w) (bitNot t value result) := by
    apply scanRange_induction (P := fun i (l : List (BitVec w)) => t.Filled result (-1 - x) i l)
    · exact Filled.start t _ _
    · intro i hi l hfilled
      exact hfilled.step (hlen ▸ hi) (by rw [value_bitNot, hfilled.read hx hi, digit_not])
  exact hscan.done hlen

end

/-- `select(result, false_value, true_value, choice)` -/
def select (t : SpanType) (falseValue trueValue : Source w) (choice : MaybeConstant Bit)
    (result : List (BitVec w)) : List (BitVec w) :=
  scanRange (t.limbSize w) (fun i l => t.write i
    (Core.select ((falseValue l).read i) ((trueValue l).read i) choice).value t.normalType l) result

@[simp] theorem length_select (t : SpanType) (falseValue trueValue : Source w)
    (choice : MaybeConstant Bit) (result : List (BitVec w)) :
    (select t falseValue trueValue choice result).length = result.length :=
  scanRange_keeps (fun _ _ => t.length_write _ _ _ _) _ result

theorem select_eq [NeZero w] {t : SpanType} {falseValue trueValue : Source w}
    {result : List (BitVec w)} {x y : ℤ} (hlen : result.length = t.limbSize w)
    (hx : falseValue.Reads result (t.limbSize w) x) (hy : trueValue.Reads result (t.limbSize w) y)
    (choice : MaybeConstant Bit) :
    select t falseValue trueValue choice result =
      t.image w (if choice.value = 1 then y else x) := by
  have hscan : t.Filled result (if choice.value = 1 then y else x) (t.limbSize w)
      (select t falseValue trueValue choice result) := by
    apply scanRange_induction (P := fun i (l : List (BitVec w)) =>
      t.Filled result (if choice.value = 1 then y else x) i l)
    · exact Filled.start t _ _
    · intro i hi l hfilled
      apply hfilled.step (hlen ▸ hi)
      rw [value_select, hfilled.read hx hi, hfilled.read hy hi]
      split_ifs
      · rfl
      · rfl
  exact hscan.done hlen

/-- `negate(result, value)`: the complement is stored in an array that is not normal. -/
def negate (t : SpanType) (value : Source w) (uninitialized result : List (BitVec w)) :
    List (BitVec w) :=
  let complement : SpanType := ⟨t.bitSize, t.signedness, .unnormal⟩
  let limbs := bitNot complement value uninitialized
  (add t (BitSpan.mk complement limbs).span.source (nullspan w).source (constant 1)
    result).1

@[simp] theorem length_negate (t : SpanType) (value : Source w)
    (uninitialized result : List (BitVec w)) :
    (negate t value uninitialized result).length = result.length := length_add _ _ _ _ _

/-- The limbs of an array that is not normal are read as they are. -/
theorem read_unnormal (bitSize : ℕ) (signedness : Signedness) (l : List (BitVec w)) {i : ℕ}
    (hi : i < limbSizeFor w bitSize) :
    ((BitSpan.mk ⟨bitSize, signedness, .unnormal⟩ l).span.read i).value = l.getD i 0 := by
  show ((BitSpan.mk ⟨bitSize, signedness, .unnormal⟩ l).extendedRead i .unnormal).value = _
  have hi : i < (SpanType.mk bitSize signedness .unnormal).limbSize w := hi
  unfold BitSpan.extendedRead BitSpan.read
  rw [if_pos hi]
  simp

theorem getD_image_unnormal (bitSize : ℕ) (signedness : Signedness) (z : ℤ) {i : ℕ}
    (hi : i < limbSizeFor w bitSize) :
    ((SpanType.mk bitSize signedness .unnormal).image w z).getD i 0 = digit w z i := by
  rw [getD_image _ hi]
  simp [stored]

theorem negate_eq [NeZero w] {t : SpanType} {value : Source w}
    {uninitialized result : List (BitVec w)} {x : ℤ} (hlen : result.length = t.limbSize w)
    (hun : uninitialized.length = t.limbSize w)
    (hx : value.Reads uninitialized (t.limbSize w) x) :
    negate t value uninitialized result = t.image w (-x) := by
  have hnot := bitNot_eq (t := ⟨t.bitSize, t.signedness, .unnormal⟩) hun hx
  have hread : (BitSpan.mk ⟨t.bitSize, t.signedness, .unnormal⟩
      (bitNot ⟨t.bitSize, t.signedness, .unnormal⟩ value uninitialized)).span.source.Reads result
        (t.limbSize w) (-1 - x) := by
    intro i hi l _ _
    rw [Span.source_apply, read_unnormal _ _ _ hi, hnot, getD_image_unnormal _ _ _ hi]
  have hadd := (add_eq hlen hread ((nullspan_denotes).reads result _) (constant 1)).1
  rw [negate, hadd]
  congr 1
  show -1 - x + 0 + 1 = -x
  ring

/-! ## Shifts -/

/-- `shift_left(result, value, shift)` -/
def shiftLeft (shift : ℕ) (t : SpanType) (value : Span w) (result : List (BitVec w)) :
    List (BitVec w) :=
  scanReverseRange (t.limbSize w) (fun i l =>
    let limbShift := shift / w
    let bitShift := shift % w
    if i < limbShift then t.write i (zero w).value .unnormal l
    else
      let currentIndex := i - limbShift
      let current := value.read currentIndex
      if bitShift = 0 then t.write i current.value t.normalType l
      else
        let previous := if i - limbShift > 0 then value.read (currentIndex - 1) else zero w
        t.write i (combinedShiftLeft previous current bitShift).value t.normalType l) result

/-- `shift_right(result, value, shift)` -/
def shiftRight (shift : ℕ) (t : SpanType) (value : Span w) (result : List (BitVec w)) :
    List (BitVec w) :=
  scanRange (t.limbSize w) (fun i l =>
    let limbShift := shift / w
    let bitShift := shift % w
    let currentIndex := i + limbShift
    let current := value.readNormal currentIndex
    if bitShift = 0 then t.write i current.value t.normalType l
    else
      let next := value.readNormal (currentIndex + 1)
      t.write i (combinedShiftRight current next bitShift).value t.normalType l) result

@[simp] theorem length_shiftLeft (shift : ℕ) (t : SpanType) (value : Span w)
    (result : List (BitVec w)) : (shiftLeft shift t value result).length = result.length := by
  apply scanReverseRange_induction (P := fun _ (l : List (BitVec w)) => l.length = result.length)
  · rfl
  · intro i _ l hl
    dsimp only
    split_ifs <;> exact (t.length_write _ _ _ _).trans hl

@[simp] theorem length_shiftRight (shift : ℕ) (t : SpanType) (value : Span w)
    (result : List (BitVec w)) : (shiftRight shift t value result).length = result.length := by
  refine scanRange_keeps (fun i l => ?_) _ result
  dsimp only
  split_ifs <;> exact t.length_write _ _ _ _

/-! An operand of a shift may also share its limbs with the result. -/

/-- `shift_left(result, value, shift)`, which goes down and reads at or below what it writes. -/
def shiftLeftOver (shift : ℕ) (t : SpanType) (value : Source w) (result : List (BitVec w)) :
    List (BitVec w) :=
  scanReverseRange (t.limbSize w) (fun i l =>
    let limbShift := shift / w
    let bitShift := shift % w
    if i < limbShift then t.write i (zero w).value .unnormal l
    else
      let currentIndex := i - limbShift
      let current := (value l).read currentIndex
      if bitShift = 0 then t.write i current.value t.normalType l
      else
        let previous := if i - limbShift > 0 then (value l).read (currentIndex - 1) else zero w
        t.write i (combinedShiftLeft previous current bitShift).value t.normalType l) result

/-- `shift_right(result, value, shift)`, which goes up and reads at or above what it writes. -/
def shiftRightOver (shift : ℕ) (t : SpanType) (value : Source w) (result : List (BitVec w)) :
    List (BitVec w) :=
  scanRange (t.limbSize w) (fun i l =>
    let limbShift := shift / w
    let bitShift := shift % w
    let currentIndex := i + limbShift
    let current := (value l).readNormal currentIndex
    if bitShift = 0 then t.write i current.value t.normalType l
    else
      let next := (value l).readNormal (currentIndex + 1)
      t.write i (combinedShiftRight current next bitShift).value t.normalType l) result

@[simp] theorem length_shiftLeftOver (shift : ℕ) (t : SpanType) (value : Source w)
    (result : List (BitVec w)) : (shiftLeftOver shift t value result).length = result.length := by
  apply scanReverseRange_induction (P := fun _ (l : List (BitVec w)) => l.length = result.length)
  · rfl
  · intro i _ l hl
    dsimp only
    split_ifs <;> exact (t.length_write _ _ _ _).trans hl

@[simp] theorem length_shiftRightOver (shift : ℕ) (t : SpanType) (value : Source w)
    (result : List (BitVec w)) : (shiftRightOver shift t value result).length = result.length := by
  refine scanRange_keeps (fun i l => ?_) _ result
  dsimp only
  split_ifs <;> exact t.length_write _ _ _ _

/-- As long as the limbs up to `i` are those before the loop, limb `i` is a digit of `z`. -/
def ReadsBelow (x : Source w) (before : List (BitVec w)) (n : ℕ) (z : ℤ) : Prop :=
  ∀ i < n, ∀ l : List (BitVec w), (∀ j ≤ i, l.getD j 0 = before.getD j 0) →
    ((x l).read i).value = digit w z i

/-- As long as the limbs from `i` on are those before the loop, limb `i` is a digit of `z`, with
`normal` access. -/
def ReadsNormal (x : Source w) (before : List (BitVec w)) (z : ℤ) : Prop :=
  ∀ i, ∀ l : List (BitVec w), (∀ j, i ≤ j → l.getD j 0 = before.getD j 0) →
    ((x l).readNormal i).value = digit w z i

section

variable [NeZero w] {t : SpanType} {result : List (BitVec w)} {x : ℤ}
  (hlen : result.length = t.limbSize w)
include hlen

theorem shiftLeftOver_eq {value : Source w} (hx : ReadsBelow value result (t.limbSize w) x)
    (shift : ℕ) : shiftLeftOver shift t value result = t.image w (x * 2 ^ shift) := by
  have hexp : x * 2 ^ shift = x * 2 ^ (w * (shift / w) + shift % w) := by
    rw [Nat.div_add_mod]
  have hmod := (Nat.mod_lt shift (Nat.pos_of_ne_zero (NeZero.ne w))).le
  have hscan : t.FilledFrom (x * 2 ^ shift) 0 (shiftLeftOver shift t value result) ∧
      ∀ j < 0, (shiftLeftOver shift t value result).getD j 0 = result.getD j 0 := by
    rw [hexp]
    unfold shiftLeftOver
    generalize shift / w = q
    generalize shift % w = r at hmod
    -- the limbs below are still those of the operand
    apply scanReverseRange_induction (P := fun i (l : List (BitVec w)) =>
      t.FilledFrom (x * 2 ^ (w * q + r)) i l ∧ ∀ j < i, l.getD j 0 = result.getD j 0)
    · exact ⟨FilledFrom.start hlen _, fun _ _ => rfl⟩
    · rintro i hi l ⟨hfilled, hbelow⟩
      have hrest (v : BitVec w) (n : Normalization) :
          ∀ j < i, (t.write i v n l).getD j 0 = result.getD j 0 := by
        intro j hj
        rw [write, getD_set, if_neg (by omega)]
        exact hbelow j (by omega)
      have hread (k : ℕ) (hk : k ≤ i) : ((value l).read k).value = digit w x k :=
        hx k (by omega) l fun j hj => hbelow j (by omega)
      dsimp only
      split_ifs with hshift hzero hprevious
      · refine ⟨hfilled.step hi ?_, hrest _ _⟩
        rw [digit_shiftLeft_below x _ hshift]
        exact (t.stored_zero i _).trans (t.stored_zero i _).symm
      · -- whole limbs only
        refine ⟨hfilled.step hi ?_, hrest _ _⟩
        obtain ⟨j, rfl⟩ : ∃ j, i = q + j := ⟨i - q, by omega⟩
        rw [hread _ (by omega), hzero, Nat.add_sub_cancel_left, digit, digit, mul_two_pow_ediv,
          pow_zero, mul_one]
      · refine ⟨hfilled.step hi ?_, hrest _ _⟩
        obtain ⟨j, rfl⟩ : ∃ j, i = q + (j + 1) := ⟨i - q - 1, by omega⟩
        have hj : q + (j + 1) - q = j + 1 := by omega
        rw [digit_shiftLeft_above hmod, value_combinedShiftLeft, hj, hread _ (by omega),
          hread _ (by omega), Nat.add_sub_cancel, BitVec.or_comm]
      · refine ⟨hfilled.step hi ?_, hrest _ _⟩
        obtain rfl : i = q := by omega
        rw [digit_shiftLeft_start, value_combinedShiftLeft, Nat.sub_self, hread _ (by omega),
          value_zero]
        simp
  exact hscan.1.done

theorem shiftRightOver_eq {value : Source w} (hx : ReadsNormal value result x) (shift : ℕ) :
    shiftRightOver shift t value result = t.image w (x / 2 ^ shift) := by
  have hexp : x / 2 ^ shift = x / 2 ^ (w * (shift / w) + shift % w) := by
    rw [Nat.div_add_mod]
  have hmod := (Nat.mod_lt shift (Nat.pos_of_ne_zero (NeZero.ne w))).le
  have hscan :
      t.Filled result (x / 2 ^ shift) (t.limbSize w) (shiftRightOver shift t value result) := by
    rw [hexp]
    unfold shiftRightOver
    generalize shift / w = q
    generalize shift % w = r at hmod
    apply scanRange_induction
      (P := fun i (l : List (BitVec w)) => t.Filled result (x / 2 ^ (w * q + r)) i l)
    · exact Filled.start t _ _
    · intro i hi l hfilled
      have hread (k : ℕ) (hk : i ≤ k) : ((value l).readNormal k).value = digit w x k :=
        hx k l fun j hj => hfilled.rest j (by omega)
      dsimp only
      split_ifs with hzero
      · apply hfilled.step (hlen ▸ hi)
        rw [hread _ (by omega), hzero, digit_shiftRight (Nat.zero_le w), Nat.add_comm]
        simp
      · apply hfilled.step (hlen ▸ hi)
        rw [value_combinedShiftRight, hread _ (by omega), hread _ (by omega),
          digit_shiftRight hmod, BitVec.or_comm, Nat.add_comm i q]
  exact hscan.done hlen

variable {value : Span w}

theorem shiftLeft_eq (hx : value.Denotes x) (shift : ℕ) :
    shiftLeft shift t value result = t.image w (x * 2 ^ shift) :=
  shiftLeftOver_eq hlen (fun i _ _ _ => hx i) shift

theorem shiftRight_eq (hx : value.DenotesNormal x) (shift : ℕ) :
    shiftRight shift t value result = t.image w (x / 2 ^ shift) :=
  shiftRightOver_eq hlen (fun i _ _ => hx i) shift

end

end Num

end Hmpc.Core
