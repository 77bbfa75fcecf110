/-
# Hmpc.Core.CheckedNum -- the functions on spans at compile time

Copies, sums, differences, shifts, comparisons, widths and products, as loops over checked reads and
writes. Each has one lemma: on operands that hold numbers it succeeds, and writes the image of the
result, or returns what it should. Sums, differences and shifts to the right may be written over an
operand.
-/
import Hmpc.Core.BitScan
import Hmpc.Core.Checked

namespace Hmpc.Core.Checked

open Hmpc.Lib.Loops Hmpc.Lib.Limbs Hmpc.Lib.Digits Hmpc.Lib.BitScan MaybeConstant SpanType

variable {w : ℕ}

/-! ## Copies, sums, differences -/

/-- `bit_copy(result, value)` -/
def bitCopy (t : SpanType) (value : Operand w) (result : List (BitVec w)) :
    Option (List (BitVec w)) :=
  tryScanRange (t.limbSize w) (fun i l => do
    write t i (← value.read i l) t.normalType l) result

/-- `add(result, left, right, carry)` -/
def add (t : SpanType) (left right : Operand w) (carry : Bit) (result : List (BitVec w)) :
    Option (List (BitVec w) × Bit) :=
  tryScanRange (t.limbSize w) (fun i s => do
    let r := extendedAddCarry (runtime (← left.read i s.1)) (runtime (← right.read i s.1))
      (runtime s.2)
    return (← write t i r.sum.value t.normalType s.1, r.carry.value)) (result, carry)

/-- `subtract(result, left, right, borrow)` -/
def subtract (t : SpanType) (left right : Operand w) (borrow : Bit) (result : List (BitVec w)) :
    Option (List (BitVec w) × Bit) :=
  tryScanRange (t.limbSize w) (fun i s => do
    let r := subtractBorrow (runtime (← left.read i s.1)) (runtime (← right.read i s.1))
      (runtime s.2)
    return (← write t i r.difference.value t.normalType s.1, r.borrow.value)) (result, borrow)

section

variable [NeZero w] {t : SpanType} {result : List (BitVec w)} {x y : ℕ}
  (hu : t.signedness = .unsigned) (hlen : result.length = t.limbSize w)
include hu hlen

omit [NeZero w] in
theorem bitCopy_eq {value : Operand w} (hx : value.Reads result x) :
    bitCopy t value result = some (t.image w x) := by
  have hscan : ∃ l, bitCopy t value result = some l ∧ t.Filled result x (t.limbSize w) l := by
    apply tryScanRange_induction (P := fun i (l : List (BitVec w)) => t.Filled result x i l)
    · exact Filled.start t _ _
    · intro i hi l hfilled
      refine ⟨_, ?_, hfilled.step (hlen ▸ hi) rfl⟩
      rw [hx i l hfilled.rest, Option.bind_eq_bind, Option.bind_some, write_eq hu hi]
  obtain ⟨l, hl, hfilled⟩ := hscan
  rw [hl, hfilled.done hlen]

variable {left right : Operand w} (hx : left.Reads result x) (hy : right.Reads result y)
include hx hy

theorem add_eq (carry : Bit) :
    ∃ c, add t left right carry result = some (t.image w (x + y + carry.toNat), c) := by
  have hscan : ∃ s, add t left right carry result = some s ∧
      t.Filled result (x + y + carry.toNat) (t.limbSize w) s.1 ∧
      ((x + y + carry.toNat : ℤ)) / (2 ^ w) ^ t.limbSize w =
        x / (2 ^ w) ^ t.limbSize w + y / (2 ^ w) ^ t.limbSize w + s.2.toNat := by
    apply tryScanRange_induction (P := fun i (s : List (BitVec w) × Bit) =>
      t.Filled result (x + y + carry.toNat) i s.1 ∧
        ((x + y + carry.toNat : ℤ)) / (2 ^ w) ^ i =
          x / (2 ^ w) ^ i + y / (2 ^ w) ^ i + s.2.toNat)
    · exact ⟨Filled.start t _ _, add_start _ _ _⟩
    · rintro i hi ⟨l, c⟩ ⟨hfilled, hcarry⟩
      have hadds := adds_extendedAddCarry (runtime (digit w x i)) (runtime (digit w y i))
        (runtime c)
      unfold AddResult.Adds at hadds
      zify at hadds
      obtain ⟨hdigit, hnext⟩ := add_step hcarry hadds
      refine ⟨(_, _), ?_, hfilled.step (hlen ▸ hi) hdigit, hnext⟩
      simp only [hx i l hfilled.rest, hy i l hfilled.rest,
        Option.bind_eq_bind, Option.bind_some, write_eq hu hi, Option.pure_def]
      rfl
  obtain ⟨⟨l, c⟩, hl, hfilled, -⟩ := hscan
  have himage : l = t.image w (x + y + carry.toNat) := hfilled.done hlen
  exact ⟨c, by rw [hl, himage]⟩

theorem subtract_eq (borrow : Bit) :
    ∃ b, subtract t left right borrow result = some (t.image w (x - y - borrow.toNat), b) := by
  have hscan : ∃ s, subtract t left right borrow result = some s ∧
      t.Filled result (x - y - borrow.toNat) (t.limbSize w) s.1 ∧
      ((x - y - borrow.toNat : ℤ)) / (2 ^ w) ^ t.limbSize w =
        x / (2 ^ w) ^ t.limbSize w - y / (2 ^ w) ^ t.limbSize w - s.2.toNat := by
    apply tryScanRange_induction (P := fun i (s : List (BitVec w) × Bit) =>
      t.Filled result (x - y - borrow.toNat) i s.1 ∧
        ((x - y - borrow.toNat : ℤ)) / (2 ^ w) ^ i =
          x / (2 ^ w) ^ i - y / (2 ^ w) ^ i - s.2.toNat)
    · exact ⟨Filled.start t _ _, sub_start _ _ _⟩
    · rintro i hi ⟨l, b⟩ ⟨hfilled, hborrow⟩
      have hsubtracts := subtracts_subtractBorrow (runtime (digit w x i)) (runtime (digit w y i))
        (runtime b)
      unfold SubResult.Subtracts at hsubtracts
      zify at hsubtracts
      obtain ⟨hdigit, hnext⟩ := sub_step hborrow (Num.sub_eq_of_add_eq hsubtracts)
      refine ⟨(_, _), ?_, hfilled.step (hlen ▸ hi) hdigit, hnext⟩
      simp only [hx i l hfilled.rest, hy i l hfilled.rest,
        Option.bind_eq_bind, Option.bind_some, write_eq hu hi, Option.pure_def]
      rfl
  obtain ⟨⟨l, b⟩, hl, hfilled, -⟩ := hscan
  have himage : l = t.image w (x - y - borrow.toNat) := hfilled.done hlen
  exact ⟨b, by rw [hl, himage]⟩

/-- A difference of numbers that is not negative. -/
theorem subtract_of_le (hle : y ≤ x) :
    ∃ b, subtract t left right 0 result = some (t.image w (x - y : ℕ), b) := by
  obtain ⟨b, hb⟩ := subtract_eq hu hlen hx hy 0
  have hdifference : (x : ℤ) - y - ((0 : Bit).toNat : ℤ) = (x - y : ℕ) := by
    rw [Nat.cast_sub hle]
    exact sub_zero _
  exact ⟨b, by rw [hb, hdifference]⟩

end

/-! ## Shifts -/

/-- `shift_left(result, value, shift)` -/
def shiftLeft (t : SpanType) (value : BitSpan w) (shift : ℕ) (result : List (BitVec w)) :
    Option (List (BitVec w)) :=
  tryScanReverseRange (t.limbSize w) (fun i l =>
    let limbShift := shift / w
    let bitShift := shift % w
    if i < limbShift then write t i 0 .unnormal l
    else do
      let current ← extendedRead value (i - limbShift) value.type.normalType
      if bitShift = 0 then write t i current t.normalType l
      else
        let previous ← if i - limbShift > 0
          then extendedRead value (i - limbShift - 1) value.type.normalType else some 0
        write t i (combinedShiftLeft (runtime previous) (runtime current) bitShift).value
          t.normalType l) result

/-- `shift_right(result, value, shift)` -/
def shiftRight (t : SpanType) (value : Operand w) (shift : ℕ) (result : List (BitVec w)) :
    Option (List (BitVec w)) :=
  tryScanRange (t.limbSize w) (fun i l => do
    let limbShift := shift / w
    let bitShift := shift % w
    let current ← value.readNormal (i + limbShift) l
    if bitShift = 0 then write t i current t.normalType l
    else
      let next ← value.readNormal (i + limbShift + 1) l
      write t i (combinedShiftRight (runtime current) (runtime next) bitShift).value
        t.normalType l) result

section

variable [NeZero w] {t : SpanType} {result : List (BitVec w)} {x : ℕ}
  (hu : t.signedness = .unsigned) (hlen : result.length = t.limbSize w)
include hu hlen

theorem shiftLeft_eq {value : BitSpan w} (hx : Holds value x) (shift : ℕ) :
    shiftLeft t value shift result = some (t.image w (x * 2 ^ shift : ℕ)) := by
  have hexp : ((x * 2 ^ shift : ℕ) : ℤ) = x * 2 ^ (w * (shift / w) + shift % w) := by
    rw [Nat.div_add_mod]
    push_cast
    rfl
  have hmod := (Nat.mod_lt shift (Nat.pos_of_ne_zero (NeZero.ne w))).le
  have hscan : ∃ l, shiftLeft t value shift result = some l ∧
      t.FilledFrom (x * 2 ^ (w * (shift / w) + shift % w)) 0 l := by
    unfold shiftLeft
    generalize shift / w = q
    generalize shift % w = r at hmod
    apply tryScanReverseRange_induction
      (P := fun i (l : List (BitVec w)) => t.FilledFrom (x * 2 ^ (w * q + r)) i l)
    · exact FilledFrom.start hlen _
    · intro i hi l hfilled
      simp only [hx.extendedRead_eq, Option.bind_eq_bind, Option.bind_some]
      split_ifs with hbelow hzero hprevious
      · refine ⟨_, write_zero hi l, hfilled.step hi ?_⟩
        rw [digit_shiftLeft_below _ _ hbelow]
        exact (t.stored_zero i _).trans (t.stored_zero i _).symm
      · -- whole limbs only
        refine ⟨_, write_eq hu hi _ l, hfilled.step hi ?_⟩
        obtain ⟨j, rfl⟩ : ∃ j, i = q + j := ⟨i - q, by omega⟩
        rw [hzero, Nat.add_sub_cancel_left, digit, digit, mul_two_pow_ediv, pow_zero, mul_one]
      · refine ⟨_, write_eq hu hi _ l, hfilled.step hi ?_⟩
        obtain ⟨j, rfl⟩ : ∃ j, i = q + (j + 1) := ⟨i - q - 1, by omega⟩
        have hj : q + (j + 1) - q = j + 1 := by omega
        rw [digit_shiftLeft_above hmod, value_combinedShiftLeft, hj, value_runtime, value_runtime,
          Nat.add_sub_cancel, BitVec.or_comm]
      · refine ⟨_, write_eq hu hi _ l, hfilled.step hi ?_⟩
        obtain rfl : i = q := by omega
        rw [digit_shiftLeft_start, value_combinedShiftLeft, Nat.sub_self, value_runtime,
          value_runtime]
        simp
  obtain ⟨l, hl, hfilled⟩ := hscan
  rw [hl, hexp, hfilled.done]

theorem shiftRight_eq {value : Operand w} (hx : value.ReadsNormal result x) (shift : ℕ) :
    shiftRight t value shift result = some (t.image w (x / 2 ^ shift : ℕ)) := by
  have hexp : ((x / 2 ^ shift : ℕ) : ℤ) = x / 2 ^ (w * (shift / w) + shift % w) := by
    rw [Nat.div_add_mod]
    push_cast
    rfl
  have hmod := (Nat.mod_lt shift (Nat.pos_of_ne_zero (NeZero.ne w))).le
  have hscan : ∃ l, shiftRight t value shift result = some l ∧
      t.Filled result (x / 2 ^ (w * (shift / w) + shift % w)) (t.limbSize w) l := by
    unfold shiftRight
    generalize shift / w = q
    generalize shift % w = r at hmod
    apply tryScanRange_induction
      (P := fun i (l : List (BitVec w)) => t.Filled result (x / 2 ^ (w * q + r)) i l)
    · exact Filled.start t _ _
    · intro i hi l hfilled
      simp only [hx i (i + q) l (by omega) hfilled.rest, hx i (i + q + 1) l (by omega) hfilled.rest,
        Option.bind_eq_bind, Option.bind_some]
      split_ifs with hzero
      · refine ⟨_, write_eq hu hi _ l, hfilled.step (hlen ▸ hi) ?_⟩
        rw [hzero, digit_shiftRight (Nat.zero_le w), Nat.add_comm]
        simp
      · refine ⟨_, write_eq hu hi _ l, hfilled.step (hlen ▸ hi) ?_⟩
        rw [value_combinedShiftRight, value_runtime, value_runtime, digit_shiftRight hmod,
          BitVec.or_comm, Nat.add_comm i q]
  obtain ⟨l, hl, hfilled⟩ := hscan
  rw [hl, hexp, hfilled.done hlen]

end

/-! ## Comparisons -/

/-- The loop of the macro `HMPC_COMPILETIME_COMPARE_EQUAL` over `n` limbs from limb `i` on. -/
def compareEqualFrom (default : Bool) (left right : BitSpan w) : ℕ → ℕ → Option Bit
  | 0, _ => some (BitVec.ofBool default)
  | n + 1, i => do
    let x ← extendedRead left i .normal
    let y ← extendedRead right i .normal
    if x ≠ y then some (BitVec.ofBool !default) else compareEqualFrom default left right n (i + 1)

def compareEqual (default : Bool) (left right : BitSpan w) : Option Bit :=
  compareEqualFrom default left right (Nat.max (left.type.limbSize w) (right.type.limbSize w)) 0

def equalTo (left right : BitSpan w) : Option Bit := compareEqual true left right
def notEqualTo (left right : BitSpan w) : Option Bit := compareEqual false left right

/-- The loop of the macro `HMPC_COMPILETIME_COMPARE` down from limb `i`. -/
def compareBelow (op : BitVec w → BitVec w → Bool) (default : Bool) (left right : BitSpan w) :
    ℕ → Option Bit
  | 0 => some (BitVec.ofBool default)
  | i + 1 => do
    let x ← extendedRead left i .normal
    let y ← extendedRead right i .normal
    if x ≠ y then some (BitVec.ofBool (op x y)) else compareBelow op default left right i

def compareOrder (op : BitVec w → BitVec w → Bool) (default : Bool) (left right : BitSpan w) :
    Option Bit :=
  compareBelow op default left right (Nat.max (left.type.limbSize w) (right.type.limbSize w))

def greater (left right : BitSpan w) : Option Bit :=
  compareOrder (fun x y => x > y) false left right
def less (left right : BitSpan w) : Option Bit :=
  compareOrder (fun x y => x < y) false left right
def greaterEqual (left right : BitSpan w) : Option Bit :=
  compareOrder (fun x y => x ≥ y) true left right
def lessEqual (left right : BitSpan w) : Option Bit :=
  compareOrder (fun x y => x ≤ y) true left right

section

variable [NeZero w] {left right : BitSpan w} {x y : ℕ}

/-- The limbs of a span that holds a number are the image of the number. -/
theorem Holds.eq_array (hx : Holds left x) : left = (left.type.array w x).toBitSpan := by
  have hlimbs := left.type.eq_image_of_lt hx.unsigned hx.length_eq (hx.value_eq.trans_lt hx.lt)
  rw [hx.value_eq] at hlimbs
  show left = BitSpan.mk left.type (left.type.image w x)
  rw [← hlimbs]

omit [NeZero w] in
theorem Holds.inRange (hx : Holds left x) : left.type.InRange x :=
  (left.type.inRange_unsigned hx.unsigned).mpr
    ⟨Int.natCast_nonneg x, by exact_mod_cast hx.lt⟩

theorem Holds.readable (hx : Holds left x) : (left.type.array w x).Readable where
  signed_pos hs := absurd (hx.unsigned.symm.trans hs) (by decide)
  isNormal _ := left.type.isNormal_array hx.inRange

theorem Holds.toInt_eq (hx : Holds left x) : (left.type.array w x).toInt = x := by
  rw [left.type.toInt_array, hx.inRange]

/-- The reads at run time give the same digits. -/
theorem Holds.denotesNormal (hx : Holds left x) : left.span.DenotesNormal x := by
  have hdigits := (left.type.array w x).denotesNormal_span hx.readable
  rwa [BitArray.storedInt_eq_toInt _ hx.readable.signed_pos (left.type.isNormal_array hx.inRange),
    hx.toInt_eq, ← hx.eq_array] at hdigits

/-- So do the reads that do not mask. -/
theorem Holds.unsigned_span (hx : Holds left x) : Num.Unsigned left.span x where
  denotes := by
    have hdenotes := left.type.array_denotes (w := w)
      (fun hs => absurd (hx.unsigned.symm.trans hs) (by decide)) hx.inRange
    rwa [← hx.eq_array] at hdenotes
  limbs := rfl
  nonneg := Int.natCast_nonneg x
  lt := by exact_mod_cast hx.lt

variable (hx : Holds left x) (hy : Holds right y)
include hx hy

/-- Nothing fails in a comparison, and it is the one without assertions. -/
theorem compareEqual_eq (default : Bool) : compareEqual default left right =
    some (Num.Compiletime.compareEqual default left.span right.span) := by
  have hleft := hx.denotesNormal
  have hright := hy.denotesNormal
  unfold compareEqual Num.Compiletime.compareEqual
  show compareEqualFrom default left right (Nat.max left.span.limbSize right.span.limbSize) 0 = _
  generalize Nat.max left.span.limbSize right.span.limbSize = n
  generalize 0 = i
  induction n generalizing i with
  | zero => rfl
  | succ n ih =>
      rw [compareEqualFrom, Num.Compiletime.compareEqualFrom, hx.extendedRead_eq,
        hy.extendedRead_eq, hleft i, hright i, ih]
      show (if _ then _ else _) = _
      split_ifs <;> rfl

theorem compareOrder_eq (op : BitVec w → BitVec w → Bool) (default : Bool) :
    compareOrder op default left right =
      some (Num.Compiletime.compareOrder op default left.span right.span) := by
  have hleft := hx.denotesNormal
  have hright := hy.denotesNormal
  unfold compareOrder Num.Compiletime.compareOrder
  show compareBelow op default left right (Nat.max left.span.limbSize right.span.limbSize) = _
  induction Nat.max left.span.limbSize right.span.limbSize with
  | zero => rfl
  | succ i ih =>
      rw [compareBelow, Num.Compiletime.compareBelow, hx.extendedRead_eq, hy.extendedRead_eq,
        hleft i, hright i, ih]
      show (if _ then _ else _) = _
      split_ifs <;> rfl

/-- The comparisons return those of the numbers. -/
theorem compare_eq : equalTo left right = some (bitOf (x = y)) ∧
    notEqualTo left right = some (bitOf (x ≠ y)) ∧
    less left right = some (bitOf (x < y)) ∧ lessEqual left right = some (bitOf (x ≤ y)) ∧
    greater left right = some (bitOf (x > y)) ∧
    greaterEqual left right = some (bitOf (x ≥ y)) := by
  have hexact := Num.compiletime_exact hx.readable hy.readable hx.unsigned hy.unsigned
  rw [hx.toInt_eq, hy.toInt_eq, ← hx.eq_array, ← hy.eq_array] at hexact
  obtain ⟨hequal, hnot, hless, hle, hgreater, hge⟩ := hexact
  refine ⟨?_, ?_, ?_, ?_, ?_, ?_⟩
  · rw [equalTo, compareEqual_eq hx hy]
    exact congrArg some (hequal.trans (Num.bitOf_congr Nat.cast_inj))
  · rw [notEqualTo, compareEqual_eq hx hy]
    exact congrArg some (hnot.trans (Num.bitOf_congr (not_congr Nat.cast_inj)))
  · rw [less, compareOrder_eq hx hy]
    exact congrArg some (hless.trans (Num.bitOf_congr Nat.cast_lt))
  · rw [lessEqual, compareOrder_eq hx hy]
    exact congrArg some (hle.trans (Num.bitOf_congr Nat.cast_le))
  · rw [greater, compareOrder_eq hx hy]
    exact congrArg some (hgreater.trans (Num.bitOf_congr Nat.cast_lt))
  · rw [greaterEqual, compareOrder_eq hx hy]
    exact congrArg some (hge.trans (Num.bitOf_congr Nat.cast_le))

end

/-! ## Single bits -/

/-- `extract_bit(value, bit)` -/
def extractBit (value : BitSpan w) (bit : ℕ) : Option Bit := do
  return Core.extractBit (bit % w) (← extendedRead value (bit / w) value.type.normalType)

/-- The loop of `bit_width`, down from limb `i`. -/
def bitWidthBelow (value : BitSpan w) : ℕ → Option ℕ
  | 0 => some 0
  | i + 1 => do
    let width := Core.bitWidth (← read value i value.type.normalType)
    if width ≠ 0 then some (width + i * w) else bitWidthBelow value i

/-- `bit_width(value)` -/
def bitWidth (value : BitSpan w) : Option ℕ := bitWidthBelow value (value.type.limbSize w)

/-- The loop of `countr_zero`, over `n` limbs from limb `i` on. -/
def countrZeroFrom (value : BitSpan w) : ℕ → ℕ → Option ℕ
  | 0, _ => some value.type.bitSize
  | n + 1, i => do
    let count := Core.countrZero (← read value i value.type.normalType)
    if count ≠ w then some (Nat.min (i * w + count) value.type.bitSize)
    else countrZeroFrom value n (i + 1)

/-- `countr_zero(value)` -/
def countrZero (value : BitSpan w) : Option ℕ := countrZeroFrom value (value.type.limbSize w) 0

theorem Sound.value_lt {x : BitSpan w} (h : Sound x) :
    value x.limbs < (2 ^ w) ^ x.type.limbSize w := by
  rw [← h.length_eq]
  exact Lib.Limbs.value_lt x.limbs

/-- A bit of the limbs, also above those of the span. -/
theorem extractBit_eq [NeZero w] {x : BitSpan w} (h : Sound x) (bit : ℕ) :
    extractBit x bit = some (BitVec.ofBool ((value x.limbs).testBit bit)) := by
  have hmod := Nat.mod_lt bit (Nat.pos_of_ne_zero (NeZero.ne w))
  rw [extractBit, h.extendedRead_own, digit_value, Option.bind_eq_bind, Option.bind_some,
    Option.pure_def, Core.extractBit_eq hmod, BitVec.getLsbD, toNat_getD, ← pow_mul,
    Nat.testBit_mod_two_pow, decide_eq_true hmod, Bool.true_and, Nat.testBit_div_two_pow,
    Nat.mod_add_div]

/-- The width of all limbs, also when there are bits above those of the span. -/
theorem bitWidth_eq {x : BitSpan w} (h : Sound x) : bitWidth x = some (value x.limbs).size := by
  have hbelow : ∀ i ≤ x.type.limbSize w,
      bitWidthBelow x i = some (value x.limbs % (2 ^ w) ^ i).size := by
    intro i hi
    induction i with
    | zero => simp [bitWidthBelow, Nat.mod_one]
    | succ i ih =>
        have hread := h.read_own (show i < x.type.limbSize w by omega)
        have hsplit : value x.limbs % (2 ^ w) ^ (i + 1) = value x.limbs % (2 ^ w) ^ i +
            2 ^ (w * i) * (x.limbs.getD i 0).toNat := by
          rw [toNat_getD, pow_succ, Nat.mod_mul, pow_mul]
        have hlow : value x.limbs % (2 ^ w) ^ i < 2 ^ (w * i) := by
          rw [pow_mul]
          exact Nat.mod_lt _ (by positivity)
        rw [bitWidthBelow, hread, Option.bind_eq_bind, Option.bind_some, hsplit]
        dsimp only
        split_ifs with hwidth
        · have hpos : 0 < (x.limbs.getD i 0).toNat := by
            rw [← Nat.size_pos]
            exact Nat.pos_of_ne_zero hwidth
          rw [size_add_mul hlow hpos, Core.bitWidth, Nat.mul_comm i]
        · rw [ne_eq, not_not, bitWidth_eq_zero_iff] at hwidth
          rw [hwidth, ih (by omega)]
          rfl
  rw [bitWidth, hbelow _ le_rfl, Nat.mod_eq_of_lt h.value_lt]

/-- The zeros below the lowest bit, also when there are bits above those of the span. -/
theorem countrZero_eq {x : BitSpan w} (h : Sound x) :
    ∃ k, countrZero x = some k ∧ LargestPower x.type.bitSize (value x.limbs) k := by
  have hfrom : ∀ n i, i + n = x.type.limbSize w → (2 ^ w) ^ i ∣ value x.limbs →
      ∃ k, countrZeroFrom x n i = some k ∧ LargestPower x.type.bitSize (value x.limbs) k := by
    intro n
    induction n with
    | zero =>
        -- all limbs are zero
        intro i hi hzeros
        have hzero : value x.limbs = 0 := by
          apply value_eq_zero_of_dvd
          rwa [h.length_eq, ← hi]
        rw [hzero]
        exact ⟨_, rfl, LargestPower.zero _⟩
    | succ n ih =>
        intro i hi hzeros
        rw [countrZeroFrom, h.read_own (by omega), Option.bind_eq_bind, Option.bind_some]
        by_cases hlimb : x.limbs.getD i 0 = 0
        · rw [hlimb, countrZero_zero, if_neg (not_not.mpr rfl)]
          exact ih (i + 1) (by omega) (pow_succ_dvd hzeros hlimb)
        · rw [if_pos (countrZero_spec hlimb).1.ne]
          exact ⟨_, rfl, largestPower_of_limb hzeros hlimb⟩
  exact hfrom _ 0 (Nat.zero_add _) (by rw [pow_zero]; exact one_dvd _)

/-! ## Products -/

/-- The inner loop of `multiply`, with the array of the product. -/
def multiplyRow (t array : SpanType) (left right : BitSpan w) (i : ℕ)
    (intermediate : List (BitVec w)) : Option (List (BitVec w) × BitVec w) :=
  tryScanRange (Nat.min (array.limbSize w - i) (left.type.limbSize w)) (fun j s => do
    let leftValue ← read left j left.type.normalType
    let rightValue ← read right i right.type.normalType
    let k := i + j
    let current ← (if i = 0 then some 0 else read ⟨array, s.1⟩ k array.normalType)
    if k + 1 < t.limbSize w then
      let r := extendedMultiplyAdd (runtime leftValue) (runtime rightValue) (runtime current)
        (runtime s.2)
      return (← write array k r.lower.value array.normalType s.1, r.upper.value)
    else if k = t.limbSize w - 1 then
      let value := (multiplyAdd (runtime leftValue) (runtime rightValue) (runtime current)
        (runtime s.2)).value
      return (← write array k value array.normalType s.1, 0)
    else none) (intermediate, 0)

/-- The outer loop of `multiply`. -/
def multiplyRows (t array : SpanType) (left right : BitSpan w) (intermediate : List (BitVec w)) :
    Option (List (BitVec w)) :=
  tryScanRange (Nat.min (array.limbSize w) (right.type.limbSize w)) (fun i l =>
    if array.limbSize w ≥ i then do
      let row ← multiplyRow t array left right i l
      if array.limbSize w > left.type.limbSize w + i then
        write array (i + left.type.limbSize w) row.2 array.normalType row.1
      else some row.1
    else none) intermediate

/-- `multiply(result, left, right)` -/
def multiply (t : SpanType) (left right : Operand w) (result : List (BitVec w)) :
    Option (List (BitVec w)) := do
  let left := left.span result
  let right := right.span result
  let array := compiletimeArray (Nat.min t.bitSize (left.type.bitSize + right.type.bitSize))
  let n := array.limbSize w
  let intermediate ← multiplyRows t array left right (List.replicate n 0)
  let copied ← tryScanRange n (fun i l => do
    write t i (← read ⟨array, intermediate⟩ i array.normalType) t.normalType l) result
  tryScanRange (t.limbSize w - n) (fun i l => write t (n + i) 0 .unnormal l) copied

section

variable [NeZero w] {t : SpanType} {left right : BitSpan w} {result : List (BitVec w)}

/-- The limbs depend on the values alone, not on which of them are constants. -/
theorem extendedMultiplyAdd_congr {a a' b b' c c' d d' : MaybeConstant (BitVec w)}
    (ha : a.value = a'.value) (hb : b.value = b'.value) (hc : c.value = c'.value)
    (hd : d.value = d'.value) :
    (extendedMultiplyAdd a b c d).lower.value = (extendedMultiplyAdd a' b' c' d').lower.value ∧
      (extendedMultiplyAdd a b c d).upper.value =
        (extendedMultiplyAdd a' b' c' d').upper.value := by
  have h : _ + _ = _ := equals_extendedMultiplyAdd a b c d
  have h' : _ + _ = _ := equals_extendedMultiplyAdd a' b' c' d'
  rw [ha, hb, hc, hd, ← h'] at h
  generalize (extendedMultiplyAdd a b c d) = r at h
  generalize (extendedMultiplyAdd a' b' c' d') = r' at h
  have hlower : r.lower.value.toNat = r'.lower.value.toNat := by
    have hmod := congrArg (· % 2 ^ w) h
    simp only [Nat.add_mul_mod_self_left] at hmod
    rwa [Nat.mod_eq_of_lt (BitVec.isLt _), Nat.mod_eq_of_lt (BitVec.isLt _)] at hmod
  rw [hlower] at h
  refine ⟨BitVec.eq_of_toNat_eq hlower, BitVec.eq_of_toNat_eq ?_⟩
  exact Nat.eq_of_mul_eq_mul_left (Nat.two_pow_pos w) (Nat.add_left_cancel h)

omit [NeZero w] in
/-- An array that is not normal is read and written as it is. -/
theorem read_compiletimeArray {bits i : ℕ} (hi : i < (compiletimeArray bits).limbSize w)
    (l : List (BitVec w)) :
    read ⟨compiletimeArray bits, l⟩ i (compiletimeArray bits).normalType = some (l.getD i 0) := by
  unfold read compiletimeArray at *
  simp [hi]

omit [NeZero w] in
theorem write_compiletimeArray {bits i : ℕ} (hi : i < (compiletimeArray bits).limbSize w)
    (v : BitVec w) (l : List (BitVec w)) :
    write (compiletimeArray bits) i v (compiletimeArray bits).normalType l =
      some (l.set i v) := by
  unfold write compiletimeArray at *
  simp [hi]

variable (hl : Sound left) (hr : Sound right)
include hl hr

/-- A row is the one at run time. -/
theorem multiplyRow_eq {bits i : ℕ} (hbits : bits ≤ t.bitSize)
    (hi : i < Nat.min ((compiletimeArray bits).limbSize w) (right.type.limbSize w))
    (l : List (BitVec w)) :
    multiplyRow t (compiletimeArray bits) left right i l =
      let row := Num.multiplyRow t (limbSizeFor w bits) left.span (right.span.read i) i l
      some (row.1, row.2.value) := by
  have hn : (compiletimeArray bits).limbSize w = limbSizeFor w bits := rfl
  have hnt : limbSizeFor w bits ≤ t.limbSize w := limbSizeFor_mono hbits
  have hin : i < (compiletimeArray bits).limbSize w := lt_of_lt_of_le hi (Nat.min_le_left _ _)
  have hir : i < right.type.limbSize w := lt_of_lt_of_le hi (Nat.min_le_right _ _)
  unfold multiplyRow Num.multiplyRow
  refine tryScanRange_map (r := fun s : List (BitVec w) × MaybeConstant (BitVec w) =>
    (s.1, s.2.value)) ?_ (l, zero w)
  -- one limb of the row: what is read there is in range, and what is written too
  rintro j hj ⟨l, c⟩
  have hjn : i + j < limbSizeFor w bits := by
    have := lt_of_lt_of_le hj (Nat.min_le_left _ _)
    omega
  have hjl : j < left.type.limbSize w := lt_of_lt_of_le hj (Nat.min_le_right _ _)
  have hleft : (runtime (left.read j left.type.normalType)).value = (left.span.read j).value := by
    show _ = (left.extendedRead j left.type.normalType).value
    rw [BitSpan.extendedRead, if_pos hjl]
  have hright : (runtime (right.read i right.type.normalType)).value =
      (right.span.read i).value := by
    show _ = (right.extendedRead i right.type.normalType).value
    rw [BitSpan.extendedRead, if_pos hir]
  have hcurrent : (if i = 0 then some 0 else
      read ⟨compiletimeArray bits, l⟩ (i + j) (compiletimeArray bits).normalType) =
        some (if i = 0 then zero w else runtime (l.getD (i + j) 0)).value := by
    split_ifs
    · rfl
    · rw [read_compiletimeArray hjn]
      rfl
  dsimp only
  generalize (if i = 0 then zero w else runtime (l.getD (i + j) 0)) = current at hcurrent ⊢
  simp only [hl.read_eq hjl, hr.read_eq hir, hcurrent, Option.bind_eq_bind, Option.bind_some]
  obtain ⟨hlower, hupper⟩ := extendedMultiplyAdd_congr hleft hright (value_runtime current.value)
    (value_runtime c.value)
  -- the last limb of the result has no carry to pass on
  by_cases hk : i + j + 1 < t.limbSize w
  · simp only [if_pos hk, write_compiletimeArray hjn, hlower, hupper,
      Option.bind_some, Option.pure_def]
  · have hlast : i + j = t.limbSize w - 1 := by omega
    simp only [if_neg hk, if_pos hlast, write_compiletimeArray hjn, multiplyAdd_eq_lower, hlower,
      Option.bind_some, Option.pure_def]
    rfl

/-- All rows are those at run time. -/
theorem multiplyRows_eq {bits : ℕ} (hbits : bits ≤ t.bitSize) (l : List (BitVec w)) :
    multiplyRows t (compiletimeArray bits) left right l =
      some (Num.multiplyRows t (limbSizeFor w bits) left.span right.span l) := by
  unfold multiplyRows Num.multiplyRows
  refine tryScanRange_map (r := id) ?_ l
  intro i hi l
  have hin : i < (compiletimeArray bits).limbSize w := lt_of_lt_of_le hi (Nat.min_le_left _ _)
  rw [if_pos hin.le, id, multiplyRow_eq hl hr hbits hi, Option.bind_eq_bind, Option.bind_some]
  dsimp only [id]
  by_cases hcarry : limbSizeFor w bits > left.type.limbSize w + i
  · have hwrite : i + left.type.limbSize w < (compiletimeArray bits).limbSize w := by
      rw [Nat.add_comm]
      exact hcarry
    rw [if_pos (show limbSizeFor w bits > left.span.limbSize + i from hcarry),
      if_pos (show (compiletimeArray bits).limbSize w > left.type.limbSize w + i from hcarry),
      write_compiletimeArray hwrite]
    rfl
  · rw [if_neg (show ¬ limbSizeFor w bits > left.span.limbSize + i from hcarry),
      if_neg (show ¬ (compiletimeArray bits).limbSize w > left.type.limbSize w + i from hcarry)]

omit hl hr in
/-- At compile time the product is written as at run time, for operands that share the limbs of the
result as well, and the limbs above the array are cleared. -/
theorem multiply_eq_runtime {left right : Operand w} (hu : t.signedness = .unsigned)
    (hl : Sound (left.span result)) (hr : Sound (right.span result)) :
    let n := limbSizeFor w (Nat.min t.bitSize
      ((left.span result).type.bitSize + (right.span result).type.bitSize))
    multiply t left right result = some (scanRange (t.limbSize w - n)
      (fun i l => t.write (n + i) 0 .unnormal l)
      (Num.multiply t (left.span result).span (right.span result).span (List.replicate n 0)
        result)) := by
  generalize hbits : Nat.min t.bitSize
    ((left.span result).type.bitSize + (right.span result).type.bitSize) = bits
  have hle : bits ≤ t.bitSize := hbits ▸ Nat.min_le_left _ _
  have hn : (compiletimeArray bits).limbSize w = limbSizeFor w bits := rfl
  have hnt : limbSizeFor w bits ≤ t.limbSize w := limbSizeFor_mono hle
  unfold multiply Num.multiply
  dsimp only
  rw [hbits, multiplyRows_eq hl hr hle, Option.bind_eq_bind, Option.bind_some, hn,
    show Nat.min t.bitSize ((left.span result).span.bitSize + (right.span result).span.bitSize) =
      bits from hbits]
  generalize Num.multiplyRows t (limbSizeFor w bits) (left.span result).span
    (right.span result).span (List.replicate (limbSizeFor w bits) 0) = intermediate
  -- the product is copied limb by limb, and the rest of the result cleared
  have hcopied : tryScanRange (limbSizeFor w bits) (fun i l => do
      write t i (← read ⟨compiletimeArray bits, intermediate⟩ i
        (compiletimeArray bits).normalType) t.normalType l) result =
      some (scanRange (limbSizeFor w bits)
        (fun i l => t.write i (intermediate.getD i 0) t.normalType l) result) := by
    refine tryScanRange_map (r := id) ?_ result
    intro i hi l
    rw [read_compiletimeArray hi, Option.bind_eq_bind, Option.bind_some]
    exact write_eq hu (by omega) _ l
  rw [hcopied, Option.bind_some]
  refine tryScanRange_map (r := id) ?_ _
  intro i hi l
  exact write_zero (by omega) l

omit hl hr in
/-- The product, also when the right operand has no limbs: at compile time the array starts with
zeros. -/
theorem multiply_eq {left right : Operand w} {x y : ℕ} (hu : t.signedness = .unsigned)
    (hlen : result.length = t.limbSize w) (hx : Holds (left.span result) x)
    (hy : Holds (right.span result) y) :
    multiply t left right result = some (t.image w (x * y : ℕ)) := by
  rw [multiply_eq_runtime hu hx.sound hy.sound]
  congr 1
  push_cast
  have hx' := hx.unsigned_span
  have hy' := hy.unsigned_span
  refine Num.clearAbove_eq ?_ hlen (limbSizeFor_mono (Nat.min_le_left _ _))
    fun k hk hkt => Num.digit_product_above hx' hy' rfl hk hkt
  by_cases hright : (right.span result).type.bitSize = 0
  · -- no rows, and the product is zero
    have hy₀ : y = 0 := by
      have hlt := hy.lt
      rw [hright] at hlt
      exact Nat.lt_one_iff.mp hlt
    have hrows : (right.span result).span.limbSize = 0 := by
      show limbSizeFor w (right.span result).type.bitSize = 0
      rw [hright, limbSizeFor_zero]
    rw [hy₀, Nat.cast_zero, mul_zero]
    refine Num.multiply_filled_of_no_rows (left.span result).span hrows ?_ hlen
    intro k
    rw [List.getD_eq_getElem?_getD, List.getElem?_replicate]
    split_ifs <;> rfl
  · exact Num.multiply_filled hx' hy' (fun h => absurd h hright) (List.length_replicate ..) hlen

end

/-- What a product `l` of `x` and `y` is that `multiply` writes at run time, whatever its array held
before. The operands may share the limbs of the result. -/
structure MultipliesModulo (t : SpanType) (left right : Operand w)
    (result uninitialized : List (BitVec w)) (x y : ℕ) (l : List (BitVec w)) : Prop where
  /-- The product modulo the width of the result is written. -/
  product : value l % 2 ^ t.bitSize = x * y % 2 ^ t.bitSize
  /-- A `normal` result has no bits above. -/
  normal : t.normalType = .normal → value l < 2 ^ t.bitSize
  /-- The limbs above the product are zero. -/
  upper : ∀ i, x * y < (2 ^ w) ^ i → l.getD i 0 = 0
  /-- After some rows the array holds the product with the lower limbs of the right operand, which
  fits the limbs of the rows. -/
  rows : ∀ n, 0 < n →
    (x : ℤ) * (y % (2 ^ w) ^ n) < (2 ^ w) ^ (n + (left.span result).span.limbSize) ∧
    ∀ k < uninitialized.length, k < n + (left.span result).span.limbSize →
      (Num.partialProduct t uninitialized.length (left.span result).span (right.span result).span
        uninitialized n).getD k 0 = digit w (x * (y % (2 ^ w) ^ n)) k
  /-- What the array has no limbs for, the result has none for either. -/
  cut : ∀ n, (x : ℤ) * (y % (2 ^ w) ^ n) < (2 ^ w) ^ uninitialized.length ∨
    uninitialized.length = t.limbSize w
  /-- Nothing fails at compile time, and the same limbs are written. -/
  compiletime : multiply t left right result = some l

section

variable [NeZero w] {t : SpanType} {left right : Operand w}
  {result uninitialized : List (BitVec w)} {x y : ℕ}

/-- Where `multiply` compiles, it writes the product. -/
theorem multipliesModulo_of_compiles (hu : t.signedness = .unsigned)
    (hlen : result.length = t.limbSize w) (hx : Holds (left.span result) x)
    (hy : Holds (right.span result) y) (hright : 0 < (right.span result).type.limbSize w)
    (hun : uninitialized.length = limbSizeFor w (Nat.min t.bitSize
      ((left.span result).type.bitSize + (right.span result).type.bitSize)))
    (hcompiles : Num.MultiplyCompiles t (left.span result).span (right.span result).span) :
    MultipliesModulo t left right result uninitialized x y
      (Num.multiply t (left.span result).span (right.span result).span uninitialized result) := by
  have hbits : (right.span result).span.bitSize ≠ 0 := by
    intro hzero
    have hlimbs : (right.span result).type.limbSize w = limbSizeFor w 0 := congrArg _ hzero
    rw [limbSizeFor_zero] at hlimbs
    omega
  have hx' := hx.unsigned_span
  have hy' := hy.unsigned_span
  have hruntime := Num.multiply_eq (t := t) hx' hy' (fun h => absurd h hbits) hcompiles hun hlen
  have hn : uninitialized.length ≤ t.limbSize w := hun ▸ limbSizeFor_mono (Nat.min_le_left _ _)
  have hpos := pow_pos (two_pos : (0 : ℤ) < 2) t.bitSize
  rw [hruntime]
  -- modulo the width, below it, above the product, by rows, cut off, and at compile time
  refine ⟨?_, ?_, ?_, ?_, ?_, ?_⟩
  · exact_mod_cast t.value_image_mod (w := w) (x * y)
  · intro hnormal
    have hkept := value_image (w := w) hu (x * y)
    unfold kept at hkept
    rw [hnormal] at hkept
    rw [hkept]
    zify
    rw [Int.toNat_of_nonneg (Int.emod_nonneg _ hpos.ne')]
    exact Int.emod_lt_of_pos _ hpos
  · intro i hi
    rcases Nat.lt_or_ge i (t.limbSize w) with hlt | hge
    · have hdigit : digit w ((x : ℤ) * y) i = 0 :=
        digit_of_lt (by positivity) (by exact_mod_cast hi) le_rfl
      rw [getD_image t hlt, hdigit, t.stored_zero]
    · rw [List.getD_eq_getElem?_getD, List.getElem?_eq_none (by rwa [t.length_image])]
      rfl
  · intro n hrows
    refine ⟨Num.partialProduct_lt hx'.limbed n, ?_⟩
    exact (Num.partialProduct_eq hn hx'.limbed hy'.denotes rfl n).2 hrows
  · intro n
    refine (Num.product_cut hx' hy' hun).imp_left (lt_of_le_of_lt ?_)
    apply mul_le_mul_of_nonneg_left _ (Int.natCast_nonneg x)
    exact_mod_cast Nat.mod_le y ((2 ^ w) ^ n)
  · rw [multiply_eq hu hlen hx hy]
    push_cast
    rfl

/-- Products of all widths, written to results of all widths: `multiply` compiles, and writes the
product, exactly when the result has no more limbs than the widths of the operands together. -/
theorem multiplies_modulo_iff (left right : Operand w) (hu : t.signedness = .unsigned)
    (hlen : result.length = t.limbSize w) (hx : Holds (left.span result) x)
    (hy : Holds (right.span result) y) (hright : 0 < (right.span result).type.limbSize w)
    (hun : uninitialized.length = limbSizeFor w (Nat.min t.bitSize
      ((left.span result).type.bitSize + (right.span result).type.bitSize))) :
    (∃ l, Num.tryMultiply t (left.span result).span (right.span result).span uninitialized result =
      some l ∧ MultipliesModulo t left right result uninitialized x y l) ↔
      t.limbSize w ≤
        limbSizeFor w ((left.span result).type.bitSize + (right.span result).type.bitSize) := by
  have hwidth : Num.MultiplyCompiles t (left.span result).span (right.span result).span ↔
      t.limbSize w ≤
        limbSizeFor w ((left.span result).type.bitSize + (right.span result).type.bitSize) :=
    Num.multiplyCompiles_iff
  rw [← hwidth]
  constructor
  · rintro ⟨l, hl, -⟩
    by_contra hcompiles
    rw [Num.tryMultiply_none hcompiles] at hl
    cases hl
  · intro hcompiles
    exact ⟨_, Num.tryMultiply_eq hcompiles _ _,
      multipliesModulo_of_compiles hu hlen hx hy hright hun hcompiles⟩

end

/-- `2748 * 5`, written over the left operand of twelve bits. -/
theorem multiplies_modulo_shared :
    ∃ l, Num.tryMultiply (w := 8) ⟨12, .unsigned, .normal⟩
      (BitSpan.mk ⟨12, .unsigned, .normal⟩ [188, 10]).span
      (BitSpan.mk ⟨3, .unsigned, .normal⟩ [5]).span [255, 255] [188, 10] = some l ∧
      MultipliesModulo ⟨12, .unsigned, .normal⟩ (.shared ⟨12, .unsigned, .normal⟩)
        (.apart ⟨⟨3, .unsigned, .normal⟩, [5]⟩) [188, 10] [255, 255] 2748 5 l :=
  (multiplies_modulo_iff (.shared ⟨12, .unsigned, .normal⟩)
    (.apart ⟨⟨3, .unsigned, .normal⟩, [5]⟩) rfl rfl ⟨rfl, rfl, by decide, by decide⟩
    ⟨rfl, rfl, by decide, by decide⟩ (by decide) (by decide)).mpr (by decide)

/-- `2 * 3` of one limb each: a result of three limbs does not compile, while the version for
compile time writes it. -/
theorem not_multiplies_modulo_wide :
    let t : SpanType := ⟨96, .unsigned, .normal⟩
    let left : BitSpan 32 := ⟨⟨32, .unsigned, .normal⟩, [2]⟩
    let right : BitSpan 32 := ⟨⟨32, .unsigned, .normal⟩, [3]⟩
    Holds left 2 ∧ Holds right 3 ∧
      ¬(∃ l, Num.tryMultiply t left.span right.span [0, 0] [0, 0, 0] = some l ∧
        MultipliesModulo t (.apart left) (.apart right) [0, 0, 0] [0, 0] 2 3 l) ∧
      multiply t (.apart left) (.apart right) [0, 0, 0] = some [6, 0, 0] := by
  refine ⟨⟨rfl, rfl, by decide, by decide⟩, ⟨rfl, rfl, by decide, by decide⟩, ?_, by decide⟩
  rintro ⟨l, hl, -⟩
  rw [Num.tryMultiply_none (by decide)] at hl
  cases hl

end Hmpc.Core.Checked
