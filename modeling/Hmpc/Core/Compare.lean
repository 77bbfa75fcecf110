/-
# Hmpc.Core.Compare -- comparisons of bit spans

Equality goes through all limbs, the four orderings go down from the highest limb and keep the
first decision; a span that is shorter continues with its sign. Two spans of different signedness
are told apart by their signs in the orderings, in the equalities only when both have the same
number of bits and fill their limbs. What the functions compute is said in terms of the integers
whose digits are read; for which arrays this is the comparison of the integers they denote is the
last part.
-/
import Hmpc.Core.BitSpan
import Hmpc.Lib.Loops

namespace Hmpc.Core

open Hmpc.Lib.Loops Hmpc.Lib.Limbs Hmpc.Lib.Digits MaybeConstant

variable {w : ℕ}

/-- `compare_result` -/
structure CompareResult where
  result : MaybeConstant Bit
  determined : MaybeConstant Bit

namespace Num

/-- The equalities tell signs apart only for these types. -/
def ComparesSigns (left right : Span w) : Prop :=
  left.signedness ≠ right.signedness ∧ left.bitSize = right.bitSize ∧ left.bitSize % w = 0

instance (left right : Span w) : Decidable (ComparesSigns left right) := by
  unfold ComparesSigns
  infer_instance

/-- The macro `HMPC_COMPARE_EQUAL`. -/
def compareEqual (name : ∀ {v : ℕ}, MaybeConstant (BitVec v) → MaybeConstant (BitVec v) →
    MaybeConstant Bit) (default : Bit)
    (join : MaybeConstant Bit → MaybeConstant Bit → MaybeConstant Bit)
    (left right : Span w) : Bit :=
  let initialResult :=
    if ComparesSigns left right then name left.sign right.sign else constant default
  (scanRange (Nat.max left.limbSize right.limbSize) (fun i result =>
    join result (name (left.readNormal i) (right.readNormal i))) initialResult).value

def equalTo (left right : Span w) : Bit := compareEqual Core.equalTo 1 bitAnd left right
def notEqualTo (left right : Span w) : Bit := compareEqual Core.notEqualTo 0 bitOr left right

/-- The macro `HMPC_COMPARE`. -/
def compareOrder (name : MaybeConstant (BitVec w) → MaybeConstant (BitVec w) → MaybeConstant Bit)
    (negativeName : MaybeConstant Bit → MaybeConstant Bit → MaybeConstant Bit) (default : Bit)
    (left right : Span w) : Bit :=
  let initialResult : CompareResult :=
    if left.signedness = .unsigned ∧ right.signedness = .unsigned then
      ⟨constant default, constant 0⟩
    else ⟨negativeName left.sign right.sign, Core.notEqualTo left.sign right.sign⟩
  (scanReverseRange (Nat.max left.limbSize right.limbSize) (fun i result =>
    let x := left.readNormal i
    let y := right.readNormal i
    let notEqual := Core.notEqualTo x y
    let nowDetermined := bitOr result.determined notEqual
    ⟨select result.result (name x y) (bitAnd (bitNot result.determined) notEqual),
      nowDetermined⟩) initialResult).result.value

def greater (left right : Span w) : Bit := compareOrder Core.greater Core.less 0 left right
def less (left right : Span w) : Bit := compareOrder Core.less Core.greater 0 left right
def greaterEqual (left right : Span w) : Bit :=
  compareOrder Core.greaterEqual Core.lessEqual 1 left right
def lessEqual (left right : Span w) : Bit :=
  compareOrder Core.lessEqual Core.greaterEqual 1 left right

/-! ## The compile-time versions -/

namespace Compiletime

/-- The loop of the macro `HMPC_COMPILETIME_COMPARE_EQUAL` over `n` limbs from limb `i` on; it
returns at the first difference. -/
def compareEqualFrom (default : Bool) (left right : Span w) : ℕ → ℕ → Bit
  | 0, _ => BitVec.ofBool default
  | n + 1, i =>
      if (left.readNormal i).value ≠ (right.readNormal i).value then BitVec.ofBool !default
      else compareEqualFrom default left right n (i + 1)

def compareEqual (default : Bool) (left right : Span w) : Bit :=
  compareEqualFrom default left right (Nat.max left.limbSize right.limbSize) 0

def equalTo (left right : Span w) : Bit := compareEqual true left right
def notEqualTo (left right : Span w) : Bit := compareEqual false left right

/-- The loop of the macro `HMPC_COMPILETIME_COMPARE` down from limb `i`. -/
def compareBelow (op : BitVec w → BitVec w → Bool) (default : Bool) (left right : Span w) : ℕ → Bit
  | 0 => BitVec.ofBool default
  | i + 1 =>
      let x := (left.readNormal i).value
      let y := (right.readNormal i).value
      if x ≠ y then BitVec.ofBool (op x y) else compareBelow op default left right i

def compareOrder (op : BitVec w → BitVec w → Bool) (default : Bool) (left right : Span w) : Bit :=
  compareBelow op default left right (Nat.max left.limbSize right.limbSize)

def greater (left right : Span w) : Bit := compareOrder (fun x y => x > y) false left right
def less (left right : Span w) : Bit := compareOrder (fun x y => x < y) false left right
def greaterEqual (left right : Span w) : Bit := compareOrder (fun x y => x ≥ y) true left right
def lessEqual (left right : Span w) : Bit := compareOrder (fun x y => x ≤ y) true left right

end Compiletime

/-! ## Equality -/

theorem and_eq_one_iff (a b : Bit) : a &&& b = 1 ↔ a = 1 ∧ b = 1 := by
  revert a b
  decide

theorem or_eq_zero_iff (a b : Bit) : a ||| b = 0 ↔ a = 0 ∧ b = 0 := by
  revert a b
  decide

/-- What the equalities test. -/
def SameDigits (left right : Span w) (x y : ℤ) : Prop :=
  (ComparesSigns left right → left.sign.value = right.sign.value) ∧
    ∀ i < Nat.max left.limbSize right.limbSize, digit w x i = digit w y i

section Equality

variable {left right : Span w} {x y : ℤ}

theorem equalTo_eq_one_iff (hx : left.Represents x) (hy : right.Represents y) :
    equalTo left right = 1 ↔ SameDigits left right x y := by
  unfold equalTo compareEqual
  apply scanRange_induction (P := fun i (result : MaybeConstant Bit) => result.value = 1 ↔
    (ComparesSigns left right → left.sign.value = right.sign.value) ∧
      ∀ j < i, digit w x j = digit w y j)
  · by_cases hsign : ComparesSigns left right
    · rw [if_pos hsign, value_equalTo, bitOf_eq_one_iff]
      simp [hsign]
    · simp [hsign]
  · intro i _ result ih
    rw [value_bitAnd, and_eq_one_iff, ih, value_equalTo, bitOf_eq_one_iff, hx.digits i,
      hy.digits i, Nat.forall_lt_succ_right, and_assoc]

theorem notEqualTo_eq_zero_iff (hx : left.Represents x) (hy : right.Represents y) :
    notEqualTo left right = 0 ↔ SameDigits left right x y := by
  unfold notEqualTo compareEqual
  apply scanRange_induction (P := fun i (result : MaybeConstant Bit) => result.value = 0 ↔
    (ComparesSigns left right → left.sign.value = right.sign.value) ∧
      ∀ j < i, digit w x j = digit w y j)
  · by_cases hsign : ComparesSigns left right
    · rw [if_pos hsign, value_notEqualTo, bitOf_eq_zero_iff, not_not]
      simp [hsign]
    · simp [hsign]
  · intro i _ result ih
    rw [value_bitOr, or_eq_zero_iff, ih, value_notEqualTo, bitOf_eq_zero_iff, not_not,
      hx.digits i, hy.digits i, Nat.forall_lt_succ_right, and_assoc]

/-- Digits below all limbs and the sign above them determine the integer. -/
theorem eq_iff_digits (hx : left.Represents x) (hy : right.Represents y) :
    x = y ↔ left.sign.value = right.sign.value ∧
      ∀ i < Nat.max left.limbSize right.limbSize, digit w x i = digit w y i := by
  have hax := hx.above _ (Nat.le_max_left left.limbSize right.limbSize)
  have hay := hy.above _ (Nat.le_max_right left.limbSize right.limbSize)
  have hdx := Int.emod_add_mul_ediv x ((2 ^ w) ^ Nat.max left.limbSize right.limbSize)
  have hdy := Int.emod_add_mul_ediv y ((2 ^ w) ^ Nat.max left.limbSize right.limbSize)
  constructor
  · rintro rfl
    refine ⟨BitVec.eq_of_toNat_eq ?_, fun i _ => rfl⟩
    omega
  · rintro ⟨hsign, hdigits⟩
    rw [← hdx, ← hdy, emod_congr hdigits, hax, hay, hsign]

/-- Unsigned integers with the same digits are equal. -/
theorem sameDigits_iff_of_unsigned (hx : left.Represents x) (hy : right.Represents y)
    (hux : left.signedness = .unsigned) (huy : right.signedness = .unsigned) :
    SameDigits left right x y ↔ x = y := by
  have hsigns : ¬ ComparesSigns left right := fun h => h.1 (hux.trans huy.symm)
  have hsign : left.sign.value = right.sign.value := by
    rw [hx.unsigned hux, hy.unsigned huy]
  rw [eq_iff_digits hx hy, SameDigits]
  exact ⟨fun h => ⟨hsign, h.2⟩, fun h => ⟨fun hcon => absurd hcon hsigns, h.2⟩⟩

/-- Two different integers with the same digits differ by what is above the limbs. -/
theorem sub_eq_iff_digits (hx : left.Represents x) (hy : right.Represents y) :
    |x - y| = (2 ^ w) ^ Nat.max left.limbSize right.limbSize ↔
      left.sign.value ≠ right.sign.value ∧
        ∀ i < Nat.max left.limbSize right.limbSize, digit w x i = digit w y i := by
  have hax := hx.above _ (Nat.le_max_left left.limbSize right.limbSize)
  have hay := hy.above _ (Nat.le_max_right left.limbSize right.limbSize)
  have hdx := Int.emod_add_mul_ediv x ((2 ^ w) ^ Nat.max left.limbSize right.limbSize)
  have hdy := Int.emod_add_mul_ediv y ((2 ^ w) ^ Nat.max left.limbSize right.limbSize)
  have hpos := pow_base_pos w (Nat.max left.limbSize right.limbSize)
  rw [hax] at hdx
  rw [hay] at hdy
  constructor
  · intro h
    have hmod : x % (2 ^ w) ^ Nat.max left.limbSize right.limbSize =
        y % (2 ^ w) ^ Nat.max left.limbSize right.limbSize := by
      rcases (abs_eq hpos.le).mp h with h | h
      · rw [show x = y + (2 ^ w) ^ Nat.max left.limbSize right.limbSize * 1 by linarith,
          Int.add_mul_emod_self_left]
      · rw [show x = y + (2 ^ w) ^ Nat.max left.limbSize right.limbSize * (-1) by linarith,
          Int.add_mul_emod_self_left]
    constructor
    · intro hsign
      rw [hsign, hmod] at hdx
      rw [show x - y = 0 by linarith, abs_zero] at h
      exact hpos.ne h
    · intro i hi
      exact digit_congr_of_emod (by rw [pow_mul]; exact hmod) (Nat.mul_le_mul_left w hi)
  · rintro ⟨hsign, hdigits⟩
    rw [← hdx, ← hdy, emod_congr hdigits]
    -- of two signs that differ, one extends with zeros and the other one with ones
    rcases bit_eq left.sign.value with hl | hl <;> rcases bit_eq right.sign.value with hr | hr
    · exact absurd (hl.trans hr.symm) hsign
    · rw [hl, hr, add_sub_add_left_eq_sub, abs_of_nonneg] <;> simp [hpos.le]
    · rw [hl, hr, add_sub_add_left_eq_sub, abs_of_nonpos] <;> simp [hpos.le]
    · exact absurd (hl.trans hr.symm) hsign

end Equality

/-! ## Orderings -/

/-- A decision between two integers. -/
def outcome (below above default : Bit) (x y : ℤ) : Bit :=
  if x < y then below else if y < x then above else default

/-- The higher part of two numbers decides, and the part below it if that is equal. -/
theorem outcome_step (below above default : Bit) {m a b x y : ℤ} (ha₀ : 0 ≤ a) (ha : a < m)
    (hb₀ : 0 ≤ b) (hb : b < m) :
    outcome below above default (a + m * x) (b + m * y) =
      if x = y then outcome below above default a b else outcome below above default x y := by
  have hstep {a b x y : ℤ} (ha : a < m) (hb₀ : 0 ≤ b) (h : x < y) : a + m * x < b + m * y := by
    have hmul : m * (x + 1) ≤ m * y := mul_le_mul_of_nonneg_left h (by linarith)
    linarith [mul_add m x 1]
  unfold outcome
  rcases lt_trichotomy x y with hlt | rfl | hgt
  · rw [if_pos (hstep ha hb₀ hlt), if_neg hlt.ne, if_pos hlt]
  · simp only [add_lt_add_iff_right, if_true]
  · rw [if_neg (hstep hb ha₀ hgt).not_gt, if_pos (hstep hb ha₀ hgt), if_neg hgt.ne',
      if_neg hgt.not_gt, if_pos hgt]

theorem bitOf_eq_ite (p : Prop) [Decidable p] : bitOf p = if p then 1 else 0 := by
  by_cases hp : p
  · rw [if_pos hp, bitOf_eq_one_iff.mpr hp]
  · rw [if_neg hp, bitOf_eq_zero_iff.mpr hp]

theorem outcome_less (x y : ℤ) : outcome 1 0 0 x y = bitOf (x < y) := by
  rw [bitOf_eq_ite, outcome, ite_self]

theorem outcome_greater (x y : ℤ) : outcome 0 1 0 x y = bitOf (x > y) := by
  rw [bitOf_eq_ite, outcome]
  split_ifs <;> first | rfl | omega

theorem outcome_lessEqual (x y : ℤ) : outcome 1 0 1 x y = bitOf (x ≤ y) := by
  rw [bitOf_eq_ite, outcome]
  split_ifs <;> first | rfl | omega

theorem outcome_greaterEqual (x y : ℤ) : outcome 0 1 1 x y = bitOf (x ≥ y) := by
  rw [bitOf_eq_ite, outcome]
  split_ifs <;> first | rfl | omega

theorem outcome_self (below above default : Bit) (x : ℤ) :
    outcome below above default x x = default := by
  simp [outcome]

/-- Two numbers are equal when their limb and what is above it are. -/
theorem digits_eq_iff (dx dy : BitVec w) (x y : ℤ) :
    (dx.toNat + 2 ^ w * x : ℤ) = dy.toNat + 2 ^ w * y ↔ x = y ∧ dx = dy := by
  have hdx := toNat_lt_int dx
  have hdy := toNat_lt_int dy
  constructor
  · intro h
    have hmod := congrArg (· % (2 : ℤ) ^ w) h
    simp only [Int.add_mul_emod_self_left] at hmod
    rw [Int.emod_eq_of_lt (by positivity) hdx, Int.emod_eq_of_lt (by positivity) hdy] at hmod
    have hmul : (2 : ℤ) ^ w * x = 2 ^ w * y := by linarith
    exact ⟨mul_left_cancel₀ (base_pos w).ne' hmul, BitVec.eq_of_toNat_eq (by exact_mod_cast hmod)⟩
  · rintro ⟨rfl, rfl⟩
    rfl

/-- How a function on limbs, and the one used for the signs, decide. -/
structure Decides (name : MaybeConstant (BitVec w) → MaybeConstant (BitVec w) → MaybeConstant Bit)
    (negativeName : MaybeConstant Bit → MaybeConstant Bit → MaybeConstant Bit)
    (below above default : Bit) : Prop where
  limbs : ∀ x y, (name x y).value = outcome below above default x.value.toNat y.value.toNat
  signs : ∀ x y, (negativeName x y).value =
    outcome below above default (-(x.value.toNat : ℤ)) (-(y.value.toNat : ℤ))

/-- A bit that says when something holds, or when it does not. -/
theorem eq_bitOf {b : Bit} {p : Prop} [Decidable p] (h : b = 1 ↔ p) : b = bitOf p := by
  rcases bit_eq b with hb | hb
  · rw [hb] at h ⊢
    exact (bitOf_eq_zero_iff.mpr fun hp => absurd (h.mpr hp) (by decide)).symm
  · rw [hb] at h ⊢
    exact (bitOf_eq_one_iff.mpr (h.mp rfl)).symm

theorem eq_bitOf_not {b : Bit} {p : Prop} [Decidable p] (h : b = 0 ↔ p) : b = bitOf ¬p := by
  apply eq_bitOf
  rw [← h]
  rcases bit_eq b with hb | hb <;> rw [hb] <;> decide

theorem bitOf_congr {p q : Prop} [Decidable p] [Decidable q] (h : p ↔ q) : bitOf p = bitOf q := by
  rw [bitOf_eq_ite, bitOf_eq_ite]
  exact if_congr h rfl rfl

theorem decides_less : Decides (w := w) Core.less Core.greater 1 0 0 where
  limbs x y := by
    rw [value_less, outcome_less]
    exact bitOf_congr (by rw [BitVec.lt_def, Int.ofNat_lt])
  signs x y := by
    rw [value_greater, outcome_less]
    exact bitOf_congr (by rw [gt_iff_lt, BitVec.lt_def]; omega)

theorem decides_greater : Decides (w := w) Core.greater Core.less 0 1 0 where
  limbs x y := by
    rw [value_greater, outcome_greater]
    exact bitOf_congr (by rw [gt_iff_lt, BitVec.lt_def]; omega)
  signs x y := by
    rw [value_less, outcome_greater]
    exact bitOf_congr (by rw [BitVec.lt_def]; omega)

theorem decides_lessEqual : Decides (w := w) Core.lessEqual Core.greaterEqual 1 0 1 where
  limbs x y := by
    rw [value_lessEqual, outcome_lessEqual]
    exact bitOf_congr (by rw [BitVec.le_def]; omega)
  signs x y := by
    rw [value_greaterEqual, outcome_lessEqual]
    exact bitOf_congr (by rw [ge_iff_le, BitVec.le_def]; omega)

theorem decides_greaterEqual : Decides (w := w) Core.greaterEqual Core.lessEqual 0 1 1 where
  limbs x y := by
    rw [value_greaterEqual, outcome_greaterEqual]
    exact bitOf_congr (by rw [ge_iff_le, BitVec.le_def]; omega)
  signs x y := by
    rw [value_lessEqual, outcome_greaterEqual]
    exact bitOf_congr (by rw [BitVec.le_def]; omega)

section Order

variable {left right : Span w} {x y : ℤ}

/-- The orderings decide as the integers whose digits are read. -/
theorem compareOrder_eq {name : MaybeConstant (BitVec w) → MaybeConstant (BitVec w) →
    MaybeConstant Bit} {negativeName : MaybeConstant Bit → MaybeConstant Bit → MaybeConstant Bit}
    {below above default : Bit} (h : Decides name negativeName below above default)
    (hx : left.Represents x) (hy : right.Represents y) :
    compareOrder name negativeName default left right = outcome below above default x y := by
  have hax := hx.above _ (Nat.le_max_left left.limbSize right.limbSize)
  have hay := hy.above _ (Nat.le_max_right left.limbSize right.limbSize)
  -- what is above the limbs compared so far decides, once it differs
  have hscan := scanReverseRange_induction (n := Nat.max left.limbSize right.limbSize)
    (s := if left.signedness = .unsigned ∧ right.signedness = .unsigned then
        (⟨constant default, constant 0⟩ : CompareResult)
      else ⟨negativeName left.sign right.sign, Core.notEqualTo left.sign right.sign⟩)
    (f := fun i result => ⟨select result.result (name (left.readNormal i) (right.readNormal i))
        (bitAnd (bitNot result.determined)
          (Core.notEqualTo (left.readNormal i) (right.readNormal i))),
      bitOr result.determined (Core.notEqualTo (left.readNormal i) (right.readNormal i))⟩)
    (P := fun i (result : CompareResult) =>
      result.result.value = outcome below above default (x / (2 ^ w) ^ i) (y / (2 ^ w) ^ i) ∧
        (result.determined.value = 0 ↔ x / (2 ^ w) ^ i = y / (2 ^ w) ^ i)) ?start ?step
  case start =>
    rw [hax, hay]
    by_cases hun : left.signedness = .unsigned ∧ right.signedness = .unsigned
    · rw [if_pos hun, hx.unsigned hun.1, hy.unsigned hun.2]
      exact ⟨(by simp [outcome]), iff_of_true rfl rfl⟩
    · rw [if_neg hun]
      refine ⟨h.signs _ _, ?_⟩
      rw [value_notEqualTo, bitOf_eq_zero_iff, not_not, ← BitVec.toNat_inj]
      omega
  case step =>
    rintro i - ⟨result, determined⟩ ⟨hresult, hdetermined⟩
    dsimp only at hresult hdetermined ⊢
    rw [value_select, value_bitAnd, value_bitNot, value_bitOr, or_eq_zero_iff, value_notEqualTo,
      bitOf_eq_zero_iff, not_not, hdetermined, h.limbs, hresult, hx.digits i, hy.digits i,
      ediv_eq x i, ediv_eq y i, outcome_step _ _ _ (by positivity) (toNat_lt_int _)
        (by positivity) (toNat_lt_int _)]
    have hsame := digits_eq_iff (digit w x i) (digit w y i) (x / (2 ^ w) ^ (i + 1))
      (y / (2 ^ w) ^ (i + 1))
    refine ⟨?_, hsame.symm⟩
    by_cases hhigh : x / (2 ^ w) ^ (i + 1) = y / (2 ^ w) ^ (i + 1)
    · rw [if_pos hhigh, hdetermined.mpr hhigh]
      by_cases hlimb : digit w x i = digit w y i
      · -- equal limbs: no decision, neither before nor now
        rw [hlimb, hhigh, outcome_self, outcome_self, ite_self]
      · rw [bitOf_eq_one_iff.mpr hlimb]
        exact if_pos (by decide)
    · have hone : determined.value = 1 := (bit_eq _).resolve_left (mt hdetermined.mp hhigh)
      rw [if_neg hhigh, hone]
      exact if_neg (by simp)
  have hzero := hscan.1
  rwa [pow_zero, Int.ediv_one, Int.ediv_one] at hzero

end Order

/-! ## The compile-time versions return the same for unsigned spans -/

namespace Compiletime

section

variable {left right : Span w} {x y : ℤ}

theorem compareEqualFrom_eq (hx : left.DenotesNormal x) (hy : right.DenotesNormal y)
    (default : Bool) (n i : ℕ) : compareEqualFrom default left right n i =
      BitVec.ofBool (default ^^ decide (∃ j < n, digit w x (i + j) ≠ digit w y (i + j))) := by
  induction n generalizing i with
  | zero => simp [compareEqualFrom]
  | succ n ih =>
      unfold compareEqualFrom
      rw [hx i, hy i, ih]
      by_cases hlimb : digit w x i = digit w y i
      · rw [if_neg (not_not.mpr hlimb)]
        congr 3
        apply propext
        constructor
        · rintro ⟨j, hj, hne⟩
          exact ⟨j + 1, by omega, by rwa [← Nat.add_assoc, Nat.add_right_comm]⟩
        · rintro ⟨j, hj, hne⟩
          cases j with
          | zero => exact absurd hlimb hne
          | succ j => exact ⟨j, by omega, by rwa [Nat.add_right_comm, Nat.add_assoc]⟩
      · have hex : ∃ j < n + 1, digit w x (i + j) ≠ digit w y (i + j) := ⟨0, by omega, hlimb⟩
        rw [if_pos hlimb, decide_eq_true hex, Bool.xor_true]

theorem compareBelow_eq {op : BitVec w → BitVec w → Bool} {default : Bool} {below above : Bit}
    (hop : ∀ a b : BitVec w, a ≠ b →
      BitVec.ofBool (op a b) = outcome below above (BitVec.ofBool default) a.toNat b.toNat)
    (hx : left.DenotesNormal x) (hy : right.DenotesNormal y) (i : ℕ) :
    compareBelow op default left right i =
      outcome below above (BitVec.ofBool default) (x % (2 ^ w) ^ i) (y % (2 ^ w) ^ i) := by
  induction i with
  | zero => simp [compareBelow, outcome]
  | succ i ih =>
      have hpos := pow_base_pos w i
      unfold compareBelow
      rw [ih, hx i, hy i, emod_succ x, emod_succ y,
        outcome_step _ _ _ (Int.emod_nonneg _ hpos.ne') (Int.emod_lt_of_pos _ hpos)
          (Int.emod_nonneg _ hpos.ne') (Int.emod_lt_of_pos _ hpos)]
      dsimp only
      by_cases hlimb : digit w x i = digit w y i
      · rw [if_neg (not_not.mpr hlimb), if_pos (by rw [hlimb])]
      · rw [if_pos hlimb, hop _ _ hlimb, if_neg]
        intro hcast
        exact hlimb (BitVec.eq_of_toNat_eq (by exact_mod_cast hcast))

/-- Unsigned integers are their limbs. -/
theorem emod_of_unsigned {s : Span w} {z : ℤ} {n : ℕ} (h : s.Represents z)
    (hs : s.signedness = .unsigned) (hn : s.limbSize ≤ n) : z % (2 ^ w) ^ n = z := by
  have habove := h.above n hn
  rw [h.unsigned hs] at habove
  have hz := Int.emod_add_mul_ediv z ((2 ^ w) ^ n)
  rw [habove] at hz
  simpa using hz

variable (hx : left.Represents x) (hy : right.Represents y) (hux : left.signedness = .unsigned)
  (huy : right.signedness = .unsigned)
include hx hy hux huy

theorem compareEqual_eq (default : Bool) :
    compareEqual default left right = BitVec.ofBool (default ^^ decide (x ≠ y)) := by
  have hdigits := eq_iff_digits hx hy
  rw [hx.unsigned hux, hy.unsigned huy] at hdigits
  rw [compareEqual, compareEqualFrom_eq hx.digits hy.digits]
  congr 2
  rw [decide_eq_decide, Ne, hdigits]
  simp

theorem compareOrder_eq {op : BitVec w → BitVec w → Bool} {default : Bool} {below above : Bit}
    (hop : ∀ a b : BitVec w, a ≠ b →
      BitVec.ofBool (op a b) = outcome below above (BitVec.ofBool default) a.toNat b.toNat) :
    compareOrder op default left right = outcome below above (BitVec.ofBool default) x y := by
  rw [compareOrder, compareBelow_eq hop hx.digits hy.digits,
    emod_of_unsigned hx hux (Nat.le_max_left _ _), emod_of_unsigned hy huy (Nat.le_max_right _ _)]

end

end Compiletime

/-! ## Comparisons of arrays -/

section Arrays

variable [NeZero w] {x y : BitArray w}

/-- All functions return the comparison of the integers the arrays denote. -/
structure ComparesExactly (x y : BitArray w) : Prop where
  equalTo_eq : equalTo x.span y.span = bitOf (x.toInt = y.toInt)
  notEqualTo_eq : notEqualTo x.span y.span = bitOf (x.toInt ≠ y.toInt)
  less_eq : less x.span y.span = bitOf (x.toInt < y.toInt)
  lessEqual_eq : lessEqual x.span y.span = bitOf (x.toInt ≤ y.toInt)
  greater_eq : greater x.span y.span = bitOf (x.toInt > y.toInt)
  greaterEqual_eq : greaterEqual x.span y.span = bitOf (x.toInt ≥ y.toInt)
  trichotomy : (less x.span y.span).toNat + (equalTo x.span y.span).toNat +
    (greater x.span y.span).toNat = 1
  compiletime : x.type.signedness = .unsigned → y.type.signedness = .unsigned →
    Compiletime.equalTo x.span y.span = bitOf (x.toInt = y.toInt) ∧
    Compiletime.notEqualTo x.span y.span = bitOf (x.toInt ≠ y.toInt) ∧
    Compiletime.less x.span y.span = bitOf (x.toInt < y.toInt) ∧
    Compiletime.lessEqual x.span y.span = bitOf (x.toInt ≤ y.toInt) ∧
    Compiletime.greater x.span y.span = bitOf (x.toInt > y.toInt) ∧
    Compiletime.greaterEqual x.span y.span = bitOf (x.toInt ≥ y.toInt)

/-- The orderings compare the stored integers. -/
theorem order_storedInt (hx : x.Readable) (hy : y.Readable) :
    less x.span y.span = bitOf (x.storedInt < y.storedInt) ∧
    lessEqual x.span y.span = bitOf (x.storedInt ≤ y.storedInt) ∧
    greater x.span y.span = bitOf (x.storedInt > y.storedInt) ∧
    greaterEqual x.span y.span = bitOf (x.storedInt ≥ y.storedInt) := by
  have hl := x.represents_span hx
  have hr := y.represents_span hy
  refine ⟨?_, ?_, ?_, ?_⟩
  · rw [less, compareOrder_eq decides_less hl hr, outcome_less]
  · rw [lessEqual, compareOrder_eq decides_lessEqual hl hr, outcome_lessEqual]
  · rw [greater, compareOrder_eq decides_greater hl hr, outcome_greater]
  · rw [greaterEqual, compareOrder_eq decides_greaterEqual hl hr, outcome_greaterEqual]

/-- The equalities also hold for stored integers that differ by what is above all limbs, unless the
signs are compared. -/
theorem sameDigits_storedInt_iff (hx : x.Readable) (hy : y.Readable) :
    SameDigits x.span y.span x.storedInt y.storedInt ↔ x.storedInt = y.storedInt ∨
      ¬ComparesSigns x.span y.span ∧
        |x.storedInt - y.storedInt| = (2 ^ w) ^ Nat.max x.span.limbSize y.span.limbSize := by
  have hl := x.represents_span hx
  have hr := y.represents_span hy
  rw [eq_iff_digits hl hr, sub_eq_iff_digits hl hr, SameDigits]
  tauto

/-- For unsigned arrays the compile-time versions return the comparison of the integers. -/
theorem compiletime_exact (hx : x.Readable) (hy : y.Readable)
    (hux : x.type.signedness = .unsigned) (huy : y.type.signedness = .unsigned) :
    Compiletime.equalTo x.span y.span = bitOf (x.toInt = y.toInt) ∧
    Compiletime.notEqualTo x.span y.span = bitOf (x.toInt ≠ y.toInt) ∧
    Compiletime.less x.span y.span = bitOf (x.toInt < y.toInt) ∧
    Compiletime.lessEqual x.span y.span = bitOf (x.toInt ≤ y.toInt) ∧
    Compiletime.greater x.span y.span = bitOf (x.toInt > y.toInt) ∧
    Compiletime.greaterEqual x.span y.span = bitOf (x.toInt ≥ y.toInt) := by
  have hsx : x.storedInt = x.toInt :=
    (x.storedInt_eq_toInt_iff hx.signed_pos).mpr fun h => by rw [hux] at h; cases h.1
  have hsy : y.storedInt = y.toInt :=
    (y.storedInt_eq_toInt_iff hy.signed_pos).mpr fun h => by rw [huy] at h; cases h.1
  have hl := x.represents_span hx
  have hr := y.represents_span hy
  rw [hsx] at hl
  rw [hsy] at hr
  -- each order decides the first limb that differs the way it decides the integers
  refine ⟨?_, ?_, ?_, ?_, ?_, ?_⟩
  · rw [Compiletime.equalTo, Compiletime.compareEqual_eq hl hr hux huy]
    simp [bitOf]
  · rw [Compiletime.notEqualTo, Compiletime.compareEqual_eq hl hr hux huy]
    simp [bitOf]
  · rw [← outcome_less]
    apply Compiletime.compareOrder_eq hl hr hux huy
    intro a b _
    exact (bitOf_congr (by rw [BitVec.lt_def]; omega)).trans (outcome_less _ _).symm
  · rw [← outcome_lessEqual]
    apply Compiletime.compareOrder_eq hl hr hux huy
    intro a b _
    exact (bitOf_congr (by rw [BitVec.le_def]; omega)).trans (outcome_lessEqual _ _).symm
  · rw [← outcome_greater]
    apply Compiletime.compareOrder_eq hl hr hux huy
    intro a b _
    exact (bitOf_congr (by rw [gt_iff_lt, BitVec.lt_def]; omega)).trans (outcome_greater _ _).symm
  · rw [← outcome_greaterEqual]
    apply Compiletime.compareOrder_eq hl hr hux huy
    intro a b _
    exact (bitOf_congr (by rw [ge_iff_le, BitVec.le_def]; omega)).trans
      (outcome_greaterEqual _ _).symm

/-- The functions compare the denoted integers exactly when the stored integers are in the same
order, and do not differ by what is above all limbs without the signs being compared. -/
theorem comparesExactly_iff (hx : x.Readable) (hy : y.Readable) :
    ComparesExactly x y ↔
      (x.storedInt < y.storedInt ↔ x.toInt < y.toInt) ∧
      (y.storedInt < x.storedInt ↔ y.toInt < x.toInt) ∧
      (¬ComparesSigns x.span y.span →
        |x.storedInt - y.storedInt| ≠ (2 ^ w) ^ Nat.max x.span.limbSize y.span.limbSize) := by
  have hl := x.represents_span hx
  have hr := y.represents_span hy
  have hsame := sameDigits_storedInt_iff hx hy
  obtain ⟨hless, hlessEqual, hgreater, hgreaterEqual⟩ := order_storedInt hx hy
  have hpos := pow_base_pos w (Nat.max x.span.limbSize y.span.limbSize)
  constructor
  · intro h
    have hlt : x.storedInt < y.storedInt ↔ x.toInt < y.toInt := by
      rw [← bitOf_eq_one_iff (p := x.storedInt < y.storedInt), ← hless, h.less_eq,
        bitOf_eq_one_iff]
    have hgt : y.storedInt < x.storedInt ↔ y.toInt < x.toInt := by
      rw [← gt_iff_lt, ← bitOf_eq_one_iff (p := x.storedInt > y.storedInt), ← hgreater,
        h.greater_eq, bitOf_eq_one_iff, gt_iff_lt]
    refine ⟨hlt, hgt, ?_⟩
    intro hsigns hdiff
    -- the equality holds, and so do the denoted and the stored integers
    have hone := (equalTo_eq_one_iff hl hr).mpr (hsame.mpr (.inr ⟨hsigns, hdiff⟩))
    rw [h.equalTo_eq, bitOf_eq_one_iff] at hone
    have heq : x.storedInt = y.storedInt := by omega
    rw [heq, sub_self, abs_zero] at hdiff
    exact hpos.ne hdiff
  · rintro ⟨hlt, hgt, hdiff⟩
    have heq : SameDigits x.span y.span x.storedInt y.storedInt ↔ x.toInt = y.toInt := by
      rw [hsame]
      constructor
      · rintro (heq | ⟨hsigns, hd⟩)
        · omega
        · exact absurd hd (hdiff hsigns)
      · intro heq
        exact .inl (by omega)
    have hequal : equalTo x.span y.span = bitOf (x.toInt = y.toInt) := by
      apply eq_bitOf
      rw [equalTo_eq_one_iff hl hr, heq]
    have hnotEqual : notEqualTo x.span y.span = bitOf (x.toInt ≠ y.toInt) := by
      apply eq_bitOf_not
      rw [notEqualTo_eq_zero_iff hl hr, heq]
    have hless' := hless.trans (bitOf_congr hlt)
    have hgreater' := hgreater.trans (bitOf_congr hgt)
    refine ⟨hequal, hnotEqual, hless', ?_, hgreater', ?_, ?_, compiletime_exact hx hy⟩
    · exact hlessEqual.trans (bitOf_congr (by omega))
    · exact hgreaterEqual.trans (bitOf_congr (by omega))
    · rw [hless', hequal, hgreater', toNat_bitOf, toNat_bitOf, toNat_bitOf]
      split_ifs <;> omega

end Arrays

/-- The largest unsigned number of 32 bits, and the signed -1 of 8 bits. -/
def largest : BitArray 32 := ⟨⟨⟨32, .unsigned, .normal⟩, [0xFFFFFFFF]⟩, rfl⟩
def minusOne : BitArray 32 := ⟨⟨⟨8, .signed, .normal⟩, [0xFFFFFFFF]⟩, rfl⟩

theorem largest_readable : largest.Readable :=
  ⟨by decide, fun _ => by unfold BitArray.IsNormal; decide⟩
theorem minusOne_readable : minusOne.Readable :=
  ⟨by decide, fun _ => by unfold BitArray.IsNormal; decide⟩

/-- They are found to be equal, and one above the other. -/
theorem largest_equalTo_minusOne : largest.Readable ∧ minusOne.Readable ∧
    largest.toInt = 4294967295 ∧ minusOne.toInt = -1 ∧
    equalTo largest.span minusOne.span = 1 ∧ greater largest.span minusOne.span = 1 ∧
    ¬ComparesExactly largest minusOne := by
  refine ⟨largest_readable, minusOne_readable, by decide, by decide, by decide, by decide, ?_⟩
  intro h
  have hequal := h.equalTo_eq
  revert hequal
  decide

/-- Signed and unsigned numbers of one width that fills its limbs are compared exactly. -/
theorem comparesExactly_iff_eight : ComparesExactly (w := 8)
    ⟨⟨⟨8, .unsigned, .normal⟩, [0xFF]⟩, rfl⟩ ⟨⟨⟨8, .signed, .normal⟩, [0xFF]⟩, rfl⟩ :=
  (comparesExactly_iff ⟨by decide, fun _ => by unfold BitArray.IsNormal; decide⟩
    ⟨by decide, fun _ => by unfold BitArray.IsNormal; decide⟩).mpr ⟨by decide, by decide, by decide⟩

end Num

end Hmpc.Core
