/-
# Hmpc.Core.ConstantFolding -- limbs that are constants

Which branch of a function of limbs is compiled depends on which of its arguments are constants. All
branches that compile agree with the one for no constants: `primitivesExact_iff`. Two branches of
`subtract(left, right, borrow)` do not, since they take the constant borrow itself for a condition
and for a limb, where the others take its value. Products of limbs are for those of which there is
one of twice the size; bits have an overload of their own.
-/
import Hmpc.Core.Num

namespace Hmpc.Core

open Hmpc.Lib.Loops MaybeConstant

variable {w : ℕ}

/-! ## Conversions -/

/-- The types a borrow is converted from and to; `bit` is the limb of one bit. -/
inductive ValueType
  | bool
  | limb (w : ℕ)
  | constant (w : ℕ)
  deriving DecidableEq

/-- A single conversion, as an initialization and a condition allow: a constant to its value, a
limb to another by a constructor template, which does not see through constants, and a bit to
`bool`. -/
def ValueType.converts : ValueType → ValueType → Bool
  | constant v, limb w => w = v
  | limb _, limb _ => true
  | limb v, bool => v = 1
  | source, target => source = target

/-- `subtract(left, right, borrow)`, for constants whose branch compiles -/
def trySubtractBorrow (left right : MaybeConstant (BitVec w)) (borrow : MaybeConstant Bit) :
    Option (SubResult w) := do
  if left.isConstant && right.isConstant && borrow.isConstant then
    -- `limb_type{borrow}`
    guard ((ValueType.constant 1).converts (.limb w))
  else if left.isConstant && borrow.isConstant && !right.isConstant then
    -- `if constexpr (borrow)`
    guard ((ValueType.constant 1).converts .bool)
  return subtractBorrow left right borrow

/-- The choices of constants for which it has a branch that compiles. -/
def SubtractCompiles (left right : MaybeConstant (BitVec w)) (borrow : MaybeConstant Bit) : Prop :=
  left.isConstant → borrow.isConstant → right.isConstant ∧ w = 1

instance decidableSubtractCompiles (left right : MaybeConstant (BitVec w))
    (borrow : MaybeConstant Bit) : Decidable (SubtractCompiles left right borrow) :=
  inferInstanceAs (Decidable (_ → _ → _ ∧ _))

theorem trySubtractBorrow_eq {left right : MaybeConstant (BitVec w)} {borrow : MaybeConstant Bit}
    (h : SubtractCompiles left right borrow) :
    trySubtractBorrow left right borrow = some (subtractBorrow left right borrow) := by
  unfold SubtractCompiles at h
  unfold trySubtractBorrow ValueType.converts
  cases hl : left.isConstant <;> cases hb : borrow.isConstant <;> cases hr : right.isConstant <;>
    simp_all [guard]

theorem trySubtractBorrow_none {left right : MaybeConstant (BitVec w)}
    {borrow : MaybeConstant Bit} (h : ¬SubtractCompiles left right borrow) :
    trySubtractBorrow left right borrow = none := by
  unfold SubtractCompiles at h
  unfold trySubtractBorrow ValueType.converts
  cases hl : left.isConstant <;> cases hb : borrow.isConstant <;> cases hr : right.isConstant <;>
    simp_all [guard]

/-! ## Products of bits -/

def AddResult.values (r : AddResult w) : BitVec w × Bit := (r.sum.value, r.carry.value)
def SubResult.values (r : SubResult w) : BitVec w × Bit := (r.difference.value, r.borrow.value)
def MultiplyResult.values (r : MultiplyResult w) : BitVec w × BitVec w :=
  (r.lower.value, r.upper.value)

section

variable {r r' : SubResult w} {x y : ℕ} (h : r.Subtracts x y)
include h

end

section

variable (left right summand otherSummand : MaybeConstant (BitVec w))
  (carry borrow : MaybeConstant Bit)

variable [NeZero w]

end

/-- `subtract(result, left, right, borrow)` of spans, when every limb has a branch that compiles -/
def Num.trySubtract (t : SpanType) (left right : Source w) (borrow : MaybeConstant Bit)
    (result : List (BitVec w)) : Option (List (BitVec w) × MaybeConstant Bit) :=
  tryScanRange (t.limbSize w) (fun i s =>
    (trySubtractBorrow ((left s.1).read i) ((right s.1).read i) s.2).map fun r =>
      (t.write i r.difference.value t.normalType s.1, r.borrow)) (result, borrow)

section

variable {t : SpanType} {left right : Source w} {borrow : MaybeConstant Bit}
  {result : List (BitVec w)}

theorem Num.length_trySubtract : ∀ s ∈ trySubtract t left right borrow result,
    s.1.length = result.length := by
  intro s hs
  refine tryScanRange_keeps (φ := fun s => s.1.length) ?_ hs
  intro i s s' hs'
  obtain ⟨r, -, rfl⟩ := Option.map_eq_some_iff.mp hs'
  exact t.length_write _ _ _ _

/-- It compiles when what is known of the borrow is carried from each limb to the next. -/
theorem Num.trySubtract_eq {P : ℕ → MaybeConstant Bit → Prop} (start : P 0 borrow)
    (step : ∀ i < t.limbSize w, ∀ l b, P i b →
      SubtractCompiles ((left l).read i) ((right l).read i) b ∧
        P (i + 1) (subtractBorrow ((left l).read i) ((right l).read i) b).borrow) :
    trySubtract t left right borrow result = some (subtract t left right borrow result) := by
  refine tryScanRange_eq_scanRange (P := fun i s => P i s.2) start ?_
  intro i hi s hP
  obtain ⟨hcompiles, hnext⟩ := step i hi s.1 s.2 hP
  refine ⟨?_, hnext⟩
  rw [trySubtractBorrow_eq hcompiles, Option.map_some]

theorem Num.trySubtract_none (hpos : 0 < t.limbSize w)
    (h : ¬SubtractCompiles ((left result).read 0) ((right result).read 0) borrow) :
    trySubtract t left right borrow result = none :=
  tryScanRange_none hpos (by rw [trySubtractBorrow_none h, Option.map_none])

end

/-- A span reads constants above the limbs of an unsigned number only, where they are zero. -/
theorem BitSpan.isConstant_read {x : BitSpan w} {i : ℕ} (h : (x.span.read i).isConstant) :
    x.type.signedness = .unsigned ∧ x.type.limbSize w ≤ i ∧ (x.span.read i).value = 0 := by
  unfold span extendedRead signMask at h ⊢
  dsimp only at h ⊢
  split_ifs at h ⊢ with hi
  · cases h
  · cases hs : x.type.signedness with
    | unsigned => simp [Nat.not_lt.mp hi]
    | signed =>
        rw [hs] at h
        cases h

/-- Without constants among the operands the borrow is none. -/
theorem isConstant_subtractBorrow {left right : MaybeConstant (BitVec w)}
    (hl : left.isConstant = false) (hr : right.isConstant = false) (borrow : MaybeConstant Bit) :
    (subtractBorrow left right borrow).borrow.isConstant = false := by
  unfold subtractBorrow subtract
  simp only [hl, hr, Bool.false_and, Bool.false_eq_true, if_false]
  split_ifs <;> rfl

/-- Nor is it after limbs of which the constants are zero, when the one before was none. -/
theorem isConstant_subtractBorrow_of_zero {left right : MaybeConstant (BitVec w)}
    {borrow : MaybeConstant Bit} (hl : left.isConstant → left.value = 0)
    (hr : right.isConstant → right.value = 0) (hb : borrow.isConstant = false) :
    (subtractBorrow left right borrow).borrow.isConstant = false := by
  unfold subtractBorrow subtract
  cases hlc : left.isConstant <;> cases hrc : right.isConstant <;>
    simp_all [bitOr, bitOf, subtractWithBorrow, subtractWithBorrows, limbFrom, constant, runtime]

end Hmpc.Core
