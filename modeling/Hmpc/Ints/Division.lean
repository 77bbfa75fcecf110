/-
# Hmpc.Ints.Division -- quotients and remainders of unsigned big integers

`left / right` and `left % right` run the division without the limbs of the result they drop, and
`divide` runs it with both. The remainder is never needed, the quotient is when a step of the
division carries. All three read their operands at compile time, which integers without bits have
no span for.
-/
import Hmpc.Core.CheckedDivide
import Hmpc.Ints.Bigint
import Hmpc.Lib.Domain

namespace Hmpc.Ints.Bigint

open Hmpc.Core Hmpc.Core.Checked Hmpc.Lib Hmpc.Lib.Limbs

variable {w : ℕ} (memory : ℕ → BitVec w)

/-- The type of `left / right`. -/
def quotientType (left : SpanType) : SpanType := ⟨left.bitSize, .unsigned, left.normalType⟩

/-- The type of `left % right`. -/
def remainderType (left right : SpanType) : SpanType :=
  ⟨right.bitSize, .unsigned, left.normalType⟩

/-- What the operators ask of their operands: one normalization, and a `compiletime_span` of each
and of the results, which `bit_array<0>` does not have. -/
def DivideCompiles (left right : SpanType) : Prop :=
  left.normalType = right.normalType ∧ 0 < left.bitSize ∧ 0 < right.bitSize

instance decidableDivideCompiles (left right : SpanType) : Decidable (DivideCompiles left right) :=
  inferInstanceAs (Decidable (_ ∧ _ ∧ _))

/-- `left / right` -/
def quotient (left right : BitSpan w) : Option (BitSpan w) := do
  guard (DivideCompiles left.type right.type)
  let t := quotientType left.type
  let (limbs, _) ← Checked.divide t Compiletime.nullType (.apart left) right
    (uninitialized memory (t.limbSize w)) []
  return ⟨t, limbs⟩

/-- `left % right` -/
def remainder (left right : BitSpan w) : Option (BitSpan w) := do
  guard (DivideCompiles left.type right.type)
  let t := remainderType left.type right.type
  let (_, limbs) ← Checked.divide Compiletime.nullType t (.apart left) right []
    (uninitialized memory (t.limbSize w))
  return ⟨t, limbs⟩

/-- `divide_result` -/
structure DivideResult (w : ℕ) where
  quotient : BitSpan w
  remainder : BitSpan w

/-- `divide(left, right)` -/
def divide (left right : BitSpan w) : Option (DivideResult w) := do
  guard (DivideCompiles left.type right.type)
  let t := quotientType left.type
  let u := remainderType left.type right.type
  let (quotientLimbs, remainderLimbs) ← Checked.divide t u (.apart left) right
    (uninitialized memory (t.limbSize w)) (uninitialized memory (u.limbSize w))
  return ⟨⟨t, quotientLimbs⟩, ⟨u, remainderLimbs⟩⟩

/-- All three evaluate, and agree. -/
def DividesConsistently (left right : BitSpan w) : Prop :=
  ∃ q r, quotient memory left right = some q ∧ remainder memory left right = some r ∧
    divide memory left right = some ⟨q, r⟩

section

variable {left right : BitSpan w} {x y : ℕ}

theorem quotient_lt (hx : Holds left x) : x / y < 2 ^ (quotientType left.type).bitSize :=
  (Nat.div_le_self x y).trans_lt hx.lt

theorem remainder_lt (hy : Holds right y) (hpos : 0 < y) :
    x % y < 2 ^ (remainderType left.type right.type).bitSize := (Nat.mod_lt x hpos).trans hy.lt

/-- There is no division by zero. -/
theorem divide_zero [NeZero w] (hx : Holds left x) (hy : Holds right 0) :
    divide memory left right = none := by
  have hrefines := divide_refines (quotientType left.type) (remainderType left.type right.type)
    (.apart left) hy rfl (length_uninitialized memory _) hx rfl (length_uninitialized memory _)
  have hnone (t u : SpanType) : Compiletime.divide w t u x 0 = none := by
    rw [Compiletime.divide]
    exact if_pos Nat.size_zero
  rw [hnone] at hrefines
  unfold divide
  dsimp only
  rw [hrefines.of_none, Option.bind_eq_bind, Option.bind_eq_bind, Option.bind_none]
  exact Option.bind_fun_none _

/-- The limbs of a number in a span of a type. -/
structure IsSpanOf (t : SpanType) (z : ℕ) (a : BitSpan w) : Prop where
  type_eq : a.type = t
  length_eq : a.limbs.length = t.limbSize w
  value_eq : value a.limbs = z

theorem IsSpanOf.unique {t : SpanType} {z : ℕ} {a b : BitSpan w} (ha : IsSpanOf t z a)
    (hb : IsSpanOf t z b) : a = b := by
  obtain ⟨t, l⟩ := a
  obtain ⟨u, m⟩ := b
  obtain rfl : t = u := ha.type_eq.trans hb.type_eq.symm
  obtain rfl : l = m := value_injective (ha.length_eq.trans hb.length_eq.symm)
    (ha.value_eq.trans hb.value_eq.symm)
  rfl

variable [NeZero w] (hx : Holds left x) (hy : Holds right y) (hpos : 0 < y)
include hx hy hpos

/-- Quotients compile, whatever the steps of the division. -/
theorem quotient_definedWhen : DefinedWhen (DivideCompiles left.type right.type)
    (quotient memory left right) (IsSpanOf (quotientType left.type) (x / y)) := by
  have hnone : ([] : List (BitVec w)).length = Compiletime.nullType.limbSize w :=
    limbSizeFor_zero.symm
  have hrefines := divide_refines (quotientType left.type) Compiletime.nullType (.apart left) hy
    rfl hnone hx rfl (length_uninitialized memory _)
  obtain ⟨r, hr⟩ := Compiletime.divide_quotient (w := w) hpos (quotient_lt hx)
  rw [hr] at hrefines
  obtain ⟨q, _, hdivide, hlen, -, hvalue, -⟩ := hrefines.of_some
  unfold quotient
  dsimp only
  rw [hdivide]
  show DefinedWhen _ (guard _ >>= fun _ => pure (BitSpan.mk (quotientType left.type) q)) _
  exact (DefinedWhen.of_guard _).map fun _ _ => ⟨rfl, hlen, hvalue⟩

/-- Remainders compile when no step of the division carries. -/
theorem remainder_definedWhen : DefinedWhen
    (DivideCompiles left.type right.type ∧ ¬ Compiletime.DivisionCarries w x y)
    (remainder memory left right) (IsSpanOf (remainderType left.type right.type) (x % y)) := by
  have hnone : ([] : List (BitVec w)).length = Compiletime.nullType.limbSize w :=
    limbSizeFor_zero.symm
  have hrefines := divide_refines Compiletime.nullType (remainderType left.type right.type)
    (.apart left) hy rfl (length_uninitialized memory _) hx rfl hnone
  have hlt : x % y < 2 ^ (remainderType left.type right.type).bitSize := remainder_lt hy hpos
  have hnull := @Compiletime.divide_null w _ x y Compiletime.nullType _ hpos rfl hlt
  refine (DefinedWhen.of_guard _).bind fun _ _ => ⟨fun hcarries => ?_, fun hcarries => ?_⟩
  · rw [hnull.1 hcarries] at hrefines
    obtain ⟨_, r, hdivide, -, hlen, -, hvalue⟩ := hrefines.of_some
    dsimp only
    rw [hdivide]
    exact ⟨_, rfl, rfl, hlen, hvalue⟩
  · rw [hnull.2 (not_not.mp hcarries)] at hrefines
    dsimp only
    rw [hrefines.of_none]
    rfl

theorem divide_definedWhen : DefinedWhen (DivideCompiles left.type right.type)
    (divide memory left right) fun qr => IsSpanOf (quotientType left.type) (x / y) qr.quotient ∧
      IsSpanOf (remainderType left.type right.type) (x % y) qr.remainder := by
  have hrefines := divide_refines (quotientType left.type) (remainderType left.type right.type)
    (.apart left) hy rfl (length_uninitialized memory _) hx rfl (length_uninitialized memory _)
  rw [Compiletime.divide_eq hpos (quotient_lt hx) (remainder_lt hy hpos)] at hrefines
  obtain ⟨q, r, hdivide, hqlen, hrlen, hq, hr⟩ := hrefines.of_some
  unfold divide
  dsimp only
  rw [hdivide]
  show DefinedWhen _ (guard _ >>= fun _ => pure (DivideResult.mk
    ⟨quotientType left.type, q⟩ ⟨remainderType left.type right.type, r⟩)) _
  exact (DefinedWhen.of_guard _).map fun _ _ => ⟨⟨rfl, hqlen, hq⟩, ⟨rfl, hrlen, hr⟩⟩

/-- **`/`, `%` and `divide`** evaluate and agree exactly when their operands have one normalization,
the numerator has bits, and no step of the division carries. -/
theorem dividesConsistently_iff :
    DividesConsistently memory left right ↔ left.type.normalType = right.type.normalType ∧
      0 < left.type.bitSize ∧ ¬ Compiletime.DivisionCarries w x y := by
  have hquotient := quotient_definedWhen memory hx hy hpos
  have hremainder := remainder_definedWhen memory hx hy hpos
  have hdivide := divide_definedWhen memory hx hy hpos
  -- a denominator that is not zero has bits
  have hright : 0 < right.type.bitSize := by
    apply Nat.pos_of_ne_zero
    intro hzero
    have hlt := hy.lt
    rw [hzero, pow_zero] at hlt
    omega
  constructor
  · rintro ⟨-, r, -, hr, -⟩
    obtain ⟨⟨hnormal, hleft, -⟩, hcarries⟩ := hremainder.domain hr
    exact ⟨hnormal, hleft, hcarries⟩
  · rintro ⟨hnormal, hleft, hcarries⟩
    have hcompiles : DivideCompiles left.type right.type := ⟨hnormal, hleft, hright⟩
    obtain ⟨q, hq, hqvalue⟩ := hquotient.result hcompiles
    obtain ⟨r, hr, hrvalue⟩ := hremainder.result ⟨hcompiles, hcarries⟩
    obtain ⟨⟨q', r'⟩, hqr, hqvalue', hrvalue'⟩ := hdivide.result hcompiles
    obtain rfl : q = q' := hqvalue.unique hqvalue'
    obtain rfl : r = r' := hrvalue.unique hrvalue'
    exact ⟨_, _, hq, hr, hqr⟩

end

/-! `2 ^ 63 % 2 ^ 31`: the highest limb of the numerator is not below the denominator. -/

def largePower : BitSpan 32 := ⟨⟨64, .unsigned, .normal⟩, [0, 0x80000000]⟩

def smallPower : BitSpan 32 := ⟨⟨32, .unsigned, .normal⟩, [0x80000000]⟩

theorem remainder_of_powers : Holds largePower (2 ^ 63) ∧ Holds smallPower (2 ^ 31) ∧
    ¬ DividesConsistently (fun _ => 0) largePower smallPower := by
  have hlarge : Holds largePower (2 ^ 63) := ⟨rfl, rfl, by decide, by decide⟩
  have hsmall : Holds smallPower (2 ^ 31) := ⟨rfl, rfl, by decide, by decide⟩
  refine ⟨hlarge, hsmall, ?_⟩
  rintro ⟨-, r, -, hr, -⟩
  have hcarries : Compiletime.DivisionCarries 32 (2 ^ 63) (2 ^ 31) := by
    rw [Compiletime.divisionCarries_iff (l := 2) (by decide) (by decide +kernel)]
    decide +kernel
  exact ((remainder_definedWhen _ hlarge hsmall (by decide)).domain hr).2 hcarries

/-- `1000000 % 300`, in limbs of eight bits. -/
theorem dividesConsistently_million : DividesConsistently (w := 8) (fun _ => 0)
    ⟨⟨20, .unsigned, .normal⟩, [64, 66, 15]⟩ ⟨⟨9, .unsigned, .normal⟩, [44, 1]⟩ :=
  (dividesConsistently_iff (x := 1000000) (y := 300) _ ⟨rfl, rfl, by decide, by decide⟩
    ⟨rfl, rfl, by decide, by decide⟩ (by decide)).mpr <| by
    rw [Compiletime.divisionCarries_iff (l := 4) (by decide) (by decide +kernel)]
    exact ⟨rfl, by decide, by decide +kernel⟩

end Hmpc.Ints.Bigint
