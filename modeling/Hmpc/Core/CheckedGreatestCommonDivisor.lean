/-
# Hmpc.Core.CheckedGreatestCommonDivisor -- greatest common divisors on spans at compile time

The binary algorithm of `greatest_common_divisor` works on two buffers that change their roles, and
writes differences and shifts over their operands. The extended algorithm of `extended_euclidean`
keeps six buffers, without signs. Every buffer has the bits of the wider operand.
-/
import Mathlib.Data.Nat.ModEq
import Hmpc.Core.CheckedDivide
import Hmpc.Lib.BinaryGcd

namespace Hmpc.Core.Checked

open Hmpc.Lib Hmpc.Lib.Limbs Hmpc.Lib.Digits Hmpc.Lib.BitScan Hmpc.Lib.Euclid MaybeConstant SpanType

variable {w : ℕ}

/-! ## The binary algorithm -/

/-- The loop of `greatest_common_divisor`, with a bound on its steps. -/
def greatestCommonDivisorLoop (t : SpanType) :
    ℕ → List (BitVec w) → List (BitVec w) → Option (List (BitVec w))
  | 0, _, _ => none
  | steps + 1, u, v => do
    if (← notEqualTo ⟨t, u⟩ ⟨t, v⟩) = 1 then
      let smaller ← less ⟨t, u⟩ ⟨t, v⟩
      let buffers := if smaller = 1 then (v, u) else (u, v)
      let difference ← subtract t (.shared t) (.apart ⟨t, buffers.2⟩) 0 buffers.1
      let count ← countrZero ⟨t, difference.1⟩
      let shifted ← shiftRight t (.shared t) count difference.1
      greatestCommonDivisorLoop t steps shifted buffers.2
    else return u

/-- `greatest_common_divisor(result, left, right)`, with a bound on the steps of its loop. -/
def greatestCommonDivisor (result : SpanType) (left right : Operand w) (steps : ℕ)
    (resultLimbs : List (BitVec w)) : Option (List (BitVec w)) := do
  let x := left.span resultLimbs
  let y := right.span resultLimbs
  if (← equalTo x (nullspan w)) = 1 then bitCopy result right resultLimbs
  else if (← equalTo y (nullspan w)) = 1 then bitCopy result left resultLimbs
  else
    let t : SpanType := ⟨max x.type.bitSize y.type.bitSize, .unsigned, .normal⟩
    let leftPowerOfTwo ← countrZero x
    let rightPowerOfTwo ← countrZero y
    let u ← shiftRight t (.apart x) leftPowerOfTwo (zeros w t)
    let v ← shiftRight t (.apart y) rightPowerOfTwo (zeros w t)
    let u ← greatestCommonDivisorLoop t steps u v
    shiftLeft result ⟨t, u⟩ (min leftPowerOfTwo rightPowerOfTwo) resultLimbs

section

variable [NeZero w] {t : SpanType} {x y z : ℕ}

/-- The larger buffer of a step of the loop. -/
theorem shiftRight_subtract {u v : List (BitVec w)} (hu : Holds ⟨t, u⟩ x) (hv : Holds ⟨t, v⟩ y)
    (hle : y ≤ x) : ∃ difference count shifted,
      subtract t (.shared t) (.apart ⟨t, v⟩) 0 u = some difference ∧
      countrZero ⟨t, difference.1⟩ = some count ∧
      shiftRight t (.shared t) count difference.1 = some shifted ∧
      LargestPower t.bitSize (x - y) count ∧ Holds ⟨t, shifted⟩ ((x - y) / 2 ^ count) := by
  obtain ⟨b, hb⟩ := subtract_of_le (t := t) hu.unsigned hu.length_eq
    (Operand.reads_of_holds (x := .shared t) hu) (Operand.reads_of_holds (x := .apart _) hv) hle
  have hlt : x - y < 2 ^ t.bitSize := (Nat.sub_le x y).trans_lt hu.lt
  have hdifference := holds_image (w := w) hu.unsigned hlt
  obtain ⟨count, hcount, hpower⟩ := countrZero_eq hdifference.sound
  rw [hdifference.value_eq] at hpower
  have hshifted := shiftRight_eq hu.unsigned hdifference.length_eq
    (Operand.readsNormal_of_holds (x := .shared t) hdifference) count
  exact ⟨_, count, _, hb, hcount, hshifted, hpower,
    holds_image hu.unsigned ((Nat.div_le_self _ _).trans_lt hlt)⟩

/-- The loop ends with the greatest common divisor. -/
theorem greatestCommonDivisorLoop_eq {u v : List (BitVec w)} {steps : ℕ} (hsteps : x + y < steps)
    (hu : Holds ⟨t, u⟩ x) (hv : Holds ⟨t, v⟩ y) (h : BinaryGcd.Invariant z x y) :
    ∃ l, greatestCommonDivisorLoop t steps u v = some l ∧ Holds ⟨t, l⟩ z := by
  induction steps generalizing x y u v with
  | zero => omega
  | succ steps ih =>
      -- a step from the larger buffer
      have hstep {x y : ℕ} {u v : List (BitVec w)} (hsteps : x + y < steps + 1)
          (hu : Holds ⟨t, u⟩ x) (hv : Holds ⟨t, v⟩ y) (h : BinaryGcd.Invariant z x y)
          (hlt : y < x) :
          ∃ difference count shifted l,
            subtract t (.shared t) (.apart ⟨t, v⟩) 0 u = some difference ∧
            countrZero ⟨t, difference.1⟩ = some count ∧
            shiftRight t (.shared t) count difference.1 = some shifted ∧
            greatestCommonDivisorLoop t steps shifted v = some l ∧ Holds ⟨t, l⟩ z := by
        obtain ⟨difference, count, shifted, hdifference, hcount, hshifted, hpower, hholds⟩ :=
          shiftRight_subtract hu hv hlt.le
        have hsmaller := h.next_lt (k := count) hlt
        obtain ⟨l, hl, hl'⟩ := ih (by omega) hholds hv (h.next hlt hu.lt hpower)
        exact ⟨difference, count, shifted, l, hdifference, hcount, hshifted, hl, hl'⟩
      obtain ⟨-, hnot, hless, -⟩ := compare_eq hu hv
      rw [greatestCommonDivisorLoop]
      simp only [hnot, hless, Option.bind_eq_bind, Option.bind_some, bitOf_eq_one_iff]
      rcases Nat.lt_trichotomy x y with hlt | rfl | hlt
      · obtain ⟨difference, count, shifted, l, hdifference, hcount, hshifted, hl, hl'⟩ :=
          hstep (by omega) hv hu h.symm hlt
        refine ⟨l, ?_, hl'⟩
        rw [if_pos hlt.ne, if_pos hlt]
        simp only [hdifference, hcount, hshifted, hl, Option.bind_some]
      · refine ⟨u, ?_, h.eq_gcd ▸ hu⟩
        rw [if_neg (not_not_intro rfl)]
        rfl
      · obtain ⟨difference, count, shifted, l, hdifference, hcount, hshifted, hl, hl'⟩ :=
          hstep hsteps hu hv h hlt
        refine ⟨l, ?_, hl'⟩
        rw [if_pos hlt.ne', if_neg hlt.le.not_gt]
        simp only [hdifference, hcount, hshifted, hl, Option.bind_some]

end

/-- A common divisor has no more bits than the wider number. -/
theorem gcd_lt {x y m n bits : ℕ} (hx : x < 2 ^ m) (hy : y < 2 ^ n) (hbits : max m n ≤ bits) :
    Nat.gcd x y < 2 ^ bits := by
  rcases Nat.eq_zero_or_pos x with rfl | hpos
  · rw [Nat.gcd_zero_left]
    exact hy.trans_le (Nat.pow_le_pow_right two_pos ((le_max_right _ _).trans hbits))
  · exact (Nat.gcd_le_left y hpos).trans_lt
      (hx.trans_le (Nat.pow_le_pow_right two_pos ((le_max_left _ _).trans hbits)))

section

variable [NeZero w] {result : SpanType} {left right : Operand w} {resultLimbs : List (BitVec w)}
  {x y : ℕ}

/-- The algorithm ends, and writes the bits of the greatest common divisor that the result has. -/
theorem greatestCommonDivisor_eq (hresult : result.signedness = .unsigned)
    (hlen : resultLimbs.length = result.limbSize w) (hx : Holds (left.span resultLimbs) x)
    (hy : Holds (right.span resultLimbs) y) {steps : ℕ} (hsteps : x + y < steps) :
    greatestCommonDivisor result left right steps resultLimbs =
      some (result.image w (Nat.gcd x y : ℕ)) := by
  obtain ⟨hleft, -⟩ := compare_eq hx (holds_nullspan (w := w))
  obtain ⟨hright, -⟩ := compare_eq hy (holds_nullspan (w := w))
  rw [greatestCommonDivisor]
  simp only [hleft, hright, Option.bind_eq_bind, Option.bind_some, bitOf_eq_one_iff]
  rcases Nat.eq_zero_or_pos x with rfl | hxpos
  · rw [if_pos rfl, bitCopy_eq hresult hlen (Operand.reads_of_holds hy), Nat.gcd_zero_left]
  rw [if_neg hxpos.ne']
  rcases Nat.eq_zero_or_pos y with rfl | hypos
  · rw [if_pos rfl, bitCopy_eq hresult hlen (Operand.reads_of_holds hx), Nat.gcd_zero_right]
  rw [if_neg hypos.ne']
  -- both numbers have a lowest bit
  generalize htype : SpanType.mk (max (left.span resultLimbs).type.bitSize
    (right.span resultLimbs).type.bitSize) .unsigned .normal = t
  have hu : t.signedness = .unsigned := htype ▸ rfl
  have hbits : t.bitSize = max (left.span resultLimbs).type.bitSize
    (right.span resultLimbs).type.bitSize := htype ▸ rfl
  obtain ⟨i, hi, hxpower⟩ := countrZero_eq hx.sound
  obtain ⟨j, hj, hypower⟩ := countrZero_eq hy.sound
  rw [hx.value_eq] at hxpower
  rw [hy.value_eq] at hypower
  have hxshift := shiftRight_eq hu (length_zeros t)
    (Operand.readsNormal_of_holds (x := .apart (left.span resultLimbs)) hx) i
  have hyshift := shiftRight_eq hu (length_zeros t)
    (Operand.readsNormal_of_holds (x := .apart (right.span resultLimbs)) hy) j
  have hbuffer {z n k : ℕ} (hz : z < 2 ^ n) (hn : n ≤ t.bitSize) :
      Holds ⟨t, t.image w (z / 2 ^ k : ℕ)⟩ (z / 2 ^ k) :=
    holds_image hu ((Nat.div_le_self _ _).trans_lt
      (hz.trans_le (Nat.pow_le_pow_right two_pos hn)))
  have hinvariant := BinaryGcd.invariant_start hxpos hx.lt hypos hy.lt hxpower hypower
  have hxle := Nat.div_le_self x (2 ^ i)
  have hyle := Nat.div_le_self y (2 ^ j)
  obtain ⟨l, hl, hholds⟩ := greatestCommonDivisorLoop_eq
    (show x / 2 ^ i + y / 2 ^ j < steps by omega) (hbuffer hx.lt (hbits ▸ le_max_left _ _))
    (hbuffer hy.lt (hbits ▸ le_max_right _ _)) hinvariant
  have hshift := shiftLeft_eq hresult hlen hholds (min i j)
  rw [← BinaryGcd.gcd_eq_mul_two_pow hxpower.dvd hypower.dvd hinvariant.left_odd
    hinvariant.right_odd] at hshift
  simp only [hi, hj, hxshift, hyshift, hl, Option.bind_some]
  exact hshift

/-- **The binary algorithm** ends, and a result of the bits of the wider operand is the greatest
common divisor. -/
theorem greatestCommonDivisor_exact (hresult : result.signedness = .unsigned)
    (hlen : resultLimbs.length = result.limbSize w) (hx : Holds (left.span resultLimbs) x)
    (hy : Holds (right.span resultLimbs) y)
    (hwidth : max (left.span resultLimbs).type.bitSize (right.span resultLimbs).type.bitSize ≤
      result.bitSize) {steps : ℕ} (hsteps : x + y < steps) :
    ∃ l, greatestCommonDivisor result left right steps resultLimbs = some l ∧
      Holds ⟨result, l⟩ (Nat.gcd x y) :=
  ⟨_, greatestCommonDivisor_eq hresult hlen hx hy hsteps,
    holds_image hresult (gcd_lt hx.lt hy.lt hwidth)⟩

end

/-- The greatest common divisor of `48` and `180`, written over the first. -/
theorem greatestCommonDivisor_shared : ∃ l,
    greatestCommonDivisor (w := 8) ⟨12, .unsigned, .normal⟩ (.shared ⟨12, .unsigned, .normal⟩)
        (.apart ⟨⟨9, .unsigned, .unnormal⟩, [180, 0]⟩) 300 [48, 0] = some l ∧
      Holds ⟨⟨12, .unsigned, .normal⟩, l⟩ (Nat.gcd 48 180) :=
  greatestCommonDivisor_exact rfl rfl ⟨rfl, rfl, by decide, by decide⟩
    ⟨rfl, rfl, by decide, by decide⟩ (by decide) (by decide)

/-! ## The extended algorithm -/

/-- The storage of `extended_euclidean`. Two arrays that are swapped change their places. -/
structure Buffers (w : ℕ) where
  oldR : List (BitVec w)
  r : List (BitVec w)
  oldS : List (BitVec w)
  s : List (BitVec w)
  oldT : List (BitVec w)
  t : List (BitVec w)
  q : List (BitVec w)
  tmp : List (BitVec w)
  iteration : Bool

/-- The storage before the loop. -/
def extendedEuclideanStart (left right : BitSpan w) : Option (Buffers w) := do
  let array := compiletimeArray (max left.type.bitSize right.type.bitSize)
  let one := (zeros w array).set 0 1
  let oldR ← bitCopy array (.apart left) (zeros w array)
  let r ← bitCopy array (.apart right) (zeros w array)
  return ⟨oldR, r, one, zeros w array, zeros w array, one, zeros w array, zeros w array, false⟩

/-- The body of the loop. The remainder is written over `old_r`, and the sums over `old_s` and
`old_t`, before they are swapped. -/
def extendedEuclideanStep (array : SpanType) (b : Buffers w) : Option (Buffers w) := do
  let (q, remainder) ← divide array array (.shared array) ⟨array, b.r⟩ b.q b.oldR
  let product ← multiply array (.apart ⟨array, q⟩) (.apart ⟨array, b.s⟩) b.tmp
  let s ← add array (.shared array) (.apart ⟨array, product⟩) 0 b.oldS
  let product ← multiply array (.apart ⟨array, q⟩) (.apart ⟨array, b.t⟩) product
  let t ← add array (.shared array) (.apart ⟨array, product⟩) 0 b.oldT
  return ⟨b.r, remainder, b.s, s.1, b.t, t.1, q, product, !b.iteration⟩

/-- The loop of `extended_euclidean`, with a bound on its steps. -/
def extendedEuclideanLoop (array : SpanType) : ℕ → Buffers w → Option (Buffers w)
  | 0, _ => none
  | steps + 1, b => do
    if (← notEqualTo ⟨array, b.r⟩ (nullspan w)) = 1 then
      let next ← extendedEuclideanStep array b
      extendedEuclideanLoop array steps next
    else return b

/-- `if (iteration)` after the loop: the coefficient with the negative sign is made positive. -/
def positiveCoefficients (array : SpanType) (left right : BitSpan w) (b : Buffers w) :
    Option (List (BitVec w) × List (BitVec w)) :=
  if b.iteration then do
    let difference ← subtract array (.apart right) (.shared array) 0 b.oldS
    return (difference.1, b.oldT)
  else do
    let difference ← subtract array (.apart left) (.shared array) 0 b.oldT
    return (b.oldS, difference.1)

/-- `extended_euclidean(result, left_result, right_result, left, right)`, with a bound on the steps
of its loop. -/
def extendedEuclidean (result leftResult rightResult : SpanType) (left right : BitSpan w)
    (steps : ℕ) (resultLimbs leftLimbs rightLimbs : List (BitVec w)) :
    Option (List (BitVec w) × List (BitVec w) × List (BitVec w)) := do
  let array := compiletimeArray (max left.type.bitSize right.type.bitSize)
  let start ← extendedEuclideanStart left right
  let b ← extendedEuclideanLoop array steps start
  let coefficients ← positiveCoefficients array left right b
  let resultLimbs ← bitCopy result (.apart ⟨array, b.oldR⟩) resultLimbs
  let leftLimbs ← bitCopy leftResult (.apart ⟨array, coefficients.1⟩) leftLimbs
  let rightLimbs ← bitCopy rightResult (.apart ⟨array, coefficients.2⟩) rightLimbs
  return (resultLimbs, leftLimbs, rightLimbs)

/-- The storage during a run. -/
inductive Reached (left right : BitSpan w) : Buffers w → Prop
  | start {b : Buffers w} (h : extendedEuclideanStart left right = some b) : Reached left right b
  | step {b next : Buffers w} (h : Reached left right b)
      (hr : notEqualTo ⟨compiletimeArray (max left.type.bitSize right.type.bitSize), b.r⟩
        (nullspan w) = some 1)
      (hnext : extendedEuclideanStep
        (compiletimeArray (max left.type.bitSize right.type.bitSize)) b = some next) :
      Reached left right next

/-- The arrays hold the numbers of a state. -/
structure Buffers.Represents (array : SpanType) (b : Buffers w) (σ : State) : Prop where
  oldR : Holds ⟨array, b.oldR⟩ σ.oldR
  r : Holds ⟨array, b.r⟩ σ.r
  oldS : Holds ⟨array, b.oldS⟩ σ.oldS
  s : Holds ⟨array, b.s⟩ σ.s
  oldT : Holds ⟨array, b.oldT⟩ σ.oldT
  t : Holds ⟨array, b.t⟩ σ.t
  q : b.q.length = array.limbSize w
  tmp : b.tmp.length = array.limbSize w
  iteration : b.iteration = σ.iteration

section

variable [NeZero w] {left right : BitSpan w} {array : SpanType} {b : Buffers w} {σ : State}
  {x y : ℕ}

omit [NeZero w] in
theorem holds_zeros (hu : array.signedness = .unsigned) : Holds ⟨array, zeros w array⟩ 0 where
  unsigned := hu
  length_eq := length_zeros array
  value_eq := value_replicate_zero _
  lt := Nat.two_pow_pos _

theorem holds_set_one (hu : array.signedness = .unsigned) (hpos : 0 < array.bitSize) :
    Holds ⟨array, (zeros w array).set 0 1⟩ 1 where
  unsigned := hu
  length_eq := List.length_set.trans (length_zeros array)
  value_eq := by
    have hlimbs : 0 < (zeros w array).length := by
      obtain ⟨m, hm, -⟩ := bitSize_split (w := w) hpos
      rw [length_zeros, limbSize, hm]
      omega
    have hvalue := value_set hlimbs (1 : BitVec w)
    have hzeros : value (zeros w array) = 0 := value_replicate_zero _
    have hone : (1 : BitVec w).toNat = 1 := BitVec.toNat_one (Nat.pos_of_ne_zero (NeZero.ne w))
    rw [toNat_getD, hzeros, hone, Nat.zero_div, Nat.zero_mod] at hvalue
    simpa using hvalue
  lt := Nat.one_lt_two_pow hpos.ne'

/-- A product that is added to an array, when the sum has room. -/
theorem multiply_add (hu : array.signedness = .unsigned) {q c old product : List (BitVec w)}
    {k m n : ℕ} (hq : Holds ⟨array, q⟩ k) (hc : Holds ⟨array, c⟩ m) (hold : Holds ⟨array, old⟩ n)
    (hproduct : product.length = array.limbSize w) (hroom : n + k * m < 2 ^ array.bitSize) :
    ∃ carry, multiply array (.apart ⟨array, q⟩) (.apart ⟨array, c⟩) product =
        some (array.image w (k * m : ℕ)) ∧
      add array (.shared array) (.apart ⟨array, array.image w (k * m : ℕ)⟩) 0 old =
        some (array.image w (n + k * m : ℕ), carry) := by
  have hmultiply := multiply_eq hu hproduct
    (show Holds (Operand.span (.apart ⟨array, q⟩) product) k from hq)
    (show Holds (Operand.span (.apart ⟨array, c⟩) product) m from hc)
  have hholds : Holds ⟨array, array.image w (k * m : ℕ)⟩ (k * m) :=
    holds_image hu ((Nat.le_add_left _ _).trans_lt hroom)
  obtain ⟨carry, hadd⟩ := add_eq hu hold.length_eq
    (Operand.reads_of_holds (x := .shared array) hold)
    (Operand.reads_of_holds (x := .apart ⟨array, _⟩) hholds) 0
  refine ⟨carry, hmultiply, ?_⟩
  rw [hadd, show ((0 : Bit).toNat : ℤ) = 0 from rfl, add_zero]
  rfl

/-- A step on the arrays is one on their numbers, without a limit to their width. -/
theorem extendedEuclideanStep_eq (hu : array.signedness = .unsigned) (hb : b.Represents array σ)
    (h : σ.Invariant x y) (hr : 0 < σ.r) (hx : x < 2 ^ array.bitSize) (hy : y < 2 ^ array.bitSize) :
    ∃ next, extendedEuclideanStep array b = some next ∧ next.Represents array σ.next := by
  have hnext := h.next hr
  obtain ⟨q, r, hdivide, hq, hremainder⟩ := divide_holds (.shared array) hb.r hu
    hb.oldR.length_eq hb.oldR hu hb.q hr ((Nat.div_le_self _ _).trans_lt hb.oldR.lt)
    ((Nat.mod_lt _ hr).trans hb.r.lt)
  have hsroom : σ.oldS + σ.oldR / σ.r * σ.s < 2 ^ array.bitSize := hnext.s_le.trans_lt hy
  have htroom : σ.oldT + σ.oldR / σ.r * σ.t < 2 ^ array.bitSize := hnext.t_le.trans_lt hx
  obtain ⟨c, hsproduct, hssum⟩ := multiply_add hu hq hb.s hb.oldS hb.tmp hsroom
  obtain ⟨d, htproduct, htsum⟩ :=
    multiply_add hu hq hb.t hb.oldT (array.length_image (σ.oldR / σ.r * σ.s : ℕ)) htroom
  refine ⟨⟨b.r, r, b.s, array.image w (σ.oldS + σ.oldR / σ.r * σ.s : ℕ), b.t,
    array.image w (σ.oldT + σ.oldR / σ.r * σ.t : ℕ), q, array.image w (σ.oldR / σ.r * σ.t : ℕ),
    !b.iteration⟩, ?_, hb.r, hremainder, hb.s, holds_image hu hsroom, hb.t, holds_image hu htroom,
    hq.length_eq, array.length_image _, congrArg not hb.iteration⟩
  rw [extendedEuclideanStep]
  simp only [hdivide, hsproduct, hssum, htproduct, htsum, Option.bind_eq_bind, Option.bind_some]
  rfl

omit [NeZero w] in
theorem Buffers.Represents.notEqualTo_eq [NeZero w] (hb : b.Represents array σ) :
    notEqualTo ⟨array, b.r⟩ (nullspan w) = some (bitOf (σ.r ≠ 0)) :=
  (compare_eq hb.r holds_nullspan).2.1

/-- The loop ends as the one on numbers, after as many steps as the remainder allows. -/
theorem extendedEuclideanLoop_eq {width : ℕ} (hb : b.Represents (compiletimeArray width) σ)
    (h : σ.Invariant x y) (hx : x < 2 ^ width) (hy : y < 2 ^ width) {steps : ℕ}
    (hsteps : σ.r < steps) :
    ∃ b' σ', extendedEuclideanLoop (compiletimeArray width) steps b = some b' ∧
      Compiletime.extendedEuclideanLoop w width steps σ = some σ' ∧
      b'.Represents (compiletimeArray width) σ' ∧ σ'.Invariant x y ∧ σ'.r = 0 := by
  induction steps generalizing b σ with
  | zero => omega
  | succ steps ih =>
      rw [extendedEuclideanLoop, hb.notEqualTo_eq]
      simp only [Option.bind_eq_bind, Option.bind_some, bitOf_eq_one_iff]
      rcases Nat.eq_zero_or_pos σ.r with hzero | hpos
      · rw [if_neg (not_not_intro hzero), Compiletime.extendedEuclideanLoop, if_pos hzero]
        exact ⟨b, σ, rfl, rfl, hb, h, hzero⟩
      · obtain ⟨next, hnext, hrepresents⟩ := extendedEuclideanStep_eq rfl hb h hpos hx hy
        have hlt : σ.next.r < σ.r := Nat.mod_lt _ hpos
        have holdR : σ.oldR < 2 ^ width := hb.oldR.lt
        have hr : σ.r < 2 ^ width := hb.r.lt
        rw [if_pos hpos.ne', hnext, Option.bind_some,
          Compiletime.extendedEuclideanLoop_succ h hpos holdR hr hx hy]
        exact ih hrepresents (h.next hpos) (by omega)

end

theorem positiveCoefficients_eq [NeZero w] {left right : BitSpan w} {array : SpanType}
    {b : Buffers w} {σ : State} {x y : ℕ} (hu : array.signedness = .unsigned) (hx : Holds left x)
    (hy : Holds right y) (hb : b.Represents array σ) (h : σ.Invariant x y)
    (hxarray : x < 2 ^ array.bitSize) (hyarray : y < 2 ^ array.bitSize) :
    ∃ s t, positiveCoefficients array left right b = some (s, t) ∧
      Holds ⟨array, s⟩ (σ.leftCoefficient y) ∧ Holds ⟨array, t⟩ (σ.rightCoefficient x) := by
  obtain ⟨c, hc⟩ := subtract_of_le hu hb.oldS.length_eq
    (Operand.reads_of_holds (x := .apart right) hy)
    (Operand.reads_of_holds (x := .shared array) hb.oldS) h.oldS_le
  obtain ⟨d, hd⟩ := subtract_of_le hu hb.oldT.length_eq
    (Operand.reads_of_holds (x := .apart left) hx)
    (Operand.reads_of_holds (x := .shared array) hb.oldT) h.oldT_le
  unfold State.leftCoefficient State.rightCoefficient positiveCoefficients
  rw [hb.iteration]
  cases σ.iteration with
  | true =>
      simp only [if_true, hc, Option.bind_eq_bind, Option.bind_some]
      exact ⟨_, _, rfl, holds_image hu ((Nat.sub_le _ _).trans_lt hyarray), hb.oldT⟩
  | false =>
      simp only [Bool.false_eq_true, if_false, hd, Option.bind_eq_bind, Option.bind_some]
      exact ⟨_, _, rfl, hb.oldS, holds_image hu ((Nat.sub_le _ _).trans_lt hxarray)⟩

section

variable [NeZero w] {left right : BitSpan w} {b : Buffers w} {x y : ℕ} (hx : Holds left x)
  (hy : Holds right y) (hxpos : 0 < x)
include hx hy hxpos

theorem extendedEuclideanStart_eq : ∃ b, extendedEuclideanStart left right = some b ∧
    b.Represents (compiletimeArray (max left.type.bitSize right.type.bitSize))
      (State.start x y) := by
  generalize harray : compiletimeArray (max left.type.bitSize right.type.bitSize) = array
  have hu : array.signedness = .unsigned := harray ▸ rfl
  have hbits : array.bitSize = max left.type.bitSize right.type.bitSize := harray ▸ rfl
  have hroom {z n : ℕ} (hz : z < 2 ^ n) (hn : n ≤ array.bitSize) :
      Holds ⟨array, array.image w z⟩ z :=
    holds_image hu (hz.trans_le (Nat.pow_le_pow_right two_pos hn))
  have hpos : 0 < array.bitSize := by
    apply Nat.pos_of_ne_zero
    intro hzero
    have hlt := hx.lt
    rw [show left.type.bitSize = 0 by omega, pow_zero] at hlt
    omega
  have hcopy := bitCopy_eq hu (length_zeros array)
    (Operand.reads_of_holds (x := .apart left) hx)
  have hcopy' := bitCopy_eq hu (length_zeros array)
    (Operand.reads_of_holds (x := .apart right) hy)
  refine ⟨⟨_, _, (zeros w array).set 0 1, zeros w array, zeros w array, (zeros w array).set 0 1,
    zeros w array, zeros w array, false⟩, ?_, hroom hx.lt (hbits ▸ le_max_left _ _),
    hroom hy.lt (hbits ▸ le_max_right _ _), holds_set_one hu hpos, holds_zeros hu, holds_zeros hu,
    holds_set_one hu hpos, length_zeros array, length_zeros array, rfl⟩
  rw [extendedEuclideanStart]
  simp only [harray, hcopy, hcopy', Option.bind_eq_bind, Option.bind_some]
  rfl

variable (hypos : 0 < y)
include hypos

/-- In every run the arrays hold the numbers of a run without a limit to their width. -/
theorem Reached.represents (h : Reached left right b) : ∃ σ, State.Reached x y σ ∧
    b.Represents (compiletimeArray (max left.type.bitSize right.type.bitSize)) σ := by
  induction h with
  | start h =>
      obtain ⟨b', hb', hrepresents⟩ := extendedEuclideanStart_eq hx hy hxpos
      obtain rfl := Option.some.inj (h.symm.trans hb')
      exact ⟨_, .start, hrepresents⟩
  | step h hr hnext ih =>
      obtain ⟨σ, hσ, hb⟩ := ih
      rw [hb.notEqualTo_eq, Option.some_inj, bitOf_eq_one_iff] at hr
      obtain ⟨b', hb', hrepresents⟩ := extendedEuclideanStep_eq rfl hb
        (hσ.invariant hxpos hypos) (Nat.pos_of_ne_zero hr)
        (hx.lt.trans_le (Nat.pow_le_pow_right two_pos (le_max_left _ _)))
        (hy.lt.trans_le (Nat.pow_le_pow_right two_pos (le_max_right _ _)))
      obtain rfl := Option.some.inj (hnext.symm.trans hb')
      exact ⟨_, hσ.next (Nat.pos_of_ne_zero hr), hrepresents⟩

section

variable {result leftResult rightResult : SpanType} (hresult : result.signedness = .unsigned)
  (hleft : leftResult.signedness = .unsigned) (hright : rightResult.signedness = .unsigned)
  {resultLimbs leftLimbs rightLimbs : List (BitVec w)}
  (hresultLimbs : resultLimbs.length = result.limbSize w)
  (hleftLimbs : leftLimbs.length = leftResult.limbSize w)
  (hrightLimbs : rightLimbs.length = rightResult.limbSize w)
include hresult hleft hright hresultLimbs hleftLimbs hrightLimbs

/-- What is written at the end of a run. -/
theorem extendedEuclidean_run {steps : ℕ} (hsteps : y < steps) : ∃ σ : State,
    extendedEuclidean result leftResult rightResult left right steps resultLimbs leftLimbs
      rightLimbs = some (result.image w (Nat.gcd x y : ℕ),
        leftResult.image w (σ.leftCoefficient y), rightResult.image w (σ.rightCoefficient x)) ∧
    Compiletime.extendedEuclideanLoop w (max left.type.bitSize right.type.bitSize) steps
      (State.start x y) = some σ ∧ σ.Invariant x y ∧ σ.r = 0 := by
  generalize hwidth : max left.type.bitSize right.type.bitSize = width
  have hxwidth : x < 2 ^ width := hx.lt.trans_le (Nat.pow_le_pow_right two_pos (by omega))
  have hywidth : y < 2 ^ width := hy.lt.trans_le (Nat.pow_le_pow_right two_pos (by omega))
  obtain ⟨start, hstart, hrepresents⟩ := extendedEuclideanStart_eq hx hy hxpos
  rw [hwidth] at hrepresents
  obtain ⟨b, σ, hloop, hnumbers, hb, h, hend⟩ := extendedEuclideanLoop_eq hrepresents
    (State.invariant_start hxpos hypos) hxwidth hywidth hsteps
  obtain ⟨s, t, hcoefficients, hs, ht⟩ := positiveCoefficients_eq rfl hx hy hb h hxwidth hywidth
  have holdR := hb.oldR
  rw [h.oldR_gcd hend] at holdR
  have hcopy := bitCopy_eq hresult hresultLimbs (Operand.reads_of_holds (x := .apart _) holdR)
  have hcopyLeft := bitCopy_eq hleft hleftLimbs (Operand.reads_of_holds (x := .apart _) hs)
  have hcopyRight := bitCopy_eq hright hrightLimbs (Operand.reads_of_holds (x := .apart _) ht)
  refine ⟨σ, ?_, hnumbers, h, hend⟩
  rw [extendedEuclidean]
  simp only [hwidth, hstart, hloop, hcoefficients, hcopy, hcopyLeft, hcopyRight,
    Option.bind_eq_bind, Option.bind_some]
  rfl

/-- The extended algorithm ends, and writes the greatest common divisor and its coefficients. -/
theorem extendedEuclidean_eq {steps : ℕ} (hsteps : y < steps) : ∃ s t : ℕ,
    extendedEuclidean result leftResult rightResult left right steps resultLimbs leftLimbs
      rightLimbs = some (result.image w (Nat.gcd x y : ℕ), leftResult.image w s,
        rightResult.image w t) ∧
    s ≤ y ∧ s * x ≡ Nat.gcd x y [MOD y] ∧ t ≤ x ∧ t * y ≡ Nat.gcd x y [MOD x] := by
  obtain ⟨σ, hrun, -, h, hend⟩ := extendedEuclidean_run hx hy hxpos hypos hresult hleft hright
    hresultLimbs hleftLimbs hrightLimbs hsteps
  have hs := h.leftCoefficient_mul
  have ht := h.rightCoefficient_mul
  rw [h.oldR_gcd hend] at hs ht
  exact ⟨_, _, hrun, h.leftCoefficient_le, (Nat.modEq_iff_dvd.mpr (by exact_mod_cast hs)).symm,
    h.rightCoefficient_le, (Nat.modEq_iff_dvd.mpr (by exact_mod_cast ht)).symm⟩

/-- **It refines** the algorithm on numbers. -/
theorem extendedEuclidean_refines : ∃ l,
    extendedEuclidean result leftResult rightResult left right (y + 1) resultLimbs leftLimbs
      rightLimbs = some l ∧
    Compiletime.extendedEuclidean w result leftResult rightResult left.type.bitSize
      right.type.bitSize x y = some (value l.1, value l.2.1, value l.2.2) := by
  obtain ⟨σ, hrun, hloop, h, hend⟩ := extendedEuclidean_run hx hy hxpos hypos hresult hleft hright
    hresultLimbs hleftLimbs hrightLimbs (Nat.lt_succ_self y)
  generalize hwidth : max left.type.bitSize right.type.bitSize = width at hloop
  have hxwidth : x < 2 ^ width := hx.lt.trans_le (Nat.pow_le_pow_right two_pos (by omega))
  have hywidth : y < 2 ^ width := hy.lt.trans_le (Nat.pow_le_pow_right two_pos (by omega))
  have hkept {z : ℕ} (hz : z < 2 ^ width) : (compiletimeArray width).kept w z = z :=
    Compiletime.kept_of_lt hz
  -- of the coefficients one is negative, and is returned as its difference to the other operand
  have hs : (if σ.iteration then (compiletimeArray width).kept w ((y : ℤ) - σ.oldS)
      else σ.oldS) = σ.leftCoefficient y := by
    unfold State.leftCoefficient
    split_ifs
    · rw [← Nat.cast_sub h.oldS_le, hkept ((Nat.sub_le _ _).trans_lt hywidth)]
    · rfl
  have ht : (if σ.iteration then σ.oldT
      else (compiletimeArray width).kept w ((x : ℤ) - σ.oldT)) = σ.rightCoefficient x := by
    unfold State.rightCoefficient
    split_ifs
    · rfl
    · rw [← Nat.cast_sub h.oldT_le, hkept ((Nat.sub_le _ _).trans_lt hxwidth)]
  refine ⟨_, hrun, ?_⟩
  dsimp only
  rw [value_image hresult, value_image hleft, value_image hright, Compiletime.extendedEuclidean]
  have hstart : (⟨x, y, 1, 0, 0, 1, false⟩ : State) = State.start x y := rfl
  simp only [hwidth, hkept hxwidth, hkept hywidth, hstart, hloop, Option.bind_eq_bind,
    Option.bind_some, hs, ht, h.oldR_gcd hend]
  rfl

end

end

end Hmpc.Core.Checked
