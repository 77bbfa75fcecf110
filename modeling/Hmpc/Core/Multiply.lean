/-
# Hmpc.Core.Multiply -- the product of two unsigned spans

The product is collected row by row, one for each limb of the right operand, in an array of its
own as wide as the result or the product, whichever is less. What has not been written yet is never
read, so that nothing depends on what the array held before. A result with more limbs than the array
does not compile at run time, since the loop that clears them leaves `write` without a type.
-/
import Hmpc.Core.Num

namespace Hmpc.Core

open Hmpc.Lib.Loops Hmpc.Lib.Limbs Hmpc.Lib.Digits MaybeConstant SpanType

variable {w : ℕ}

namespace Num

/-- The inner loop of `multiply`: row `i`, with the limb `rightValue` of the right operand, is added
to the first `n` limbs of the product. -/
def multiplyRow (t : SpanType) (n : ℕ) (left : Span w) (rightValue : MaybeConstant (BitVec w))
    (i : ℕ) (intermediate : List (BitVec w)) : List (BitVec w) × MaybeConstant (BitVec w) :=
  scanRange (Nat.min (n - i) left.limbSize) (fun j s =>
    let leftValue := left.read j
    let k := i + j
    let current := if i = 0 then zero w else runtime (s.1.getD k 0)
    if k + 1 < t.limbSize w then
      let r := extendedMultiplyAdd leftValue rightValue current s.2
      (s.1.set k r.lower.value, r.upper)
    else (s.1.set k (multiplyAdd leftValue rightValue current s.2).value, zero w))
    (intermediate, zero w)

/-- The first `rows` steps of the outer loop of `multiply`. -/
def partialProduct (t : SpanType) (n : ℕ) (left right : Span w)
    (uninitialized : List (BitVec w)) (rows : ℕ) : List (BitVec w) :=
  scanRange rows (fun i intermediate =>
    let row := multiplyRow t n left (right.read i) i intermediate
    if n > left.limbSize + i then row.1.set (i + left.limbSize) row.2.value else row.1)
    uninitialized

/-- The outer loop of `multiply`. -/
def multiplyRows (t : SpanType) (n : ℕ) (left right : Span w) (uninitialized : List (BitVec w)) :
    List (BitVec w) :=
  partialProduct t n left right uninitialized (Nat.min n right.limbSize)

/-- `multiply(result, left, right)` without its last loop, which compiles only where it is empty. -/
def multiply (t : SpanType) (left right : Span w) (uninitialized result : List (BitVec w)) :
    List (BitVec w) :=
  let n := limbSizeFor w (Nat.min t.bitSize (left.bitSize + right.bitSize))
  let intermediate := multiplyRows t n left right uninitialized
  scanRange n (fun i l => t.write i (intermediate.getD i 0) t.normalType l) result

/-- Whether `multiply` compiles: the last loop writes `{}` to the limbs of the result above the
array, from which `write` cannot deduce its `Value`. -/
def MultiplyCompiles (t : SpanType) (left right : Span w) : Prop :=
  t.limbSize w ≤ limbSizeFor w (Nat.min t.bitSize (left.bitSize + right.bitSize))

instance decidableMultiplyCompiles (t : SpanType) (left right : Span w) :
    Decidable (MultiplyCompiles t left right) :=
  inferInstanceAs (Decidable (_ ≤ _))

/-- `multiply(result, left, right)`, when it compiles -/
def tryMultiply (t : SpanType) (left right : Span w) (uninitialized result : List (BitVec w)) :
    Option (List (BitVec w)) :=
  if MultiplyCompiles t left right then some (multiply t left right uninitialized result) else none

theorem tryMultiply_eq {t : SpanType} {left right : Span w} (h : MultiplyCompiles t left right)
    (uninitialized result : List (BitVec w)) :
    tryMultiply t left right uninitialized result =
      some (multiply t left right uninitialized result) := if_pos h

theorem tryMultiply_none {t : SpanType} {left right : Span w} (h : ¬MultiplyCompiles t left right)
    (uninitialized result : List (BitVec w)) :
    tryMultiply t left right uninitialized result = none := if_neg h

/-- The width of the product decides, since the array is never wider than the result. -/
theorem multiplyCompiles_iff {t : SpanType} {left right : Span w} :
    MultiplyCompiles t left right ↔
      t.limbSize w ≤ limbSizeFor w (left.bitSize + right.bitSize) := by
  unfold MultiplyCompiles
  rcases Nat.le_total t.bitSize (left.bitSize + right.bitSize) with hle | hle
  · have hmin : Nat.min t.bitSize (left.bitSize + right.bitSize) = t.bitSize := Nat.min_eq_left hle
    rw [hmin]
    exact iff_of_true le_rfl (limbSizeFor_mono hle)
  · have hmin : Nat.min t.bitSize (left.bitSize + right.bitSize) = left.bitSize + right.bitSize :=
      Nat.min_eq_right hle
    rw [hmin]

@[simp] theorem length_multiply (t : SpanType) (left right : Span w)
    (uninitialized result : List (BitVec w)) :
    (multiply t left right uninitialized result).length = result.length :=
  scanRange_keeps (fun _ _ => t.length_write _ _ _ _) _ _

/-- An unsigned span that reads as a number of its bits. -/
structure Unsigned (x : Span w) (z : ℤ) : Prop where
  denotes : x.Denotes z
  limbs : x.limbSize = limbSizeFor w x.bitSize
  nonneg : 0 ≤ z
  lt : z < 2 ^ x.bitSize

/-- A span that reads as a number of its limbs. There may be bits above those of the span. -/
structure Limbed (x : Span w) (z : ℤ) : Prop where
  denotes : x.Denotes z
  nonneg : 0 ≤ z
  lt : z < (2 ^ w) ^ x.limbSize

theorem Unsigned.limbed [NeZero w] {x : Span w} {z : ℤ} (h : Unsigned x z) : Limbed x z where
  denotes := h.denotes
  nonneg := h.nonneg
  lt := by
    have hle : x.bitSize ≤ w * x.limbSize := (limbSizeFor_le_iff _ _).mp h.limbs.ge
    rw [← pow_mul]
    exact lt_of_lt_of_le h.lt (pow_le_pow_right₀ (by norm_num) hle)

theorem Unsigned.lt_pow [NeZero w] {x : Span w} {z : ℤ} (h : Unsigned x z) :
    z < (2 ^ w) ^ x.limbSize := h.limbed.lt

section Row

variable {t : SpanType} {n : ℕ} {left : Span w} {rightValue : MaybeConstant (BitVec w)}
  {intermediate : List (BitVec w)} {i : ℕ} {x s z : ℤ}

/-- What the loop of a row keeps: the limbs of the row are those of the new sum, and what is above
them is split as in the old sum, the rest of the row, and the carry. -/
structure RowState (t : SpanType) (intermediate : List (BitVec w))
    (rightValue : MaybeConstant (BitVec w)) (i : ℕ) (x s z : ℤ) (j : ℕ)
    (l : List (BitVec w) × MaybeConstant (BitVec w)) : Prop where
  length_eq : l.1.length = intermediate.length
  written : ∀ k, i ≤ k → k < i + j → l.1.getD k 0 = digit w z k
  rest : ∀ k, k < i ∨ i + j ≤ k → l.1.getD k 0 = intermediate.getD k 0
  carry : i + j < t.limbSize w → z / (2 ^ w) ^ (i + j) =
    s / (2 ^ w) ^ (i + j) + rightValue.value.toNat * (x / (2 ^ w) ^ j) + l.2.value.toNat

theorem RowState.step {l : List (BitVec w)} {c c' : MaybeConstant (BitVec w)} {j : ℕ} {v : BitVec w}
    (h : RowState t intermediate rightValue i x s z j (l, c)) (hj : i + j < intermediate.length)
    (hv : v = digit w z (i + j))
    (hc : i + (j + 1) < t.limbSize w → z / (2 ^ w) ^ (i + (j + 1)) =
      s / (2 ^ w) ^ (i + (j + 1)) + rightValue.value.toNat * (x / (2 ^ w) ^ (j + 1)) +
        c'.value.toNat) :
    RowState t intermediate rightValue i x s z (j + 1) (l.set (i + j) v, c') where
  length_eq := by
    show (l.set (i + j) v).length = _
    rw [List.length_set, h.length_eq]
  written k hk hlt := by
    show (l.set (i + j) v).getD k 0 = _
    rw [getD_set]
    by_cases hij : i + j = k
    · have hkl : k < l.length := by rw [h.length_eq]; omega
      rw [if_pos ⟨hij, hkl⟩, hv, hij]
    · rw [if_neg (fun hcon => hij hcon.1)]
      exact h.written k hk (by omega)
  rest k hk := by
    show (l.set (i + j) v).getD k 0 = _
    rw [getD_set, if_neg (by omega)]
    exact h.rest k (by omega)
  carry := hc

theorem multiplyRow_state [NeZero w] (hn : n ≤ t.limbSize w) (hlen : intermediate.length = n)
    (hx : left.Denotes x)
    (hold : ∀ k, i ≤ k → k < n → k < i + left.limbSize →
      (if i = 0 then 0 else intermediate.getD k 0) = digit w s k)
    (hz : z = s + rightValue.value.toNat * x * (2 ^ w) ^ i) :
    RowState t intermediate rightValue i x s z (Nat.min (n - i) left.limbSize)
      (multiplyRow t n left rightValue i intermediate) := by
  apply scanRange_induction
    (P := fun j (l : List (BitVec w) × MaybeConstant (BitVec w)) =>
      RowState t intermediate rightValue i x s z j l)
  · refine ⟨rfl, fun k _ hk => by omega, fun _ _ => rfl, fun _ => ?_⟩
    rw [hz, Nat.add_zero, Int.add_mul_ediv_right _ _ (pow_base_pos w i).ne']
    simp
  · rintro j hj ⟨l, c⟩ hstate
    have hjn : i + j < n := by
      have := lt_of_lt_of_le hj (Nat.min_le_left _ _)
      omega
    have hjl : j < left.limbSize := lt_of_lt_of_le hj (Nat.min_le_right _ _)
    dsimp only
    have hcurrent : (if i = 0 then zero w else runtime (l.getD (i + j) 0)).value =
        digit w s (i + j) := by
      have hrest : l.getD (i + j) 0 = intermediate.getD (i + j) 0 :=
        hstate.rest (i + j) (.inr le_rfl)
      rw [← hold (i + j) (by omega) hjn (by omega), ← hrest]
      split_ifs <;> rfl
    generalize (if i = 0 then zero w else runtime (l.getD (i + j) 0)) = current at hcurrent
    have hequals := equals_extendedMultiplyAdd (left.read j) rightValue current c
    unfold MultiplyResult.Equals at hequals
    rw [hcurrent, hx] at hequals
    zify at hequals
    obtain ⟨hdigit, hnext⟩ := mul_step (hstate.carry (by omega)) hequals
    split_ifs with hk
    · exact hstate.step (hlen ▸ hjn) hdigit fun _ => hnext
    · -- the last limb of the result: nothing goes up any more
      exact hstate.step (hlen ▸ hjn) (by rw [multiplyAdd_eq_lower, hdigit]) fun hcon =>
        absurd hcon hk

end Row

section

variable [NeZero w] {t : SpanType} {n : ℕ} {left right : Span w}
  {uninitialized result : List (BitVec w)} {x y : ℤ}

omit [NeZero w] in
/-- The product with the lower `i` limbs of the right operand fits the limbs of the first `i`
rows. -/
theorem partialProduct_lt (hx : Limbed left x) (i : ℕ) :
    x * (y % (2 ^ w) ^ i) < (2 ^ w) ^ (i + left.limbSize) := by
  have hlt := Int.emod_lt_of_pos y (pow_base_pos w i)
  have hnonneg := Int.emod_nonneg y (pow_base_pos w i).ne'
  rw [pow_add, mul_comm ((2 ^ w) ^ i)]
  exact mul_lt_mul'' hx.lt hlt hx.nonneg hnonneg

/-- A row, with the limb it carries out, adds the next digit of the right operand. -/
theorem multiplyRow_eq {intermediate : List (BitVec w)} {i : ℕ} (hn : n ≤ t.limbSize w)
    (hx : Limbed left x) (hy : right.Denotes y) (hlen : intermediate.length = n)
    (hold : 0 < i → ∀ k < n, k < i + left.limbSize →
      intermediate.getD k 0 = digit w (x * (y % (2 ^ w) ^ i)) k) {l : List (BitVec w)}
    (hl : l = (let row := multiplyRow t n left (right.read i) i intermediate
      if n > left.limbSize + i then row.1.set (i + left.limbSize) row.2.value else row.1)) :
    l.length = n ∧ ∀ k < n, k < i + 1 + left.limbSize →
      l.getD k 0 = digit w (x * (y % (2 ^ w) ^ (i + 1))) k := by
  have hsum : x * (y % (2 ^ w) ^ (i + 1)) =
      x * (y % (2 ^ w) ^ i) + (right.read i).value.toNat * x * (2 ^ w) ^ i := by
    rw [emod_succ, hy]
    ring
  have hstate := multiplyRow_state (t := t) (n := n) (x := x) (s := x * (y % (2 ^ w) ^ i))
    hn hlen hx.denotes (by
      intro k hik hkn hkl
      split_ifs with hzero
      · rw [hzero, pow_zero, Int.emod_one, mul_zero, digit_zero]
      · exact hold (by omega) k hkn hkl) hsum
  generalize multiplyRow t n left (right.read i) i intermediate = row at hstate hl
  have hmin : Nat.min (n - i) left.limbSize = if n - i ≤ left.limbSize then n - i
    else left.limbSize := rfl
  have hbelow : ∀ k < n, k < i + left.limbSize →
      row.1.getD k 0 = digit w (x * (y % (2 ^ w) ^ (i + 1))) k := by
    intro k hkn hkl
    rcases Nat.lt_or_ge k i with hki | hki
    · -- the row starts above
      rw [hstate.rest k (.inl hki), hold (by omega) k hkn hkl]
      have hmod : x * (y % (2 ^ w) ^ i) % 2 ^ (w * i) =
          x * (y % (2 ^ w) ^ (i + 1)) % 2 ^ (w * i) := by
        rw [hsum, pow_mul, mul_comm (_ * x), Int.add_mul_emod_self_left]
      exact digit_congr_of_emod hmod (Nat.mul_le_mul_left w hki)
    · apply hstate.written k hki
      split_ifs at hmin <;> omega
  rw [hl]
  dsimp only
  split_ifs with hcarry
  · refine ⟨by rw [List.length_set, hstate.length_eq, hlen], ?_⟩
    intro k hkn hkl
    rw [getD_set]
    by_cases hk : i + left.limbSize = k
    · have hklen : k < row.1.length := by rw [hstate.length_eq]; omega
      rw [if_pos ⟨hk, hklen⟩, ← hk]
      apply eq_digit
      have hcarry := hstate.carry
      rw [hmin, if_neg (by omega)] at hcarry
      have hyB₀ := Int.emod_nonneg y (pow_base_pos w i).ne'
      rw [hcarry (by omega),
        Int.ediv_eq_zero_of_lt (mul_nonneg hx.nonneg hyB₀) (partialProduct_lt hx i),
        Int.ediv_eq_zero_of_lt hx.nonneg hx.lt, mul_zero, zero_add, zero_add,
        Int.emod_eq_of_lt (by positivity) (toNat_lt_int _)]
    · rw [if_neg (fun hcon => hk hcon.1)]
      exact hbelow k hkn (by omega)
  · exact ⟨hstate.length_eq.trans hlen, fun k hkn _ => hbelow k hkn (by omega)⟩

/-- After `i` rows the limbs hold the product with the lower `i` limbs of the right operand. -/
theorem partialProduct_eq (hn : n ≤ t.limbSize w) (hx : Limbed left x) (hy : right.Denotes y)
    (hlen : uninitialized.length = n) (i : ℕ) :
    (partialProduct t n left right uninitialized i).length = n ∧
      (0 < i → ∀ k < n, k < i + left.limbSize →
        (partialProduct t n left right uninitialized i).getD k 0 =
          digit w (x * (y % (2 ^ w) ^ i)) k) := by
  apply scanRange_induction (P := fun i (l : List (BitVec w)) => l.length = n ∧
    (0 < i → ∀ k < n, k < i + left.limbSize →
      l.getD k 0 = digit w (x * (y % (2 ^ w) ^ i)) k))
  · exact ⟨hlen, fun hcon => absurd hcon (Nat.lt_irrefl 0)⟩
  · rintro i - l ⟨hl, hdigits⟩
    have hrow := multiplyRow_eq hn hx hy hl hdigits rfl
    exact ⟨hrow.1, fun _ => hrow.2⟩

/-- All rows together give the digits of the product. -/
theorem multiplyRows_eq (hn : n ≤ t.limbSize w) (hfit : n ≤ left.limbSize + right.limbSize)
    (hrows : 0 < n → 0 < right.limbSize) (hx : Limbed left x) (hy : Limbed right y)
    (hlen : uninitialized.length = n) :
    ∀ k < n, (multiplyRows t n left right uninitialized).getD k 0 = digit w (x * y) k := by
  have hscan := (partialProduct_eq hn hx hy.denotes hlen (Nat.min n right.limbSize)).2
  intro k hk
  have hpos := hrows (by omega)
  show (partialProduct t n left right uninitialized (Nat.min n right.limbSize)).getD k 0 = _
  rcases Nat.le_total right.limbSize n with hle | hle
  · have hmin : Nat.min n right.limbSize = right.limbSize := Nat.min_eq_right hle
    rw [hmin, Int.emod_eq_of_lt hy.nonneg hy.lt] at hscan
    rw [hmin]
    exact hscan hpos k hk (by omega)
  · -- the product is cut off
    have hmin : Nat.min n right.limbSize = n := Nat.min_eq_left hle
    rw [hmin] at hscan
    rw [hmin, hscan (by omega) k hk (by omega)]
    have hmod : x * (y % (2 ^ w) ^ n) % 2 ^ (w * n) = x * y % 2 ^ (w * n) := by
      rw [← pow_mul, Int.mul_emod, Int.emod_emod, ← Int.mul_emod]
    exact digit_congr_of_emod hmod (Nat.mul_le_mul_left w hk)

omit [NeZero w] in
/-- The limbs of the array are copied. -/
theorem copyProduct_filled {intermediate : List (BitVec w)} {z : ℤ}
    (hlen : result.length = t.limbSize w) (hn : n ≤ t.limbSize w)
    (hdigits : ∀ k < n, intermediate.getD k 0 = digit w z k) :
    t.Filled result z n
      (scanRange n (fun i l => t.write i (intermediate.getD i 0) t.normalType l) result) := by
  apply scanRange_induction (P := fun i (l : List (BitVec w)) => t.Filled result z i l)
  · exact Filled.start t _ _
  · intro i hi l hfilled
    exact hfilled.step (by omega) (hdigits i hi)

omit [NeZero w] in
/-- The limbs above are cleared, which only the version for compile time gets to do. -/
theorem clearAbove_eq {l : List (BitVec w)} {z : ℤ} (hcopied : t.Filled result z n l)
    (hlen : result.length = t.limbSize w) (hn : n ≤ t.limbSize w)
    (habove : ∀ k, n ≤ k → k < t.limbSize w → digit w z k = 0) :
    scanRange (t.limbSize w - n) (fun i l => t.write (n + i) 0 .unnormal l) l = t.image w z := by
  have hzeros : t.Filled result z (n + (t.limbSize w - n))
      (scanRange (t.limbSize w - n) (fun i l => t.write (n + i) 0 .unnormal l) l) := by
    apply scanRange_induction (P := fun i (l : List (BitVec w)) => t.Filled result z (n + i) l)
    · exact hcopied
    · intro i hi l hfilled
      apply hfilled.stepStored (by omega)
      rw [habove (n + i) (by omega) (by omega), t.stored_zero, t.stored_zero]
  rw [show n + (t.limbSize w - n) = t.limbSize w by omega] at hzeros
  exact hzeros.done hlen

omit [NeZero w] in
/-- Without rows what the array held before is copied. -/
theorem multiply_filled_of_no_rows (left : Span w) (hright : right.limbSize = 0)
    (hzeros : ∀ k, uninitialized.getD k 0 = 0) (hlen : result.length = t.limbSize w) :
    t.Filled result 0 (limbSizeFor w (Nat.min t.bitSize (left.bitSize + right.bitSize)))
      (multiply t left right uninitialized result) := by
  have hrows : ∀ n, multiplyRows t n left right uninitialized = uninitialized := by
    intro n
    have hmin : Nat.min n right.limbSize = 0 := by rw [hright]; exact Nat.min_zero n
    unfold multiplyRows
    rw [hmin]
    rfl
  unfold multiply
  dsimp only
  rw [hrows]
  refine copyProduct_filled hlen (limbSizeFor_mono (Nat.min_le_left _ _)) ?_
  intro k _
  rw [hzeros, digit_zero]

/-- The array has room for the product, or else all the limbs of the result. -/
theorem product_cut (hx : Unsigned left x) (hy : Unsigned right y)
    (hn : n = limbSizeFor w (Nat.min t.bitSize (left.bitSize + right.bitSize))) :
    x * y < (2 ^ w) ^ n ∨ n = t.limbSize w := by
  rcases Nat.le_total (left.bitSize + right.bitSize) t.bitSize with hbits | hbits
  · have hmin : Nat.min t.bitSize (left.bitSize + right.bitSize) = left.bitSize + right.bitSize :=
      Nat.min_eq_right hbits
    rw [hmin] at hn
    left
    calc x * y < 2 ^ left.bitSize * 2 ^ right.bitSize :=
          mul_lt_mul'' hx.lt hy.lt hx.nonneg hy.nonneg
      _ = 2 ^ (left.bitSize + right.bitSize) := (pow_add _ _ _).symm
      _ ≤ 2 ^ (w * n) :=
          pow_le_pow_right₀ (by norm_num) ((limbSizeFor_le_iff _ _).mp hn.ge)
      _ = (2 ^ w) ^ n := pow_mul _ _ _
  · have hmin : Nat.min t.bitSize (left.bitSize + right.bitSize) = t.bitSize :=
      Nat.min_eq_left hbits
    rw [hmin] at hn
    exact .inr hn

/-- Where the array has no limbs, the result has zeros. -/
theorem digit_product_above (hx : Unsigned left x) (hy : Unsigned right y)
    (hn : n = limbSizeFor w (Nat.min t.bitSize (left.bitSize + right.bitSize))) {k : ℕ}
    (hk : n ≤ k) (hkt : k < t.limbSize w) : digit w (x * y) k = 0 := by
  rcases product_cut hx hy hn with hlt | hall
  · exact digit_of_lt (mul_nonneg hx.nonneg hy.nonneg) hlt hk
  · omega

/-- The product of numbers of the limbs of the operands, as far as the array holds it. -/
theorem multiply_filled_of_limbed (hx : Limbed left x) (hy : Limbed right y)
    (hl : left.limbSize = limbSizeFor w left.bitSize)
    (hr : right.limbSize = limbSizeFor w right.bitSize)
    (hn : n = limbSizeFor w (Nat.min t.bitSize (left.bitSize + right.bitSize)))
    (hrows : 0 < n → 0 < right.limbSize) (hun : uninitialized.length = n)
    (hlen : result.length = t.limbSize w) :
    t.Filled result (x * y) n (multiply t left right uninitialized result) := by
  have hnt : n ≤ t.limbSize w := hn ▸ limbSizeFor_mono (Nat.min_le_left _ _)
  have hfit : n ≤ left.limbSize + right.limbSize := by
    rw [hn, limbSizeFor_le_iff, Nat.mul_add]
    have hl' : left.bitSize ≤ w * left.limbSize := (limbSizeFor_le_iff _ _).mp hl.ge
    have hr' : right.bitSize ≤ w * right.limbSize := (limbSizeFor_le_iff _ _).mp hr.ge
    exact (Nat.min_le_right _ _).trans (by omega)
  unfold multiply
  rw [← hn]
  exact copyProduct_filled hlen hnt (multiplyRows_eq hnt hfit hrows hx hy hun)

/-- The product, as far as the array holds it. A right operand without limbs would leave the product
as it was. -/
theorem multiply_filled (hx : Unsigned left x) (hy : Unsigned right y)
    (hright : right.bitSize = 0 → t.bitSize = 0 ∨ left.bitSize = 0)
    (hun : uninitialized.length =
      limbSizeFor w (Nat.min t.bitSize (left.bitSize + right.bitSize)))
    (hlen : result.length = t.limbSize w) :
    t.Filled result (x * y) (limbSizeFor w (Nat.min t.bitSize (left.bitSize + right.bitSize)))
      (multiply t left right uninitialized result) := by
  have hrows : 0 < limbSizeFor w (Nat.min t.bitSize (left.bitSize + right.bitSize)) →
      0 < right.limbSize := by
    intro hpos
    have hbits : right.bitSize ≠ 0 := by
      intro hzero
      have hmin : Nat.min t.bitSize (left.bitSize + right.bitSize) = 0 := by
        rcases hright hzero with h | h
        · rw [h]
          exact Nat.zero_min _
        · rw [h, hzero]
          exact Nat.min_zero _
      rw [hmin, limbSizeFor_zero] at hpos
      omega
    rw [hy.limbs]
    apply Nat.pos_of_ne_zero
    intro hzero
    have := (limbSizeFor_le_iff (w := w) right.bitSize 0).mp hzero.le
    omega
  exact multiply_filled_of_limbed hx.limbed hy.limbed hx.limbs hy.limbs rfl hrows hun hlen

omit [NeZero w] in
/-- Where it compiles, the array has all limbs of the result. -/
theorem MultiplyCompiles.done {l : List (BitVec w)} {z : ℤ} (h : MultiplyCompiles t left right)
    (hn : n = limbSizeFor w (Nat.min t.bitSize (left.bitSize + right.bitSize)))
    (hfilled : t.Filled result z n l) (hlen : result.length = t.limbSize w) :
    l = t.image w z := by
  rw [hn, le_antisymm (limbSizeFor_mono (Nat.min_le_left _ _)) h] at hfilled
  exact hfilled.done hlen

/-- The product, as far as the result holds it. -/
theorem multiply_eq (hx : Unsigned left x) (hy : Unsigned right y)
    (hright : right.bitSize = 0 → t.bitSize = 0 ∨ left.bitSize = 0)
    (hcompiles : MultiplyCompiles t left right)
    (hun : uninitialized.length =
      limbSizeFor w (Nat.min t.bitSize (left.bitSize + right.bitSize)))
    (hlen : result.length = t.limbSize w) :
    multiply t left right uninitialized result = t.image w (x * y) :=
  hcompiles.done rfl (multiply_filled hx hy hright hun hlen) hlen

end

end Num

end Hmpc.Core
