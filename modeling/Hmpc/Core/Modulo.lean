/-
# Hmpc.Core.Modulo -- Montgomery reduction on limbs

`montgomery_reduce` collects multiples of the modulus in an array of `r + p + 1` limbs until the
lowest `r` limbs are zero, and writes what is above them, with the modulus subtracted if it is not
below it. The array is large enough that no carry is lost.
-/
import Hmpc.Core.Compare
import Hmpc.Core.Multiply
import Hmpc.Lib.Montgomery
import Mathlib.RingTheory.Coprime.Lemmas

namespace Hmpc.Core

open Hmpc.Lib.Loops Hmpc.Lib.Limbs Hmpc.Lib.Digits Hmpc.Lib.Montgomery MaybeConstant SpanType

variable {w : ℕ}

namespace Num

/-- The loops of `montgomery_reduce` over `j` and over `k`: a multiple of the modulus is added from
limb `i` on. -/
def reduceRow (modulus : Span w) (inverseModulus : BitVec w) (i : ℕ) (T : List (BitVec w)) :
    List (BitVec w) :=
  let m := Core.multiply (runtime (T.getD i 0)) (constant inverseModulus)
  let p := modulus.limbSize
  let row := scanRange p (fun j s =>
    let k := i + j
    let r := extendedMultiplyAdd m (modulus.read j) (runtime (s.1.getD k 0)) s.2
    (s.1.set k r.lower.value, r.upper)) (T, zero w)
  (scanRange (T.length - (i + p)) (fun j s =>
    let k := i + p + j
    let r := extendedAdd (runtime (s.1.getD k 0)) s.2
    (s.1.set k r.sum.value, limbFrom w r.carry)) row).1

/-- The type of `T_storage`. -/
def scratchType (w r p : ℕ) : SpanType := ⟨w * (r + p + 1), .unsigned, .normal⟩

/-- `montgomery_reduce(result, value, modulus, auxiliary_power, inverse_modulus)` -/
def montgomeryReduce (t : SpanType) (value modulus : Span w) (r : ℕ) (inverseModulus : BitVec w)
    (result : List (BitVec w)) : List (BitVec w) :=
  let p := modulus.limbSize
  let T := bitCopy (scratchType w r p) value.source (List.replicate (r + p + 1) 0)
  let T := scanRange r (fun i T => reduceRow modulus inverseModulus i T) T
  let S := (BitSpan.mk ⟨w * (p + 1), .unsigned, .normal⟩ (T.drop r)).span
  (subtract t S.source (modulus.mask (runtime (greaterEqual S modulus))).source (constant 0)
    result).1

@[simp] theorem length_montgomeryReduce (t : SpanType) (value modulus : Span w) (r : ℕ)
    (inverseModulus : BitVec w) (result : List (BitVec w)) :
    (montgomeryReduce t value modulus r inverseModulus result).length = result.length :=
  length_subtract _ _ _ _ _

section

variable {T : List (BitVec w)} {z N : ℤ} {modulus : Span w} {i r : ℕ}

/-- The limbs are the digits of an integer, and there is nothing above them. -/
structure Holds (T : List (BitVec w)) (z : ℤ) : Prop where
  limbs : ∀ k < T.length, T.getD k 0 = digit w z k
  nonneg : 0 ≤ z
  lt : z < (2 ^ w) ^ T.length

/-- What the loop over `k` keeps, for the sum `z'`. -/
structure CarryState (T : List (BitVec w)) (z z' : ℤ) (k : ℕ)
    (s : List (BitVec w) × MaybeConstant (BitVec w)) : Prop where
  length_eq : s.1.length = T.length
  written : ∀ j < k, s.1.getD j 0 = digit w z' j
  rest : ∀ j, k ≤ j → s.1.getD j 0 = T.getD j 0
  carry : z' / (2 ^ w) ^ k = z / (2 ^ w) ^ k + s.2.value.toNat

theorem add_mul_pow_emod (z x : ℤ) {i k : ℕ} (hk : k ≤ i) :
    (z + x * (2 ^ w) ^ i) % 2 ^ (w * k) = z % 2 ^ (w * k) := by
  obtain ⟨d, rfl⟩ := Nat.exists_eq_add_of_le hk
  rw [pow_add, ← pow_mul 2 w k, mul_left_comm, Int.add_mul_emod_self_left]

/-- After the loop over `j` the carry is all that is missing. -/
theorem carryState_row [NeZero w] (hT : Holds T z) (hmodulus : Unsigned modulus N)
    (hroom : i + modulus.limbSize < T.length) (m : MaybeConstant (BitVec w)) :
    CarryState T z (z + m.value.toNat * N * (2 ^ w) ^ i) (i + modulus.limbSize)
      (scanRange modulus.limbSize (fun j s =>
        let k := i + j
        let r := extendedMultiplyAdd m (modulus.read j) (runtime (s.1.getD k 0)) s.2
        (s.1.set k r.lower.value, r.upper)) (T, zero w)) := by
  generalize hz : z + m.value.toNat * N * (2 ^ w) ^ i = z'
  -- the result of the row is the scratch array
  let t : SpanType := ⟨w * T.length, .unsigned, .normal⟩
  have ht : t.limbSize w = T.length := limbSizeFor_mul _
  have hstate : RowState t T m i N z z' modulus.limbSize
      (scanRange modulus.limbSize (fun j s =>
        let k := i + j
        let r := extendedMultiplyAdd m (modulus.read j) (runtime (s.1.getD k 0)) s.2
        (s.1.set k r.lower.value, r.upper)) (T, zero w)) := by
    apply scanRange_induction (P := fun j (s : List (BitVec w) × MaybeConstant (BitVec w)) =>
      RowState t T m i N z z' j s)
    · refine ⟨rfl, fun k _ hk => by omega, fun _ _ => rfl, fun _ => ?_⟩
      rw [← hz, Nat.add_zero, Int.add_mul_ediv_right _ _ (pow_base_pos w i).ne']
      simp
    · rintro j hj ⟨l, c⟩ hrow
      have hcurrent : (runtime (l.getD (i + j) 0)).value = digit w z (i + j) :=
        (hrow.rest (i + j) (.inr le_rfl)).trans (hT.limbs (i + j) (by omega))
      have hequals := equals_extendedMultiplyAdd m (modulus.read j) (runtime (l.getD (i + j) 0)) c
      unfold MultiplyResult.Equals at hequals
      rw [hcurrent, hmodulus.denotes, Nat.mul_comm m.value.toNat] at hequals
      zify at hequals
      obtain ⟨hdigit, hnext⟩ := mul_step (hrow.carry (by omega)) hequals
      exact hrow.step (by omega) hdigit fun _ => hnext
  generalize scanRange modulus.limbSize _ (T, zero w) = s at hstate
  refine ⟨hstate.length_eq, ?_, ?_, ?_⟩
  · intro j hj
    rcases Nat.lt_or_ge j i with hji | hij
    · -- the row starts above
      rw [hstate.rest j (.inl hji), hT.limbs j (by omega), ← hz]
      exact (digit_congr_of_emod (add_mul_pow_emod z _ hji) le_rfl).symm
    · exact hstate.written j hij hj
  · intro j hj
    exact hstate.rest j (.inr hj)
  · rw [hstate.carry (by omega), Int.ediv_eq_zero_of_lt hmodulus.nonneg hmodulus.lt_pow, mul_zero,
      add_zero]

theorem CarryState.step [NeZero w] (hT : Holds T z) {z' : ℤ} {k : ℕ} (hk : k < T.length)
    {l : List (BitVec w)} {c : MaybeConstant (BitVec w)} (h : CarryState T z z' k (l, c)) :
    let r := extendedAdd (runtime (l.getD k 0)) c
    CarryState T z z' (k + 1) (l.set k r.sum.value, limbFrom w r.carry) := by
  intro r
  have hlength : l.length = T.length := h.length_eq
  have hadds : r.Adds _ := adds_extendedAdd (runtime (l.getD k 0)) c
  have hcurrent : (runtime (l.getD k 0)).value = digit w z k :=
    (h.rest k le_rfl).trans (hT.limbs k hk)
  clear_value r
  unfold AddResult.Adds at hadds
  rw [hcurrent] at hadds
  zify at hadds
  have hcarry : z' / (2 ^ w) ^ k = z / (2 ^ w) ^ k + 0 / (2 ^ w) ^ k + c.value.toNat := by
    rw [Int.zero_ediv, add_zero]
    exact h.carry
  obtain ⟨hdigit, hnext⟩ := add_step (s := r.sum.value) (y := 0) hcarry
    (by rw [digit_zero]; simpa using hadds)
  -- the limb is written, those below and above are kept, and the carry goes on
  refine ⟨(List.length_set ..).trans hlength, ?_, ?_, ?_⟩
  · intro j hj
    show (l.set k r.sum.value).getD j 0 = _
    rw [getD_set]
    by_cases hkj : k = j
    · rw [if_pos ⟨hkj, by omega⟩, hdigit, hkj]
    · rw [if_neg (fun hcon => hkj hcon.1)]
      exact h.written j (by omega)
  · intro j hj
    show (l.set k r.sum.value).getD j 0 = _
    rw [getD_set, if_neg (by omega)]
    exact h.rest j (by omega)
  · rw [hnext, Int.zero_ediv, add_zero, value_limbFrom, toNat_valueFrom]

/-- The row and the loop over `k` add a multiple of the modulus. -/
theorem reduceRow_digits [NeZero w] (hT : Holds T z) (hmodulus : Unsigned modulus N)
    (hroom : i + modulus.limbSize < T.length) (inverseModulus : BitVec w) :
    (reduceRow modulus inverseModulus i T).length = T.length ∧
      ∀ k < T.length, (reduceRow modulus inverseModulus i T).getD k 0 =
        digit w (z + (T.getD i 0 * inverseModulus).toNat * N * (2 ^ w) ^ i) k := by
  have hrow := carryState_row hT hmodulus hroom
    (Core.multiply (runtime (T.getD i 0)) (constant inverseModulus))
  rw [value_multiply, value_runtime, value_constant] at hrow
  unfold reduceRow
  dsimp only at hrow ⊢
  generalize z + (T.getD i 0 * inverseModulus).toNat * N * (2 ^ w) ^ i = z' at hrow ⊢
  generalize scanRange modulus.limbSize _ (T, zero w) = row at hrow ⊢
  have hall : CarryState T z z' (i + modulus.limbSize + (T.length - (i + modulus.limbSize)))
      (scanRange (T.length - (i + modulus.limbSize)) (fun j s =>
        let k := i + modulus.limbSize + j
        let r := extendedAdd (runtime (s.1.getD k 0)) s.2
        (s.1.set k r.sum.value, limbFrom w r.carry)) row) := by
    apply scanRange_induction (P := fun j (s : List (BitVec w) × MaybeConstant (BitVec w)) =>
      CarryState T z z' (i + modulus.limbSize + j) s)
    · exact hrow
    · rintro j hj ⟨l, c⟩ hstate
      exact hstate.step hT (by omega)
  rw [Nat.add_sub_cancel' hroom.le] at hall
  exact ⟨hall.length_eq, fun k hk => hall.written k hk⟩

theorem Holds.eq_digits (hT : Holds T z) : T = digits w T.length z := by
  apply List.ext_getElem
  · simp
  · intro k hk _
    have hdigit := hT.limbs k hk
    simp only [List.getD_eq_getElem?_getD, List.getElem?_eq_getElem hk, Option.getD_some] at hdigit
    simp [digits, hdigit]

/-- The quotient by a power of the base has the higher digits. -/
theorem Holds.drop (hT : Holds T z) (r : ℕ) (hr : r ≤ T.length) :
    Holds (T.drop r) (z / (2 ^ w) ^ r) where
  limbs k hk := by
    rw [List.length_drop] at hk
    rw [show (T.drop r).getD k 0 = T.getD (r + k) 0 by simp [List.getD_eq_getElem?_getD],
      hT.limbs (r + k) (by omega), digit, digit, pow_add,
      Int.ediv_ediv_of_nonneg (pow_base_pos w r).le]
  nonneg := Int.ediv_nonneg hT.nonneg (pow_base_pos w r).le
  lt := by
    apply Int.ediv_lt_of_lt_mul (pow_base_pos w r)
    rw [List.length_drop, ← pow_add, Nat.sub_add_cancel hr]
    exact hT.lt

/-- The array holds the integer that its limbs are the digits of. -/
theorem Holds.value_eq (hT : Holds T z) : (value T : ℤ) = z := by
  rw [hT.eq_digits, value_digits, Int.emod_eq_of_lt hT.nonneg hT.lt]

/-- An array of full limbs represents the integer whose digits it holds. -/
theorem Holds.represents [NeZero w] {n : ℕ} (hT : Holds T z) (hn : T.length = n) :
    (BitSpan.mk ⟨w * n, .unsigned, .normal⟩ T).span.Represents z ∧
      (BitSpan.mk ⟨w * n, .unsigned, .normal⟩ T).span.Denotes z := by
  let x : BitArray w := ⟨⟨⟨w * n, .unsigned, .normal⟩, T⟩, hn.trans (limbSizeFor_mul n).symm⟩
  have hreadable : x.Readable := by
    refine ⟨nofun, fun _ hfull => ?_⟩
    exact absurd (Nat.mul_mod_right w n) hfull
  have hstored : x.storedInt = z := by
    show (value T : ℤ) % 2 ^ (w * n) = z
    rw [hT.value_eq, pow_mul, ← hn, Int.emod_eq_of_lt hT.nonneg hT.lt]
  have hrepresents := x.represents_span hreadable
  rw [hstored] at hrepresents
  exact ⟨hrepresents, hrepresents.digits⟩

/-- Each step clears a limb, and nothing is carried out of the array. -/
theorem reduceRow_step [NeZero w] {T₀ : ℤ} {inverseModulus : BitVec w}
    (hmodulus : Unsigned modulus N) (hN : 0 < N)
    (hinverse : (2 : ℤ) ^ w ∣ N * inverseModulus.toNat + 1) (hT₀ : T₀ < (2 ^ w) ^ r * N)
    (hlength : T.length = r + modulus.limbSize + 1) (hi : i < r) (hT : Holds T z)
    (hreducing : Reducing (2 ^ w) N T₀ i z) :
    let z' := z + (T.getD i 0 * inverseModulus).toNat * N * (2 ^ w) ^ i
    Holds (reduceRow modulus inverseModulus i T) z' ∧
      (reduceRow modulus inverseModulus i T).length = r + modulus.limbSize + 1 ∧
      Reducing (2 ^ w) N T₀ (i + 1) z' := by
  have hB : (0 : ℤ) < 2 ^ w := base_pos w
  obtain ⟨hlen, hdigits⟩ := reduceRow_digits hT hmodulus (i := i) (by omega) inverseModulus
  have hm : ((T.getD i 0 * inverseModulus).toNat : ℤ) =
      z / (2 ^ w) ^ i * inverseModulus.toNat % 2 ^ w := by
    rw [BitVec.toNat_mul, hT.limbs i (by omega)]
    push_cast
    rw [toNat_digit, Int.mul_emod, Int.emod_emod, ← Int.mul_emod]
  -- the factor clears limb `i`, by the choice of the inverse
  have hstep := hreducing.step hB hinverse (m := (T.getD i 0 * inverseModulus).toNat)
    (by positivity) (toNat_lt_int _) (by
      rw [hm]
      exact Int.dvd_self_sub_emod)
  refine ⟨⟨fun k hk => hdigits k (by omega), ?_, ?_⟩, hlen.trans hlength, hstep⟩
  · have hpow := pow_base_pos w i
    have hz := hT.nonneg
    positivity
  -- what is added up so far is below `R * N`, so the sum stays in the array
  · obtain ⟨M, hM₀, hM, hsum⟩ := hstep.multiple
    have hr : M * N < (2 ^ w) ^ r * N := by
      have hle : ((2 : ℤ) ^ w) ^ (i + 1) ≤ (2 ^ w) ^ r :=
        pow_le_pow_right₀ (by exact_mod_cast Nat.one_le_two_pow) hi
      exact mul_lt_mul_of_pos_right (by omega) hN
    have hbase : (2 : ℤ) ≤ 2 ^ w := by
      have hpos : 0 < w := Nat.pos_of_ne_zero (NeZero.ne w)
      exact_mod_cast Nat.pow_le_pow_right two_pos hpos
    rw [hlen, hlength, hsum]
    calc T₀ + M * N < 2 * ((2 ^ w) ^ r * N) := by linarith
      _ ≤ 2 ^ w * ((2 ^ w) ^ r * (2 ^ w) ^ modulus.limbSize) := by
          have hNle : (2 ^ w) ^ r * N ≤ (2 ^ w) ^ r * (2 ^ w) ^ modulus.limbSize :=
            mul_le_mul_of_nonneg_left hmodulus.lt_pow.le (pow_base_pos w r).le
          have hnonneg : 0 ≤ (2 ^ w : ℤ) ^ r * N := mul_nonneg (pow_base_pos w r).le hN.le
          exact mul_le_mul hbase hNle hnonneg hB.le
      _ = (2 ^ w) ^ (r + modulus.limbSize + 1) := by ring

/-- `T_storage` after some iterations of the loop over `i`. -/
def scratch (value modulus : Span w) (r : ℕ) (inverseModulus : BitVec w) (i : ℕ) :
    List (BitVec w) :=
  scanRange i (fun i T => reduceRow modulus inverseModulus i T)
    (bitCopy (scratchType w r modulus.limbSize) value.source
      (List.replicate (r + modulus.limbSize + 1) 0))

section Reduce

variable [NeZero w] {value : Span w} {T₀ : ℤ} {inverseModulus : BitVec w}

/-- The value fits the array. -/
theorem scratch_zero (hmodulus : Unsigned modulus N) (hvalue : value.Denotes T₀)
    (hnonneg : 0 ≤ T₀) (hlt : T₀ < (2 ^ w) ^ r * N) :
    Holds (scratch value modulus r inverseModulus 0) T₀ ∧
      (scratch value modulus r inverseModulus 0).length = r + modulus.limbSize + 1 := by
  have hscratch : (scratchType w r modulus.limbSize).limbSize w = r + modulus.limbSize + 1 :=
    limbSizeFor_mul _
  have hfit : T₀ < (2 ^ w) ^ (r + modulus.limbSize + 1) := by
    calc T₀ < (2 ^ w) ^ r * N := hlt
      _ ≤ (2 ^ w) ^ r * (2 ^ w) ^ (modulus.limbSize + 1) := by
          apply mul_le_mul_of_nonneg_left _ (pow_base_pos w r).le
          refine hmodulus.lt_pow.le.trans ?_
          exact pow_le_pow_right₀ (by exact_mod_cast Nat.one_le_two_pow) (Nat.le_succ _)
      _ = (2 ^ w) ^ (r + modulus.limbSize + 1) := by ring
  have hstart : scratch value modulus r inverseModulus 0 =
      digits w (r + modulus.limbSize + 1) T₀ := by
    show bitCopy _ _ _ = _
    rw [bitCopy_eq (by simp [hscratch]) (hvalue.reads _ _), image_of_inRange, hscratch]
    exact ((scratchType w r modulus.limbSize).inRange_unsigned rfl).mpr
      ⟨hnonneg, by rw [← pow_mul] at hfit; exact hfit⟩
  rw [hstart]
  refine ⟨⟨fun k hk => ?_, hnonneg, by rwa [length_digits]⟩, length_digits _ _⟩
  rw [length_digits] at hk
  simp [digits, List.getD_eq_getElem?_getD, hk]

/-- What the loop over `i` keeps. -/
theorem scratch_holds (hmodulus : Unsigned modulus N)
    (hinverse : (2 : ℤ) ^ w ∣ N * inverseModulus.toNat + 1) (hvalue : value.Denotes T₀)
    (hnonneg : 0 ≤ T₀) (hlt : T₀ < (2 ^ w) ^ r * N) (hi : i ≤ r) :
    ∃ z, Holds (scratch value modulus r inverseModulus i) z ∧
      (scratch value modulus r inverseModulus i).length = r + modulus.limbSize + 1 ∧
      Reducing (2 ^ w) N T₀ i z := by
  have hN : 0 < N := pos_of_mul_pos_right (lt_of_le_of_lt hnonneg hlt) (pow_base_pos w r).le
  induction i with
  | zero =>
      obtain ⟨hT, hlength⟩ := scratch_zero hmodulus hvalue hnonneg hlt
      exact ⟨T₀, hT, hlength, Reducing.start _ _ _⟩
  | succ i ih =>
      obtain ⟨z, hT, hlength, hreducing⟩ := ih (by omega)
      exact ⟨_, reduceRow_step hmodulus hN hinverse hlt hlength hi hT hreducing⟩

/-- **No carry is lost.** An iteration adds its multiple of the modulus to what the array holds. -/
theorem value_scratch_succ (hmodulus : Unsigned modulus N)
    (hinverse : (2 : ℤ) ^ w ∣ N * inverseModulus.toNat + 1) (hvalue : value.Denotes T₀)
    (hnonneg : 0 ≤ T₀) (hlt : T₀ < (2 ^ w) ^ r * N) (hi : i < r) :
    (Lib.Limbs.value (scratch value modulus r inverseModulus (i + 1)) : ℤ) =
      Lib.Limbs.value (scratch value modulus r inverseModulus i) +
        ((scratch value modulus r inverseModulus i).getD i 0 * inverseModulus).toNat * N *
          (2 ^ w) ^ i := by
  have hN : 0 < N := pos_of_mul_pos_right (lt_of_le_of_lt hnonneg hlt) (pow_base_pos w r).le
  obtain ⟨z, hT, hlength, hreducing⟩ := scratch_holds hmodulus hinverse hvalue hnonneg hlt hi.le
  obtain ⟨hT', -⟩ := reduceRow_step hmodulus hN hinverse hlt hlength hi hT hreducing
  rw [hT.value_eq]
  exact hT'.value_eq

/-- **Montgomery reduction.** The result is below the modulus, and congruent to the value after
multiplication by `R`. -/
theorem montgomeryReduce_eq {t : SpanType} {result : List (BitVec w)}
    (hmodulus : Unsigned modulus N) (hrepresents : modulus.Represents N)
    (hinverse : (2 : ℤ) ^ w ∣ N * inverseModulus.toNat + 1) (hvalue : value.Denotes T₀)
    (hnonneg : 0 ≤ T₀) (hlt : T₀ < (2 ^ w) ^ r * N) (hlen : result.length = t.limbSize w) :
    ∃ S : ℤ, 0 ≤ S ∧ S < N ∧ S * (2 ^ w) ^ r ≡ T₀ [ZMOD N] ∧
      montgomeryReduce t value modulus r inverseModulus result = t.image w S := by
  have hloop := scratch_holds hmodulus hinverse hvalue hnonneg hlt (le_refl r)
  unfold montgomeryReduce
  dsimp only
  unfold scratch at hloop
  generalize hp : modulus.limbSize = p at hloop ⊢
  generalize scanRange r _ _ = T at hloop ⊢
  obtain ⟨z, hT, hlength, hreducing⟩ := hloop
  obtain ⟨hS₀, hS, hcongr⟩ := hreducing.quotient (base_pos w) hnonneg hlt
  have hdropped := hT.drop r (by omega)
  obtain ⟨hrep, hdenotes⟩ := hdropped.represents (n := p + 1) (by rw [List.length_drop]; omega)
  -- one conditional subtraction is enough, as the quotient is below twice the modulus
  have hge : greaterEqual (BitSpan.mk ⟨w * (p + 1), .unsigned, .normal⟩ (T.drop r)).span modulus =
      bitOf (z / (2 ^ w) ^ r ≥ N) :=
    (compareOrder_eq decides_greaterEqual hrep hrepresents).trans (outcome_greaterEqual _ _)
  have hmask := hmodulus.denotes.mask (runtime (greaterEqual
    (BitSpan.mk ⟨w * (p + 1), .unsigned, .normal⟩ (T.drop r)).span modulus))
  have hchoice : (if (runtime (greaterEqual (BitSpan.mk ⟨w * (p + 1), .unsigned, .normal⟩
      (T.drop r)).span modulus)).value = 1 then N else 0) =
        if N ≤ z / (2 ^ w) ^ r then N else 0 := by
    rw [value_runtime, hge]
    simp only [bitOf_eq_one_iff, ge_iff_le]
  rw [hchoice] at hmask
  obtain ⟨hresult₀, hresult, hresultcongr⟩ := subtract_once hS₀ hS hcongr
  refine ⟨_, hresult₀, hresult, hresultcongr, ?_⟩
  have hsub := (subtract_eq hlen (hdenotes.reads result _) (hmask.reads result _) (constant 0)).1
  simpa using hsub

/-- **The reduction is the only one.** No other number below the modulus is congruent, the result
is what fits its bits, and every iteration keeps the exact sum in the array. The source has products
of limbs of at most 32 bits, and those of 16 bits overflow an `int` before they are cut. -/
theorem montgomeryReduce_unique {t : SpanType} (hu : t.signedness = .unsigned)
    {result : List (BitVec w)} (hlen : result.length = t.limbSize w)
    (hmodulus : Unsigned modulus N) (hrepresents : modulus.Represents N)
    (hinverse : (2 : ℤ) ^ w ∣ N * inverseModulus.toNat + 1) (hvalue : value.Denotes T₀)
    (hnonneg : 0 ≤ T₀) (hlt : T₀ < (2 ^ w) ^ r * N) :
    (∃! S : ℤ, 0 ≤ S ∧ S < N ∧ S * (2 ^ w) ^ r ≡ T₀ [ZMOD N]) ∧
      (∀ S : ℤ, 0 ≤ S → S < N → S * (2 ^ w) ^ r ≡ T₀ [ZMOD N] →
        montgomeryReduce t value modulus r inverseModulus result = t.image w S ∧
        (N ≤ 2 ^ t.bitSize →
          (Lib.Limbs.value (montgomeryReduce t value modulus r inverseModulus result) : ℤ) = S)) ∧
      (Lib.Limbs.value (scratch value modulus r inverseModulus 0) : ℤ) = T₀ ∧
      ∀ i < r, (Lib.Limbs.value (scratch value modulus r inverseModulus (i + 1)) : ℤ) =
        Lib.Limbs.value (scratch value modulus r inverseModulus i) +
          ((scratch value modulus r inverseModulus i).getD i 0 * inverseModulus).toNat * N *
            (2 ^ w) ^ i := by
  obtain ⟨S, hS₀, hS, hcongr, heq⟩ := montgomeryReduce_eq hmodulus hrepresents hinverse hvalue
    hnonneg hlt hlen
  -- the inverse of the modulus shows that `R` is invertible
  have hcoprime : IsCoprime N ((2 ^ w : ℤ) ^ r) := by
    apply IsCoprime.pow_right
    obtain ⟨c, hc⟩ := hinverse
    exact ⟨-inverseModulus.toNat, c, by linear_combination -hc⟩
  have hunique (S' : ℤ) (hS'₀ : 0 ≤ S') (hS' : S' < N)
      (hcongr' : S' * (2 ^ w) ^ r ≡ T₀ [ZMOD N]) : S' = S := by
    have hdvd : N ∣ (S - S') * (2 ^ w) ^ r := by
      rw [sub_mul]
      exact (hcongr'.trans hcongr.symm).dvd
    have hmod : S' ≡ S [ZMOD N] :=
      (Int.modEq_iff_dvd).mpr (hcoprime.dvd_of_dvd_mul_right hdvd)
    rw [Int.ModEq, Int.emod_eq_of_lt hS'₀ hS', Int.emod_eq_of_lt hS₀ hS] at hmod
    exact hmod
  refine ⟨⟨S, ⟨hS₀, hS, hcongr⟩, fun S' h => hunique S' h.1 h.2.1 h.2.2⟩, ?_, ?_, ?_⟩
  · intro S' hS'₀ hS' hcongr'
    obtain rfl := hunique S' hS'₀ hS' hcongr'
    refine ⟨heq, fun hfits => ?_⟩
    rw [heq]
    exact t.value_image_of_inRange hu ((t.inRange_unsigned hu).mpr ⟨hS₀, hS.trans_le hfits⟩)
  · exact (scratch_zero hmodulus hvalue hnonneg hlt).1.value_eq
  · intro i hi
    exact value_scratch_succ hmodulus hinverse hvalue hnonneg hlt hi

/-- A prime of two limbs, whose lower one is 1, and the largest value below it. -/
theorem montgomeryReduce_unique_two : ∃! S : ℤ, 0 ≤ S ∧ S < 40961 ∧
    S * (2 ^ 8) ^ 2 ≡ 40960 [ZMOD 40961] := by
  have hprime : Holds (w := 8) [0x01, 0xA0] 40961 := ⟨by decide, by decide, by decide⟩
  have hlargest : Holds (w := 8) [0x00, 0xA0] 40960 := ⟨by decide, by decide, by decide⟩
  have hinverse : (2 : ℤ) ^ 8 ∣ 40961 * (255 : BitVec 8).toNat + 1 := by decide
  obtain ⟨hrepresents, hdenotes⟩ := hprime.represents (n := 2) rfl
  exact (montgomeryReduce_unique (t := ⟨16, .unsigned, .normal⟩) (r := 2) rfl
    (List.length_replicate (n := 2) (a := (0 : BitVec 8)))
    ⟨hdenotes, by decide, by decide, by decide⟩ hrepresents hinverse
    (hlargest.represents (n := 2) rfl).2 (by decide) (by decide)).1

end Reduce

end

end Num

end Hmpc.Core
