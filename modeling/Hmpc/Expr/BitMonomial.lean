/-
# Hmpc.Expr.BitMonomial -- products of polynomials with a power of `X`

The coefficient `e` of the product with `X ^ d` is the coefficient `e - d` of the polynomial, where
the coefficients continue with the other sign after every `n` of them. The code reads both the
index and the sign from one difference of sizes: the low bits of the wrapped difference are its
remainder, and the bit above them is the parity of its quotient, for every degree.
-/
import Hmpc.Core.BitScan
import Hmpc.Core.LimbSpan
import Hmpc.Index
import Hmpc.Ints.Mod
import Hmpc.Ints.Uint
import Hmpc.Lib.Negacyclic
import Mathlib.Data.BitVec

namespace Hmpc.Expr.BitMonomial

open Hmpc.Core Hmpc.Ints Hmpc.Lib.Negacyclic Polynomial

/-- The operations on the coefficients of a polynomial: `β` is the type of a negated one. -/
structure Coefficients (α β : Type) where
  negate : α → β
  /-- to the type of a negated one, if it is not the same -/
  cast : α → β
  /-- `integer_traits<element_type>::zero` -/
  zero : β

/-- `1 << bits` as a size: the one is an `int`, which is shifted by less than its bits only. -/
def oneShiftLeft (bits : ℕ) : Option Size :=
  if bits < 32 then some ((1#32 <<< bits).signExtend 64) else none

/-- The index of the coefficient that is read, and whether it is negated. -/
def shiftedIndex (bits : ℕ) (degree elementIndex : Size) : Size × Bool :=
  let difference := elementIndex - degree
  (maskInside bits difference, difference >>> bits &&& 1 == 1)

section

variable {α β : Type} (T : Coefficients α β) (leftVectorSize rightVectorSize : Size)

/-- `multiply_specialization<bit_monomial<Degree>, Polynomial>`; none where a static assertion or
the evaluation of an operand fails. The last extent of the right operand is its vector size. -/
def multiplySpecialization (left : Index → Option (Option Size)) (leftIndex : Index)
    (right : Index → Option α) (rightIndex : Index) : Option β := do
  let maxDegree := leftVectorSize
  guard (rightVectorSize = maxDegree)
  guard (0 < rightIndex.length)
  guard (hasSingleBit maxDegree)
  let bits := countrZero maxDegree
  guard (oneShiftLeft bits = some maxDegree)
  let elementDimension := rightIndex.length - 1
  let monomial ← left leftIndex
  match monomial with
  | some degree =>
      let elementIndex ← rightIndex.getD elementDimension none
      let shifted := shiftedIndex bits degree (BitVec.ofNat 64 elementIndex)
      let element ← right (rightIndex.set elementDimension (some shifted.1.toNat))
      return if shifted.2 then T.negate element else T.cast element
  | none => return T.zero

/-- `multiply_specialization<Polynomial, bit_monomial<Degree>>` -/
def multiplySpecializationSwapped (left : Index → Option α) (leftIndex : Index)
    (right : Index → Option (Option Size)) (rightIndex : Index) : Option β :=
  multiplySpecialization T rightVectorSize leftVectorSize right rightIndex left leftIndex

end

/-- `bit_monomial_expression`: one degree for all coefficients. -/
def bitMonomial {γ : Type} (inner : Index → γ) (index : Index) : γ := inner index.dropLast

/-! ## One difference of sizes -/

theorem oneShiftLeft_eq_some_iff {b : ℕ} (hb : b < 64) :
    oneShiftLeft b = some (BitVec.ofNat 64 (2 ^ b)) ↔ b < 31 := by
  have h : ∀ b : Fin 64, oneShiftLeft b = some (BitVec.ofNat 64 (2 ^ b.val)) ↔ b.val < 31 := by
    decide
  exact h ⟨b, hb⟩

theorem countrZero_of_toNat_eq {n : Size} {b : ℕ} (hn : n.toNat = 2 ^ b) : countrZero n = b := by
  have hne : n ≠ 0 := by
    rintro rfl
    exact (Nat.two_pow_pos b).ne hn
  obtain ⟨-, hdvd, hnot⟩ := countrZero_spec hne
  rw [hn, Nat.pow_dvd_pow_iff_le_right (by decide)] at hdvd hnot
  omega

theorem lt_of_toNat_eq {n : Size} {b : ℕ} (hn : n.toNat = 2 ^ b) : b < 64 :=
  (Nat.pow_lt_pow_iff_right (by decide)).mp (hn ▸ n.isLt)

/-- The sizes wrap at a multiple of `2 * n`. -/
theorem shiftedIndex_eq {b e : ℕ} (hb : b < 64) (he : e < 2 ^ b) (degree : Size) :
    (shiftedIndex b degree (BitVec.ofNat 64 e)).1.toNat =
        (((e : ℤ) - degree.toNat) % (2 ^ b : ℕ)).toNat ∧
      ((shiftedIndex b degree (BitVec.ofNat 64 e)).2 = true ↔
        Odd (((e : ℤ) - degree.toNat) / (2 ^ b : ℕ))) := by
  have hpow : 2 ^ b * 2 ^ (64 - b) = 2 ^ 64 := by
    rw [← pow_add]
    congr 1
    omega
  have heven : 2 ^ (64 - b) = 2 * 2 ^ (63 - b) := by
    rw [← pow_succ']
    congr 1
    omega
  have hlt : e < 2 ^ 64 := he.trans_le (Nat.pow_le_pow_right (by decide) hb.le)
  generalize hdifference : BitVec.ofNat 64 e - degree = difference
  have hwrap : ∃ k : ℤ, (e : ℤ) - degree.toNat = difference.toNat + 2 ^ b * (2 ^ (64 - b) * k) := by
    have hnat : difference.toNat = (2 ^ 64 - degree.toNat + e) % 2 ^ 64 := by
      rw [← hdifference, BitVec.toNat_sub, BitVec.toNat_ofNat, Nat.mod_eq_of_lt hlt]
    have hd := degree.isLt
    refine ⟨((e : ℤ) - degree.toNat) / 2 ^ 64, ?_⟩
    rw [← mul_assoc, show (2 : ℤ) ^ b * 2 ^ (64 - b) = 2 ^ 64 by exact_mod_cast hpow]
    omega
  obtain ⟨k, hk⟩ := hwrap
  have hpos : ((2 ^ b : ℕ) : ℤ) ≠ 0 := by exact_mod_cast (Nat.two_pow_pos b).ne'
  have hcast : ((2 ^ b : ℕ) : ℤ) = 2 ^ b := by push_cast; rfl
  constructor
  · show (maskInside b (BitVec.ofNat 64 e - degree)).toNat = _
    rw [hdifference, toNat_maskInside hb.le, hk, ← hcast, Int.add_mul_emod_self_left,
      ← Int.natCast_mod, Int.toNat_natCast]
  · -- the part of the quotient that is cut off is even
    have hodd : Odd (((e : ℤ) - degree.toNat) / (2 ^ b : ℕ)) ↔
        difference.toNat / 2 ^ b % 2 = 1 := by
      rw [hk, ← hcast, Int.add_mul_ediv_left _ _ hpos, Int.odd_iff,
        show (2 : ℤ) ^ (64 - b) * k = 2 * (2 ^ (63 - b) * k) by
          rw [← mul_assoc]
          congr 1
          exact_mod_cast heven, Int.add_mul_emod_self_left]
      exact_mod_cast Iff.rfl
    show (BitVec.ofNat 64 e - degree) >>> b &&& 1 == 1 ↔ _
    rw [hdifference, hodd, beq_iff_eq, ← BitVec.toNat_inj, BitVec.toNat_and,
      BitVec.toNat_ushiftRight, Nat.shiftRight_eq_div_pow]
    show _ &&& 1 = 1 ↔ _
    rw [Nat.and_one_is_mod]

section

variable {α β : Type} {T : Coefficients α β} {n : Size} {b : ℕ} (hn : n.toNat = 2 ^ b)

/-- The coefficient `e` of the product of `X ^ degree` and the polynomial `x`, as a value of the
types of the source. -/
def coefficient (T : Coefficients α β) (n : ℕ) (x : ℕ → α) : Option Size → ℕ → β
  | some degree, e =>
      if Odd (((e : ℤ) - degree.toNat) / n) then T.negate (x (((e : ℤ) - degree.toNat) % n).toNat)
      else T.cast (x (((e : ℤ) - degree.toNat) % n).toNat)
  | none, _ => T.zero

/-- The index of the coefficient `e` of the polynomial in a tensor. -/
def elementIndex (batch : Index) (e : ℕ) : Index := batch ++ [some e]

include hn in
/-- The product compiles for vector sizes that `1 << bits` can hold. -/
theorem multiplySpecialization_eq {left : Index → Option (Option Size)} {leftIndex : Index}
    {degree : Option Size} (hleft : left leftIndex = some degree) {right : Index → Option α}
    {batch : Index} {x : ℕ → α} (hright : ∀ r < n.toNat, right (elementIndex batch r) = some (x r))
    {e : ℕ} (he : e < n.toNat) :
    multiplySpecialization T n n left leftIndex right (elementIndex batch e) =
      if n.toNat < 2 ^ 31 then some (coefficient T n.toNat x degree e) else none := by
  have hb := lt_of_toNat_eq hn
  have hsingle : hasSingleBit n = true := (hasSingleBit_iff n).mpr ⟨b, hn⟩
  -- the rotation needs the size as a shift of a signed one
  have hshift : oneShiftLeft b = some n ↔ n.toNat < 2 ^ 31 := by
    have hofNat : BitVec.ofNat 64 (2 ^ b) = n := by
      rw [← hn, BitVec.ofNat_toNat, BitVec.setWidth_eq]
    have h := oneShiftLeft_eq_some_iff hb
    rw [hofNat] at h
    rw [h, hn, Nat.pow_lt_pow_iff_right (by decide)]
  have hlength : 0 < (elementIndex batch e).length := by simp [elementIndex]
  have hget : (elementIndex batch e).getD ((elementIndex batch e).length - 1) none = some e := by
    simp [elementIndex]
  have hset (r : ℕ) : (elementIndex batch e).set ((elementIndex batch e).length - 1) (some r) =
      elementIndex batch r := by simp [elementIndex]
  unfold multiplySpecialization
  simp only [guard, if_true, hlength, hsingle, countrZero_of_toNat_eq hn, hshift, hleft, hget, hset]
  by_cases hlt : n.toNat < 2 ^ 31
  · rw [if_pos hlt, if_pos hlt]
    -- no degree stands for a monomial that is zero
    cases degree with
    | none => rfl
    | some degree =>
        obtain ⟨hindex, hnegative⟩ := shiftedIndex_eq hb (hn ▸ he) degree
        rw [← hn] at hindex hnegative
        have hpos : (0 : ℤ) < n.toNat := by omega
        have hread := hright (((e : ℤ) - degree.toNat) % n.toNat).toNat (by
          have h₀ := Int.emod_nonneg ((e : ℤ) - degree.toNat) hpos.ne'
          have h₁ := Int.emod_lt_of_pos ((e : ℤ) - degree.toNat) hpos
          omega)
        show (right (elementIndex batch (shiftedIndex b degree (BitVec.ofNat 64 e)).1.toNat)).bind
          (fun element => some (if (shiftedIndex b degree (BitVec.ofNat 64 e)).2 then _ else _)) =
            some _
        rw [hindex, hread, Option.bind_some]
        simp only [hnegative]
        rfl
  · rw [if_neg hlt, if_neg hlt]
    rfl

end

/-! ## The product modulo `X ^ n + 1` -/

section

variable {α β R : Type} [CommRing R]

/-- Both orders of the operands compute `y`. -/
def Computes (T : Coefficients α β) (n : Size) (degrees : Index → Option Size)
    (right : Index → α) (batch : Index) (y : ℕ → β) : Prop :=
  ∀ e < n.toNat,
    multiplySpecialization T n n (bitMonomial fun i => some (degrees i)) (elementIndex batch e)
      (fun i => some (right i)) (elementIndex batch e) = some (y e) ∧
    multiplySpecializationSwapped T n n (fun i => some (right i)) (elementIndex batch e)
      (bitMonomial fun i => some (degrees i)) (elementIndex batch e) = some (y e)

/-- The coefficients `y` are those of the product of `X ^ degree` and the polynomial `x`. -/
structure IsProduct (value : α → R) (value' : β → R) (n : ℕ) (degree : Option Size) (x : ℕ → α)
    (y : ℕ → β) : Prop where
  absent : degree = none → ∀ e < n, value' (y e) = 0
  coefficient : ∀ d, degree = some d → ∀ e < n, ∀ q : ℤ, ∀ r < n,
    (e : ℤ) - d.toNat = q * n + r → value' (y e) = q.negOnePow • value (x r)
  modulo : ∀ d, degree = some d →
    element n (fun e => value' (y e)) =
      (X ^ d.toNat * element n (fun r => value (x r))) %ₘ (X ^ n + 1)

/-- What the product with a bit monomial is for: it is the product modulo `X ^ n + 1`, and a
second product with the rest of `X ^ (2 * n)` returns the polynomial. -/
def Multiplies (T : Coefficients α β) (T' : Coefficients β β) (value : α → R) (value' : β → R)
    (n : Size) (degrees : Index → Option Size) (right : Index → α)
    (batch : Index) : Prop :=
  ∃ y, Computes T n degrees right batch y ∧
    IsProduct value value' n.toNat (degrees batch) (fun r => right (elementIndex batch r)) y ∧
    ∀ d d' : Size, degrees batch = some d → d.toNat + d'.toNat = 2 * n.toNat →
      ∀ (degrees' : Index → Option Size) (right' : Index → β), degrees' batch = some d' →
        (∀ e < n.toNat, right' (elementIndex batch e) = y e) →
        ∃ z, Computes T' n degrees' right' batch z ∧
          ∀ e < n.toNat, value' (z e) = value (right (elementIndex batch e))

/-- What the operations compute, apart from negations that do not fit their type. -/
structure Represents (T : Coefficients α β) (T' : Coefficients β β) (valid : α → Prop)
    (value : α → R) (value' : β → R) : Prop where
  cast : ∀ a, valid a → value' (T.cast a) = value a
  zero : value' T.zero = 0
  /-- the type of a negated coefficient is that of its negation -/
  keeps : ∀ a, T'.cast a = a
  negate : ∀ a, valid a → value' (T.negate a) = -value a →
    value' (T'.negate (T.negate a)) = value a

variable {T : Coefficients α β} {T' : Coefficients β β} {valid : α → Prop} {value : α → R}
  {value' : β → R} {n : Size} {b : ℕ} {degrees : Index → Option Size} {right : Index → α}
  {batch : Index} {x : ℕ → α}

theorem computes_iff (hn : n.toNat = 2 ^ b) {y : ℕ → β} : Computes T n degrees right batch y ↔
    n.toNat < 2 ^ 31 ∧ ∀ e < n.toNat, y e =
      coefficient T n.toNat (fun r => right (elementIndex batch r)) (degrees batch) e := by
  have hdegree (e : ℕ) :
      bitMonomial (fun i => some (degrees i)) (elementIndex batch e) = some (degrees batch) := by
    rw [bitMonomial, elementIndex, List.dropLast_concat]
  have hread (r : ℕ) (_ : r < n.toNat) : (fun i => some (right i)) (elementIndex batch r) =
      some ((fun r => right (elementIndex batch r)) r) := rfl
  have hproduct (e : ℕ) (he : e < n.toNat) :
      multiplySpecialization T n n (bitMonomial fun i => some (degrees i)) (elementIndex batch e)
        (fun i => some (right i)) (elementIndex batch e) =
          if n.toNat < 2 ^ 31 then some (coefficient T n.toNat
            (fun r => right (elementIndex batch r)) (degrees batch) e)
          else none :=
    multiplySpecialization_eq hn (hdegree e) hread he
  have hpos : 0 < n.toNat := hn ▸ Nat.two_pow_pos b
  unfold Computes multiplySpecializationSwapped
  constructor
  · intro h
    -- for larger sizes not even the first coefficient compiles
    by_cases hlt : n.toNat < 2 ^ 31
    · refine ⟨hlt, fun e he => ?_⟩
      have he' := (h e he).1
      rw [hproduct e he, if_pos hlt] at he'
      exact (Option.some.inj he').symm
    · have h₀ := (h 0 hpos).1
      rw [hproduct 0 hpos, if_neg hlt] at h₀
      cases h₀
  · rintro ⟨hlt, hy⟩ e he
    rw [hproduct e he, if_pos hlt, hy e he]
    exact ⟨rfl, rfl⟩

/-- The quotient of a coefficient that moves from `r` to `e`. -/
theorem quotient_eq {e r n d : ℕ} {q : ℤ} (he : e < n) (h : (e : ℤ) - d = q * n + r) :
    q = -((r + d) / n : ℕ) := by
  have hn : (n : ℤ) ≠ 0 := by omega
  have hsum : (r : ℤ) + d = e + n * -q := by rw [mul_neg, mul_comm]; omega
  push_cast
  rw [hsum, Int.add_mul_ediv_left _ _ hn, Int.ediv_eq_zero_of_lt (by omega) (by omega)]
  omega

/-- The coefficient at `e` is that at `r`, with the other sign if it moves over an odd number of
ends. -/
theorem coefficient_eq {d : Size} {n e r : ℕ} {q : ℤ} (he : e < n) (hr : r < n)
    (h : (e : ℤ) - d.toNat = q * n + r) : coefficient T n x (some d) e =
      if Odd ((r + d.toNat) / n) then T.negate (x r) else T.cast (x r) := by
  have hn : (n : ℤ) ≠ 0 := by omega
  have hdiv : ((e : ℤ) - d.toNat) / n = q := by
    rw [h, add_comm, Int.add_mul_ediv_right _ _ hn, Int.ediv_eq_zero_of_lt (by omega) (by omega),
      Int.zero_add]
  have hmod : (((e : ℤ) - d.toNat) % n).toNat = r := by
    rw [h, add_comm, Int.add_mul_emod_self_right, Int.emod_eq_of_lt (by omega) (by omega),
      Int.toNat_natCast]
  have hodd : Odd q ↔ Odd ((r + d.toNat) / n) := by
    rw [quotient_eq he h, odd_neg, Int.odd_coe_nat]
  show (if Odd (((e : ℤ) - d.toNat) / n) then T.negate (x (((e : ℤ) - d.toNat) % n).toNat)
    else T.cast (x (((e : ℤ) - d.toNat) % n).toNat)) = _
  rw [hdiv, hmod]
  simp only [hodd]

/-- Each coefficient is read from one place, -/
theorem exists_source {n : ℕ} (e d : ℕ) (hn : 0 < n) :
    ∃ q : ℤ, ∃ r < n, (e : ℤ) - d = q * n + r ∧ q = ((e : ℤ) - d) / n ∧
      r = (((e : ℤ) - d) % n).toNat := by
  have hn' : (0 : ℤ) < n := by exact_mod_cast hn
  have hnonneg := Int.emod_nonneg ((e : ℤ) - d) hn'.ne'
  have hlt := Int.emod_lt_of_pos ((e : ℤ) - d) hn'
  refine ⟨_, _, by omega, ?_, rfl, rfl⟩
  rw [Int.toNat_of_nonneg hnonneg, mul_comm, Int.mul_ediv_add_emod]

/-- and each one is moved to one. -/
theorem exists_target {n : ℕ} (r d : ℕ) (hn : 0 < n) :
    ∃ q : ℤ, ∃ e < n, (e : ℤ) - d = q * n + r := by
  refine ⟨-((r + d) / n : ℕ), (r + d) % n, Nat.mod_lt _ hn, ?_⟩
  have h : ((n * ((r + d) / n) + (r + d) % n : ℕ) : ℤ) = (r + d : ℕ) := by rw [Nat.div_add_mod]
  push_cast at h ⊢
  rw [neg_mul, mul_comm]
  omega

/-- The negations of the coefficients that change their sign fit their type. -/
def NegationsFit (T : Coefficients α β) (value : α → R) (value' : β → R) (n : ℕ) (x : ℕ → α)
    (degree : Option Size) : Prop :=
  ∀ d, degree = some d → ∀ r < n, Odd ((r + d.toNat) / n) → value' (T.negate (x r)) = -value (x r)

theorem value_coefficient (hT : Represents T T' valid value value') (hx : ∀ r, valid (x r))
    {d : Size} {k : ℕ} (hfit : NegationsFit T value value' k x (some d)) {e r : ℕ} {q : ℤ}
    (he : e < k) (hr : r < k) (h : (e : ℤ) - d.toNat = q * k + r) :
    value' (coefficient T k x (some d) e) = q.negOnePow • value (x r) := by
  have hodd : Odd ((r + d.toNat) / k) ↔ Odd q := by
    rw [quotient_eq he h, odd_neg, Int.odd_coe_nat]
  rw [coefficient_eq he hr h]
  split_ifs with hsign
  · rw [hfit d rfl r hr hsign, Int.negOnePow_odd q (hodd.mp hsign), Units.neg_smul, one_smul]
  · rw [hT.cast _ (hx r), Int.negOnePow_even q, one_smul]
    rwa [← Int.not_odd_iff_even, ← hodd]

theorem isProduct_coefficient (hT : Represents T T' valid value value') (hx : ∀ r, valid (x r))
    {degree : Option Size} {k : ℕ} (hk : 0 < k) (hfit : NegationsFit T value value' k x degree) :
    IsProduct value value' k degree x (coefficient T k x degree) where
  absent := by
    rintro rfl e _
    exact hT.zero
  coefficient := by
    rintro d rfl e he q r hr h
    exact value_coefficient hT hx hfit he hr h
  modulo := by
    rintro d rfl
    rw [X_pow_mul_element_modByMonic hk]
    apply element_congr
    intro e he
    obtain ⟨q, r, hr, h, hq, hr'⟩ := exists_source e d.toNat hk
    rw [value_coefficient hT hx hfit he hr h, extend, ← hq, ← hr']

/-- The second product moves each coefficient back over as many ends. -/
theorem value_coefficient_coefficient (hT : Represents T T' valid value value')
    (hx : ∀ r, valid (x r)) {d d' : Size} {k : ℕ}
    (hfit : NegationsFit T value value' k x (some d)) (hsum : d.toNat + d'.toNat = 2 * k)
    {y : ℕ → β} (hy : ∀ e < k, y e = coefficient T k x (some d) e) {e : ℕ} (he : e < k) :
    value' (coefficient T' k y (some d') e) = value (x e) := by
  obtain ⟨q', r, hr, h', -⟩ := exists_source e d'.toNat (by omega : 0 < k)
  have h : (r : ℤ) - d.toNat = (-2 - q') * k + e := by
    have : (d.toNat : ℤ) + d'.toNat = 2 * k := by exact_mod_cast hsum
    linear_combination -h' - this
  have hodd : Odd ((r + d'.toNat) / k) ↔ Odd ((e + d.toNat) / k) := by
    rw [← Int.odd_coe_nat, ← Int.odd_coe_nat, ← odd_neg, ← quotient_eq he h',
      ← odd_neg (a := (((e + d.toNat) / k : ℕ) : ℤ)), ← quotient_eq hr h]
    simp only [Int.odd_iff]
    omega
  rw [coefficient_eq he hr h', hy r hr, coefficient_eq hr he h]
  simp only [hodd]
  split_ifs with hsign
  · exact hT.negate _ (hx e) (hfit d rfl e he hsign)
  · rw [hT.keeps, hT.cast _ (hx e)]

/-- **Products with a bit monomial.** They are the products modulo `X ^ n + 1` as far as the
negations fit, for the vector sizes up to `2 ^ 30`. -/
theorem multiplies_iff (hn : n.toNat = 2 ^ b) (hT : Represents T T' valid value value')
    (hright : ∀ i, valid (right i)) :
    Multiplies T T' value value' n degrees right batch ↔ n.toNat < 2 ^ 31 ∧
      NegationsFit T value value' n.toNat (fun r => right (elementIndex batch r))
        (degrees batch) := by
  have hpos : 0 < n.toNat := hn ▸ Nat.two_pow_pos b
  constructor
  · rintro ⟨y, hcomputes, hproduct, -⟩
    obtain ⟨hlt, hy⟩ := (computes_iff hn).mp hcomputes
    refine ⟨hlt, fun d hd r hr hodd => ?_⟩
    -- the coefficient that is read from `r`
    obtain ⟨q, e, he, h⟩ := exists_target r d.toNat hpos
    have hvalue := hproduct.coefficient d hd e he q r hr h
    have hq : Odd q := by rwa [quotient_eq he h, odd_neg, Int.odd_coe_nat]
    rwa [hy e he, hd, coefficient_eq he hr h, if_pos hodd, Int.negOnePow_odd q hq, Units.neg_smul,
      one_smul] at hvalue
  · rintro ⟨hlt, hfit⟩
    refine ⟨_, (computes_iff hn).mpr ⟨hlt, fun _ _ => rfl⟩,
      isProduct_coefficient hT (fun r => hright _) hpos hfit, ?_⟩
    intro d d' hd hsum degrees' right' hd' hright'
    refine ⟨_, (computes_iff hn).mpr ⟨hlt, fun _ _ => rfl⟩, fun e he => ?_⟩
    rw [hd] at hfit hright'
    rw [hd']
    exact value_coefficient_coefficient hT (fun r => hright _) hfit hsum hright' he

end

/-! ## The coefficients of the source -/

section

variable {w : ℕ} (memory : ℕ → BitVec w)

/-- `poly<bigint<…>, n>`; a negated signed integer has the same type. -/
def integer (t : SpanType) : Coefficients (BitArray w) (BitArray w) where
  negate := Bigint.negate memory
  cast x := if t.signedness = .signed then x else Bigint.convert memory x (Bigint.negateType t)
  zero := ⟨⟨Bigint.negateType t, List.replicate ((Bigint.negateType t).limbSize w) 0⟩,
    List.length_replicate⟩

/-- `poly_mod<Modulus, n, coefficient_representation>` -/
def residue (N : Modulus) : Coefficients (Mod w N) (Mod w N) where
  negate := Mod.negate memory
  cast := id
  zero := ⟨List.replicate (N.limbSize w) 0, List.length_replicate⟩

/-- `poly<uint<Bits>, n>` -/
def unsigned (bits : ℕ) : Coefficients (Uint w bits) (Uint w bits) where
  negate := Uint.negate memory
  cast := id
  zero := ⟨List.replicate (limbSizeFor w bits) 0, List.length_replicate⟩

variable [NeZero w]

theorem negate_toInt_iff {x : BitArray w} (hx : Bigint.Normalized x) :
    (Bigint.negate memory x).toInt = -x.toInt ↔
      x.type.signedness = .unsigned ∨ x.toInt ≠ -2 ^ (x.type.bitSize - 1) := by
  rw [Bigint.negate_eq_array memory hx, Bigint.toInt_array_eq_iff, Bigint.negate_inRange_iff hx]

/-- The negation of a negation that fits does so too. -/
theorem negate_negate {x : BitArray w} (hx : Bigint.Normalized x)
    (h : (Bigint.negate memory x).toInt = -x.toInt) :
    (Bigint.negate memory (Bigint.negate memory x)).toInt = x.toInt := by
  have hbits : 0 < (Bigint.negateType x.type).bitSize ∧
      x.toInt < 2 ^ ((Bigint.negateType x.type).bitSize - 1) := by
    rcases Bigint.signedness_cases x.type.signedness with hs | hs
    · have htype : (Bigint.negateType x.type).bitSize = x.type.bitSize + 1 := by
        simp [Bigint.negateType, hs]
      rw [htype, Nat.add_sub_cancel]
      exact ⟨Nat.succ_pos _, (Bigint.toInt_unsigned x hs).2⟩
    · have htype : (Bigint.negateType x.type).bitSize = x.type.bitSize := by
        simp [Bigint.negateType, hs]
      have hpos := hx.signed_pos hs
      rw [htype]
      exact ⟨hpos, ((x.type.inRange_signed hs hpos).mp (Bigint.toInt_inRange x)).2⟩
  have hfits := h
  rw [Bigint.negate_eq_array memory hx, Bigint.toInt_array_eq_iff] at hfits
  obtain ⟨hnormalized, hvalue⟩ := Bigint.array_normalized (w := w) (fun _ => hbits.1) hfits
  rw [Bigint.negate_eq_array memory hx, (negate_toInt_iff memory hnormalized).mpr, hvalue, neg_neg]
  right
  have hlt := hbits.2
  rw [hvalue]
  show -x.toInt ≠ -2 ^ ((Bigint.negateType x.type).bitSize - 1)
  omega

theorem represents_integer (t : SpanType) :
    Represents (integer memory t) (integer memory (Bigint.negateType t))
      (fun x => x.type = t ∧ Bigint.Normalized x) BitArray.toInt BitArray.toInt where
  cast := by
    rintro x ⟨rfl, hx⟩
    show BitArray.toInt (if x.type.signedness = .signed then x else _) = _
    split_ifs with hs
    · rfl
    · have hu : x.type.signedness = .unsigned := (Bigint.signedness_cases _).resolve_right hs
      have hbits : (Bigint.negateType x.type).bitSize = x.type.bitSize + 1 := by
        simp [Bigint.negateType, hu]
      have hx' := Bigint.toInt_unsigned x hu
      rw [Bigint.convert_eq_array memory hx, Bigint.toInt_array_eq_iff,
        SpanType.inRange_signed _ rfl (by omega), hbits, Nat.add_sub_cancel]
      omega
  zero := by
    show wrap _ Signedness.signed (Hmpc.Lib.Limbs.value (List.replicate _ 0#w) : ℕ) = 0
    rw [Hmpc.Lib.Limbs.value_replicate_zero]
    exact Int.zero_bmod
  keeps x := rfl
  negate := by
    rintro x ⟨-, hx⟩ h
    exact negate_negate memory hx h

theorem represents_residue (N : Modulus) :
    Represents (residue memory N) (residue memory N) Mod.Reduced Mod.toZMod Mod.toZMod ∧
      ∀ x : Mod w N, x.Reduced → (Mod.negate memory x).toZMod = -x.toZMod := by
  have hnegate (x : Mod w N) (hx : x.Reduced) : (Mod.negate memory x).toZMod = -x.toZMod := by
    rw [Mod.negate_eq memory hx, Mod.toZMod, Mod.residue_ofResidue, Mod.toZMod, neg_mul]
  refine ⟨⟨fun _ _ => rfl, ?_, fun _ => rfl, ?_⟩, hnegate⟩
  · show (Hmpc.Lib.Limbs.value (List.replicate _ 0#w) : ZMod N.toNat) * _ = 0
    rw [Hmpc.Lib.Limbs.value_replicate_zero, Nat.cast_zero, zero_mul]
  · intro x hx _
    have hreduced : (Mod.negate memory x).Reduced := by
      rw [Mod.negate_eq memory hx]
      exact Mod.reduced_ofResidue _
    show (Mod.negate memory (Mod.negate memory x)).toZMod = _
    rw [hnegate _ hreduced, hnegate x hx, neg_neg]

theorem represents_unsigned (bits : ℕ) :
    Represents (unsigned memory bits) (unsigned memory bits) (fun _ => True) Uint.toBitVec
      Uint.toBitVec where
  cast _ _ := rfl
  zero := by
    show BitVec.ofNat bits (Hmpc.Lib.Limbs.value (List.replicate _ 0#w)) = 0
    rw [Hmpc.Lib.Limbs.value_replicate_zero]
    rfl
  keeps _ := rfl
  negate x _ _ := by
    show (Uint.negate memory (Uint.negate memory x)).toBitVec = _
    rw [Uint.toBitVec_negate, Uint.toBitVec_negate, neg_neg]

variable {n : Size} {b : ℕ}

theorem multiplies_integer_iff (hn : n.toNat = 2 ^ b) {degrees : Index → Option Size}
    {batch : Index} {t : SpanType} {right : Index → BitArray w}
    (hright : ∀ i, (right i).type = t ∧ Bigint.Normalized (right i)) :
    Multiplies (integer memory t) (integer memory (Bigint.negateType t)) BitArray.toInt
        BitArray.toInt n degrees right batch ↔
      n.toNat < 2 ^ 31 ∧ ∀ d, degrees batch = some d → ∀ r < n.toNat,
        Odd ((r + d.toNat) / n.toNat) → t.signedness = .unsigned ∨
          (right (elementIndex batch r)).toInt ≠ -2 ^ (t.bitSize - 1) := by
  rw [multiplies_iff hn (represents_integer memory t) hright]
  have hfit (r : ℕ) := negate_toInt_iff memory (hright (elementIndex batch r)).2
  simp only [(hright _).1] at hfit
  exact and_congr_right fun _ => forall₂_congr fun d _ => forall₃_congr fun r _ _ => hfit r

/-- **Monomial multiplication.** For every power of two that the vector size can be: the product of
a bit monomial and a polynomial is that modulo `X ^ n + 1`, in both orders and for every degree, if
and only if the size is below `2 ^ 31` and, for signed integers, no coefficient that changes its
sign is the smallest one. -/
theorem monomialMultiplication (hn : n.toNat = 2 ^ b) (degrees : Index → Option Size)
    (batch : Index) :
    (∀ (t : SpanType) (right : Index → BitArray w),
      (∀ i, (right i).type = t ∧ Bigint.Normalized (right i)) →
      (Multiplies (integer memory t) (integer memory (Bigint.negateType t)) BitArray.toInt
          BitArray.toInt n degrees right batch ↔
        n.toNat < 2 ^ 31 ∧ ∀ d, degrees batch = some d → ∀ r < n.toNat,
          Odd ((r + d.toNat) / n.toNat) → t.signedness = .unsigned ∨
            (right (elementIndex batch r)).toInt ≠ -2 ^ (t.bitSize - 1))) ∧
    (∀ (N : Modulus) (right : Index → Mod w N), (∀ i, (right i).Reduced) →
      (Multiplies (residue memory N) (residue memory N) Mod.toZMod Mod.toZMod n degrees right
        batch ↔ n.toNat < 2 ^ 31)) ∧
    ∀ (bits : ℕ) (right : Index → Uint w bits),
      (Multiplies (unsigned memory bits) (unsigned memory bits) Uint.toBitVec Uint.toBitVec n
        degrees right batch ↔ n.toNat < 2 ^ 31) := by
  refine ⟨fun t right hright => multiplies_integer_iff memory hn hright, fun N right hright => ?_,
    fun bits right => ?_⟩
  · obtain ⟨hrepresents, hnegate⟩ := represents_residue memory N
    rw [multiplies_iff hn hrepresents hright]
    exact and_iff_left fun d _ r _ _ => hnegate _ (hright _)
  · rw [multiplies_iff hn (represents_unsigned memory bits) fun _ => trivial]
    exact and_iff_left fun d _ r _ _ => Uint.toBitVec_negate memory _

end

/-- The type of the signed bytes. -/
def byteType : SpanType := ⟨8, .signed, .normal⟩

/-- The smallest byte does not change its sign, and no vector has `2 ^ 31` coefficients. -/
theorem not_multiplies_smallest :
    (Bigint.signedByteMin.type = byteType ∧ Bigint.Normalized Bigint.signedByteMin ∧
      ¬Multiplies (integer (fun _ => 0) byteType)
        (integer (fun _ => 0) (Bigint.negateType byteType))
        BitArray.toInt BitArray.toInt 8 (fun _ => some 1) (fun _ => Bigint.signedByteMin)
        [some 0]) ∧
    (Bigint.signedByteMax.type = byteType ∧ Bigint.Normalized Bigint.signedByteMax ∧
      ¬Multiplies (integer (fun _ => 0) byteType)
        (integer (fun _ => 0) (Bigint.negateType byteType))
        BitArray.toInt BitArray.toInt (2 ^ 31) (fun _ => some 0) (fun _ => Bigint.signedByteMax)
        [some 0]) := by
  have hmin := Bigint.signedByteMin_normalized
  have hmax := Bigint.signedByteMax_normalized
  refine ⟨⟨rfl, hmin, fun hm => ?_⟩, ⟨rfl, hmax, fun hm => ?_⟩⟩
  · have hn : (8 : Size).toNat = 2 ^ 3 := rfl
    obtain ⟨-, h⟩ := (multiplies_integer_iff (t := byteType) _ hn fun _ => ⟨rfl, hmin⟩).mp hm
    -- the last coefficient moves to the front
    rcases h 1 rfl 7 (by decide) (by decide) with h | h
    · cases h
    · exact h (by decide)
  · have hn : (2 ^ 31 : Size).toNat = 2 ^ 31 := rfl
    obtain ⟨hlt, -⟩ := (multiplies_integer_iff (t := byteType) _ hn fun _ => ⟨rfl, hmax⟩).mp hm
    exact absurd hlt (by decide)

/-- The residues modulo 40961 have no smallest one. -/
theorem monomialMultiplication_residue :
    Multiplies (residue (fun _ => 0) Mod.prime) (residue (fun _ => 0) Mod.prime) Mod.toZMod
      Mod.toZMod 8 (fun _ => some 17) (fun _ => Mod.largest) [some 0] :=
  ((monomialMultiplication (b := 3) (fun _ => 0) rfl _ _).2.1 Mod.prime (fun _ => Mod.largest)
    fun _ => Mod.reduced_largest).mpr (by decide)

end Hmpc.Expr.BitMonomial
