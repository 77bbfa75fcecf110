/-
# Hmpc.Ints.RootOfUnity -- powers and roots of unity modulo a number

Both forms of `pow` square and multiply from the lowest bit of the exponent. `root_of_unity` tries
random candidates until a power of one is a root of the degree; modulo a prime its square roots of
unity are only one and minus one.
-/
import Hmpc.Ints.Residue
import Mathlib.Algebra.Field.ZMod
import Mathlib.Algebra.Ring.Commute
import Mathlib.GroupTheory.OrderOfElement
import Mathlib.RingTheory.IntegralDomain

namespace Hmpc.Ints

open Hmpc.Core

/-! ## Powers -/

section

variable {R : Type*} [Monoid R]

/-- The loop of `pow`: the result and the value, which is squared in every step. -/
def powStep (exponent : ℕ) (state : R × R) (i : ℕ) : R × R :=
  (if exponent.testBit i then state.1 * state.2 else state.1, state.2 * state.2)

/-- `pow(value, exponent)`, for a constant exponent -/
def pow (value : R) (exponent : ℕ) : R :=
  if exponent = 0 then 1
  else
    let state := (List.range (exponent.size - 1)).foldl (powStep exponent) (1, value)
    state.2 * state.1

/-- `pow(value, exponent)`, for an exponent of `bitSize` bits -/
def powInteger (bitSize : ℕ) (value : R) (exponent : ℕ) : R :=
  if exponent = 0 then 1
  else ((List.range bitSize).foldl (powStep exponent) (1, value)).1

/-- After `k` steps the result has the lowest `k` bits of the exponent. -/
theorem foldl_powStep (exponent : ℕ) (value : R) (k : ℕ) :
    (List.range k).foldl (powStep exponent) (1, value) =
      (value ^ (exponent % 2 ^ k), value ^ 2 ^ k) := by
  induction k with
  | zero => simp [Nat.mod_one]
  | succ k ih =>
      rw [List.range_succ, List.foldl_concat, ih]
      have hbit : exponent % 2 ^ (k + 1) =
          exponent % 2 ^ k + 2 ^ k * (exponent / 2 ^ k % 2) := by
        rw [pow_succ, Nat.mod_mul]
      unfold powStep
      rw [hbit, Nat.testBit_eq_decide_div_mod_eq]
      dsimp only
      rcases Nat.mod_two_eq_zero_or_one (exponent / 2 ^ k) with hzero | hone
      · simp [hzero, pow_succ, pow_mul]
      · simp [hone, pow_add, pow_succ, pow_mul]

theorem pow_eq (value : R) (exponent : ℕ) : pow value exponent = value ^ exponent := by
  unfold pow
  split_ifs with hzero
  · rw [hzero, pow_zero]
  · rw [foldl_powStep, ← pow_add]
    have hpos : 0 < exponent.size := Nat.size_pos.mpr (Nat.pos_of_ne_zero hzero)
    have hlow : 2 ^ (exponent.size - 1) ≤ exponent := Nat.lt_size.mp (by omega)
    have hhigh : exponent < 2 ^ (exponent.size - 1) * 2 := by
      rw [← pow_succ, Nat.sub_add_cancel hpos]
      exact Nat.lt_size_self exponent
    -- the highest bit is the one that the loop leaves out
    rw [Nat.mod_eq_sub_mod hlow, Nat.mod_eq_of_lt (by omega), Nat.add_sub_cancel' hlow]

theorem powInteger_eq {bitSize exponent : ℕ} (h : exponent < 2 ^ bitSize) (value : R) :
    powInteger bitSize value exponent = value ^ exponent := by
  unfold powInteger
  split_ifs with hzero
  · rw [hzero, pow_zero]
  · rw [foldl_powStep, Nat.mod_eq_of_lt h]

end

/-! ## Roots of unity -/

namespace Residue

variable {w : ℕ} [NeZero w] {N : Modulus}

/-- `is_root_of_unity(value, degree)` -/
def isRootOfUnity (value : Residue w N) (degree : ℕ) : Bit :=
  Mod.notEqualTo (pow value (degree / 2)).val (1 : Residue w N).val &&&
    Mod.equalTo (pow value degree).val (1 : Residue w N).val

/-- `root_of_unity`; the candidates are the numbers below the modulus that the generator yields. -/
def rootOfUnity (degree : ℕ) (candidates : List (Residue w N)) : Option (Residue w N) :=
  let exponent := (N.toNat - 1) / degree
  candidates.findSome? fun x =>
    if Mod.notEqualTo x.val (0 : Residue w N).val = 1 then
      let g := powInteger N.bitSize x exponent
      if isRootOfUnity g degree = 1 then some g else none
    else none

theorem equalTo_iff (a b : Residue w N) :
    (Mod.equalTo a.val b.val = 1 ↔ a = b) ∧ (Mod.notEqualTo a.val b.val = 1 ↔ a ≠ b) := by
  have h := Mod.equalTo_iff a.reduced b.reduced
  have heq : a.val.toZMod = b.val.toZMod ↔ a = b := toZMod_injective.eq_iff
  rw [heq] at h
  refine ⟨h.1, ?_⟩
  rw [ne_eq, ← h.2]
  generalize Mod.notEqualTo a.val b.val = bit
  revert bit
  decide

theorem isRootOfUnity_iff (value : Residue w N) (degree : ℕ) :
    isRootOfUnity value degree = 1 ↔ value ^ (degree / 2) ≠ 1 ∧ value ^ degree = 1 := by
  have hand (a b : Bit) : a &&& b = 1 ↔ a = 1 ∧ b = 1 := by
    revert a b
    decide
  rw [isRootOfUnity, hand, (equalTo_iff _ _).2, (equalTo_iff _ _).1, pow_eq, pow_eq]

/-- For a power of two the test is about the order: the proper divisors divide the half. -/
theorem isRootOfUnity_iff_orderOf (value : Residue w N) (k : ℕ) :
    isRootOfUnity value (2 ^ (k + 1)) = 1 ↔ orderOf value.toZMod = 2 ^ (k + 1) := by
  have horder : orderOf value.toZMod = orderOf value := (ringEquiv w N).toMulEquiv.orderOf_eq value
  have hhalf : 2 ^ (k + 1) / 2 = 2 ^ k := Nat.mul_div_cancel _ two_pos
  rw [isRootOfUnity_iff, hhalf, horder]
  constructor
  · rintro ⟨hne, hone⟩
    have : Fact (Nat.Prime 2) := ⟨Nat.prime_two⟩
    exact orderOf_eq_prime_pow hne hone
  · intro h
    refine ⟨fun hone => ?_, ?_⟩
    · have hdvd := orderOf_dvd_of_pow_eq_one hone
      rw [h] at hdvd
      have hle := Nat.le_of_dvd (Nat.two_pow_pos k) hdvd
      rw [pow_succ] at hle
      have hpos := Nat.two_pow_pos k
      omega
    · rw [← h]
      exact pow_orderOf_eq_one value

/-- What the search returns has passed the test. -/
theorem isRootOfUnity_of_rootOfUnity {degree : ℕ} {candidates : List (Residue w N)}
    {g : Residue w N} (h : rootOfUnity degree candidates = some g) :
    isRootOfUnity g degree = 1 := by
  obtain ⟨x, -, hx⟩ := List.exists_of_findSome?_eq_some h
  dsimp only at hx
  split_ifs at hx with hzero hroot
  rw [← Option.some.inj hx]
  exact hroot

theorem isUnit_of_isRootOfUnity {g : Residue w N} {degree : ℕ} (hpos : degree ≠ 0)
    (h : isRootOfUnity g degree = 1) : IsUnit g :=
  IsUnit.of_pow_eq_one ((isRootOfUnity_iff g degree).mp h).2 hpos

/-- Modulo a prime the root of degree `2 * n` is one of minus one. -/
theorem pow_eq_neg_one (hprime : N.toNat.Prime) {g : Residue w N} {n : ℕ}
    (h : isRootOfUnity g (2 * n) = 1) : g ^ n = -1 := by
  have : Fact N.toNat.Prime := ⟨hprime⟩
  have : IsDomain (Residue w N) := MulEquiv.isDomain _ (ringEquiv w N).toMulEquiv
  obtain ⟨hne, hone⟩ := (isRootOfUnity_iff g _).mp h
  rw [Nat.mul_div_cancel_left n two_pos] at hne
  rw [Nat.mul_comm, pow_mul] at hone
  exact (sq_eq_one_iff.mp hone).resolve_left hne

/-- Modulo a prime there is a candidate with which the search ends. -/
theorem exists_candidate (hprime : N.toNat.Prime) {n : ℕ} (hpos : 0 < n)
    (hmodulus : N.toNat ≡ 1 [MOD 2 * n]) :
    ∃ x : Residue w N, ∀ candidates, x ∈ candidates →
      (rootOfUnity (2 * n) candidates).isSome := by
  have : Fact N.toNat.Prime := ⟨hprime⟩
  have : IsDomain (Residue w N) := MulEquiv.isDomain _ (ringEquiv w N).toMulEquiv
  obtain ⟨u, hu⟩ := IsCyclic.exists_ofOrder_eq_natCard (α := (ZMod N.toNat)ˣ)
  rw [Nat.card_eq_fintype_card, ZMod.card_units_eq_totient, Nat.totient_prime hprime] at hu
  obtain ⟨exponent, hexponent⟩ : 2 * n ∣ N.toNat - 1 :=
    (Nat.modEq_iff_dvd' hprime.one_le).mp hmodulus.symm
  have hpred : 0 < 2 * n * exponent := hexponent ▸ Nat.sub_pos_of_lt N.one_lt
  have hexponent₀ : 0 < exponent := Nat.pos_of_mul_pos_left hpred
  have hdiv : (N.toNat - 1) / (2 * n) = exponent := by
    rw [hexponent, Nat.mul_div_cancel_left _ (by omega)]
  have hlt : exponent < 2 ^ N.bitSize :=
    hdiv ▸ (Nat.div_le_self _ _).trans_lt ((Nat.sub_le _ _).trans_lt N.lt_two_pow)
  -- the powers of a generator are one at the multiples of the predecessor only
  let x : Residue w N := ofZMod (u : ZMod N.toNat)
  have hpow (k : ℕ) : x ^ k = 1 ↔ 2 * n * exponent ∣ k := by
    have hvalue : (ringEquiv w N) (x ^ k) = ((u ^ k : (ZMod N.toNat)ˣ) : ZMod N.toNat) := by
      rw [map_pow, Units.val_pow_eq_pow_val]
      exact congrArg (· ^ k) (toZMod_ofZMod _)
    rw [← hexponent, ← hu, orderOf_dvd_iff_pow_eq_one, ← Units.val_eq_one, ← hvalue,
      EmbeddingLike.map_eq_one_iff]
  have hroot : isRootOfUnity (x ^ exponent) (2 * n) = 1 := by
    rw [isRootOfUnity_iff, ← pow_mul, ← pow_mul, ne_eq, hpow, hpow,
      Nat.mul_div_cancel_left n two_pos, Nat.mul_comm exponent n, Nat.mul_assoc,
      Nat.mul_comm exponent]
    refine ⟨fun hdvd => ?_, by rw [Nat.mul_assoc]⟩
    have hle := Nat.le_of_dvd (Nat.mul_pos hpos hexponent₀) hdvd
    have hpos' := Nat.mul_pos hpos hexponent₀
    omega
  refine ⟨x, fun candidates hx => ?_⟩
  have hx₀ : x ≠ 0 := by
    intro hzero
    have hone := (hpow (2 * n * exponent)).mpr dvd_rfl
    rw [hzero, zero_pow hpred.ne'] at hone
    exact zero_ne_one hone
  rw [rootOfUnity, List.findSome?_isSome_iff]
  refine ⟨x, hx, ?_⟩
  rw [if_pos ((equalTo_iff _ _).2.mpr hx₀), hdiv, powInteger_eq hlt, if_pos hroot]
  rfl

end Residue

end Hmpc.Ints
