/-
# Hmpc.Ints.Pow -- powers modulo a number

`pow` squares and multiplies from the lowest bit of the exponent, starting with the Montgomery form
of one. A constant exponent is a size, any other one is an unsigned integer whose bits are read at
compile time, for which it must have some. Both forms have a value exactly when the Montgomery form
of one does.
-/
import Hmpc.Core.CheckedNum
import Hmpc.Ints.Invert
import Hmpc.Ints.RootOfUnity

namespace Hmpc.Ints

open Hmpc.Core Hmpc.Lib Hmpc.Lib.Loops SpanType

variable {w : ℕ}

/-- `hmpc::ints::one` -/
def Bigint.one (w : ℕ) : BitArray w := (SpanType.mk 1 .unsigned .normal).array w 1

/-- `hmpc::ints::zero` -/
def Bigint.zero (w : ℕ) : BitArray w := (SpanType.mk 0 .unsigned .normal).array w 0

namespace Mod

variable {N : Modulus} (memory : ℕ → BitVec w)

/-- The body of the loop: the result is multiplied when the bit is set, and the value is squared. -/
def powStep (bit : Bit) (state : Mod w N × Mod w N) : Mod w N × Mod w N :=
  (if bit = 1 then multiplyAssign memory state.1 state.2 else state.1,
    assignSelf (multiplyBody memory N) state.2)

/-- `pow(value, exponent)`, for a constant exponent -/
def pow (value : Mod w N) (exponent : ℕ) : Option (Mod w N) := do
  let one ← ofInteger memory N (Bigint.one w)
  if exponent = 0 then return one
  else
    let state := scanRange (exponent.size - 1)
      (fun i s => powStep memory (BitVec.ofBool (exponent.testBit i)) s) (one, value)
    return multiply memory state.2 state.1

/-- `pow(value, exponent)`, for an exponent that is an unsigned integer -/
def powInteger (value : Mod w N) (exponent : BitArray w) : Option (Mod w N) := do
  -- `bit_array<0>` has no `compiletime_span`
  guard (0 < exponent.type.bitSize)
  let one ← ofInteger memory N (Bigint.one w)
  if Core.Num.equalTo exponent.span (Bigint.zero w).span = 1 then return one
  else
    let state ← tryScanRange exponent.type.bitSize (fun i s => do
      return powStep memory (← Checked.extractBit exponent.toBitSpan i) s) (one, value)
    return state.1

variable [NeZero w]

/-! ## The loops compute powers of residues -/

theorem multiply_val (a b : Residue w N) : multiply memory a.val b.val = (a * b).val := by
  rw [multiply, operator_eq memory (computes_multiplyBody memory) a.reduced b.reduced]
  exact (operator_eq (fun _ => 0) (computes_multiplyBody _) a.reduced b.reduced).symm

theorem multiplyAssign_val (a b : Residue w N) :
    multiplyAssign memory a.val b.val = (a * b).val := by
  rw [multiplyAssign, assign_eq (computes_multiplyBody memory) a.reduced b.reduced]
  exact (operator_eq (fun _ => 0) (computes_multiplyBody _) a.reduced b.reduced).symm

theorem square_val (a : Residue w N) :
    assignSelf (multiplyBody memory N) a.val = (a * a).val := by
  rw [assignSelf_eq (computes_multiplyBody memory) a.reduced]
  exact (operator_eq (fun _ => 0) (computes_multiplyBody _) a.reduced a.reduced).symm

/-- What the loop holds after `i` steps. -/
def powState (value : Residue w N) (exponent i : ℕ) : Mod w N × Mod w N :=
  let state := (List.range i).foldl (Ints.powStep exponent) (1, value)
  (state.1.val, state.2.val)

theorem powStep_powState (value : Residue w N) (exponent i : ℕ) :
    powStep memory (BitVec.ofBool (exponent.testBit i)) (powState value exponent i) =
      powState value exponent (i + 1) := by
  unfold powState
  rw [List.range_succ, List.foldl_concat]
  generalize (List.range i).foldl (Ints.powStep exponent) (1, value) = state
  unfold powStep Ints.powStep
  dsimp only
  rw [square_val, multiplyAssign_val]
  cases exponent.testBit i <;> rfl

/-- The Montgomery form of one is that of the ring. -/
theorem ofInteger_one : DefinedWhen (N.UnsignedCompiles w 1) (ofInteger memory N (Bigint.one w))
    (· = (1 : Residue w N).val) := by
  have hrange : (SpanType.mk 1 .unsigned .normal).InRange 1 :=
    (inRange_unsigned _ rfl).mpr ⟨zero_le_one, one_lt_two⟩
  have hnormalized : Bigint.Normalized (Bigint.one w) := ⟨nofun, isNormal_array _ hrange⟩
  have hone : (Bigint.one w).toInt = 1 := (toInt_array _ _).trans hrange
  have hreturns := returns_ofInteger (N := N) memory hnormalized
  rw [hone] at hreturns
  refine hreturns.imp fun a ⟨hreduced, hvalue⟩ => ?_
  have hresidue : (⟨a, hreduced⟩ : Residue w N) = 1 := by
    apply Residue.toZMod_injective
    have hcast := cast_toUnsigned memory hreduced
    rw [hvalue, ZMod.intCast_mod, Int.cast_one] at hcast
    exact hcast.symm.trans (Residue.toZMod_ofZMod 1).symm
  rw [← hresidue]

/-- `pow` with a constant exponent is the one of the ring. -/
theorem pow_definedWhen (value : Residue w N) (exponent : ℕ) :
    DefinedWhen (N.UnsignedCompiles w 1) (pow memory value.val exponent)
      (· = (value ^ exponent).val) := by
  have hloop : ∀ n, scanRange n
      (fun i s => powStep memory (BitVec.ofBool (exponent.testBit i)) s)
      ((1 : Residue w N).val, value.val) = powState value exponent n := by
    intro n
    apply scanRange_induction (P := fun i s => s = powState value exponent i)
    · rfl
    · rintro i - s rfl
      exact powStep_powState memory value exponent i
  have hring := Ints.pow_eq value exponent
  unfold Ints.pow at hring
  unfold pow
  by_cases hexponent : exponent = 0
  · simp only [if_pos hexponent] at hring ⊢
    refine (ofInteger_one memory).map ?_
    rintro _ rfl
    exact congrArg Residue.val hring
  · simp only [if_neg hexponent] at hring ⊢
    refine (ofInteger_one memory).map ?_
    rintro _ rfl
    rw [hloop, ← hring]
    exact multiply_val memory _ _

/-- `pow` with an integer as the exponent is the one of the ring. -/
theorem powInteger_definedWhen (value : Residue w N) {exponent : BitArray w}
    (hu : exponent.type.signedness = .unsigned) (hread : exponent.Readable) :
    DefinedWhen (0 < exponent.type.bitSize ∧ N.UnsignedCompiles w 1)
      (powInteger memory value.val exponent) (· = (value ^ exponent.toInt.toNat).val) := by
  have hstored : exponent.storedInt = exponent.toInt := by
    unfold BitArray.storedInt BitArray.toInt wrap
    rw [hu]
  have hvalue : exponent.toInt = (Limbs.value exponent.limbs % 2 ^ exponent.type.bitSize : ℕ) := by
    unfold BitArray.toInt wrap
    rw [hu]
    push_cast
    rfl
  have hzero : Core.Num.equalTo exponent.span (Bigint.zero w).span = 1 ↔
      exponent.toInt.toNat = 0 := by
    have hrepresents := exponent.represents_span hread
    have hrange : (SpanType.mk 0 .unsigned .normal).InRange 0 :=
      (inRange_unsigned _ rfl).mpr ⟨le_rfl, zero_lt_one⟩
    have hnormalized : Bigint.Normalized (Bigint.zero w) := ⟨nofun, isNormal_array _ hrange⟩
    have hzeros := represents_of_normalized hnormalized
    rw [show (Bigint.zero w).toInt = 0 from (toInt_array _ _).trans hrange] at hzeros
    rw [Core.Num.equalTo_eq_one_iff hrepresents hzeros,
      Core.Num.sameDigits_iff_of_unsigned hrepresents hzeros hu rfl, hstored]
    omega
  have hloop : tryScanRange exponent.type.bitSize (fun i s => do
      return powStep memory (← Checked.extractBit exponent.toBitSpan i) s)
      ((1 : Residue w N).val, value.val) =
        some (powState value exponent.toInt.toNat exponent.type.bitSize) := by
    have hscan := tryScanRange_induction (P := fun i s => s = powState value exponent.toInt.toNat i)
      (n := exponent.type.bitSize) (f := fun i s => do
        return powStep memory (← Checked.extractBit exponent.toBitSpan i) s)
      (s := ((1 : Residue w N).val, value.val)) rfl ?_
    · obtain ⟨s, hs, rfl⟩ := hscan
      exact hs
    · rintro i hi - rfl
      refine ⟨_, ?_, rfl⟩
      -- the bits above those of the exponent are not reached
      have hbit : (Limbs.value exponent.limbs).testBit i = exponent.toInt.toNat.testBit i := by
        rw [hvalue, Int.toNat_natCast, Nat.testBit_mod_two_pow, decide_eq_true hi, Bool.true_and]
      rw [Checked.extractBit_eq ((Checked.sound_iff_readable hu).mpr hread), Option.bind_eq_bind,
        Option.bind_some, hbit, powStep_powState]
      rfl
  have hlt : exponent.toInt.toNat < 2 ^ exponent.type.bitSize := by
    have hbits := Bigint.toInt_unsigned exponent hu
    zify
    rw [Int.toNat_of_nonneg hbits.1]
    exact hbits.2
  have hring := Ints.powInteger_eq hlt value
  unfold Ints.powInteger at hring
  unfold powInteger
  refine (DefinedWhen.of_guard _).bind fun _ _ => ?_
  by_cases hexponent : exponent.toInt.toNat = 0
  · simp only [if_pos hexponent] at hring
    simp only [if_pos (hzero.mpr hexponent)]
    refine (ofInteger_one memory).map ?_
    rintro _ rfl
    exact congrArg Residue.val hring
  · simp only [if_neg hexponent] at hring
    simp only [if_neg (mt hzero.mp hexponent)]
    refine ⟨fun h => ?_, fun h => ?_⟩
    · rw [(ofInteger_one memory).eq_some h, Option.bind_eq_bind, Option.bind_some, hloop]
      exact ⟨_, rfl, congrArg Residue.val hring⟩
    · rw [(ofInteger_one memory).eq_none h]
      rfl

/-- What inverses and powers of a value should be. An exponent that is not `normal` may have any
bits above its own. -/
structure InvertsAndRaises (a : Mod w N) (constantExponent : ℕ) (exponent : BitArray w) : Prop where
  inverts : Int.gcd (toUnsigned memory a).toInt N.toNat = 1 → ∃ b, invert memory a = some b ∧
    (toUnsigned memory b).toInt * (toUnsigned memory a).toInt ≡ 1 [ZMOD N.toNat]
  raises : ∃ c, pow memory a constantExponent = some c ∧
    Holds memory c ((toUnsigned memory a).toInt ^ constantExponent)
  raisesInteger : ∃ c, powInteger memory a exponent = some c ∧
    Holds memory c ((toUnsigned memory a).toInt ^ exponent.toInt.toNat)
  agree : powInteger memory a exponent = pow memory a exponent.toInt.toNat

theorem holds_power (value : Residue w N) (exponent : ℕ) :
    Holds memory (value ^ exponent).val ((toUnsigned memory value.val).toInt ^ exponent) := by
  have hpow : (value ^ exponent).val.toZMod = value.val.toZMod ^ exponent :=
    map_pow (Residue.ringEquiv w N) value exponent
  refine ⟨(value ^ exponent).reduced, ?_⟩
  rw [(value ^ exponent).reduced.toInt_toUnsigned, ← ZMod.val_intCast, Int.cast_pow,
    cast_toUnsigned memory value.reduced, hpow]

/-- The inverse, as the unsigned views have it. -/
theorem inverts_definedWhen {a : Mod w N} (ha : a.Reduced)
    (hcoprime : Int.gcd (toUnsigned memory a).toInt N.toNat = 1) :
    DefinedWhen (N.CubedCompiles w) (invert memory a) fun b =>
      (toUnsigned memory b).toInt * (toUnsigned memory a).toInt ≡ 1 [ZMOD N.toNat] := by
  have hcast := cast_toUnsigned memory ha
  have hunit : IsUnit a.toZMod := by
    rw [ha.toInt_toUnsigned] at hcoprime
    rw [← ZMod.natCast_zmod_val a.toZMod]
    exact (ZMod.isUnit_iff_coprime _ _).mpr (by exact_mod_cast hcoprime)
  refine (invert_definedWhen memory ha hunit).imp fun b ⟨hreduced, hone⟩ => ?_
  rw [← ZMod.intCast_eq_intCast_iff]
  push_cast
  rw [hcast, cast_toUnsigned memory hreduced, mul_comm, hone]

/-- **Inverses and powers.** Powers start from the Montgomery form of one, so that they compile when
it does; exponents that are integers must have bits. Inverses end with a product with `R ^ 3`. -/
theorem invertsAndRaises_iff {N : Modulus} (memory : ℕ → BitVec 32) {a : Mod 32 N} (ha : a.Reduced)
    (constantExponent : ℕ) {exponent : BitArray 32} (hu : exponent.type.signedness = .unsigned)
    (hread : exponent.Readable) :
    InvertsAndRaises memory a constantExponent exponent ↔
      N.UnsignedCompiles 32 1 ∧ 0 < exponent.type.bitSize ∧
        (Int.gcd (toUnsigned memory a).toInt N.toNat = 1 → N.CubedCompiles 32) := by
  -- powers of the reduced value are taken in the ring of residues
  let value : Residue 32 N := ⟨a, ha⟩
  have hconstant := pow_definedWhen memory value
  have hinteger := powInteger_definedWhen memory value hu hread
  have hinverts := inverts_definedWhen memory ha
  constructor
  · intro h
    obtain ⟨c, hc, -⟩ := h.raises
    obtain ⟨c', hc', -⟩ := h.raisesInteger
    refine ⟨(hconstant _).domain hc, (hinteger.domain hc').1, fun hcoprime => ?_⟩
    obtain ⟨b, hb, -⟩ := h.inverts hcoprime
    exact (hinverts hcoprime).domain hb
  · rintro ⟨hone, hbits, hcubed⟩
    have hpow (k : ℕ) : pow memory a k = some (value ^ k).val := (hconstant k).eq_some hone
    have hpow' : powInteger memory a exponent = some (value ^ exponent.toInt.toNat).val :=
      hinteger.eq_some ⟨hbits, hone⟩
    exact
      { inverts := fun hcoprime => (hinverts hcoprime).result (hcubed hcoprime)
        raises := ⟨_, hpow _, holds_power memory value _⟩
        raisesInteger := ⟨_, hpow', holds_power memory value _⟩
        agree := hpow'.trans (hpow _).symm }

def oneModCarrying : Mod 32 carrying := ⟨[1, 0], by decide +kernel⟩

/-- Modulo `2 ^ 64 - 2 ^ 48 + 1` not even the power with exponent zero compiles. -/
theorem not_invertsAndRaises_carrying : oneModCarrying.Reduced ∧
    ¬ InvertsAndRaises (fun _ => 0) oneModCarrying 0 (Bigint.one 32) := by
  have hreduced : oneModCarrying.Reduced := by
    unfold Reduced
    decide +kernel
  refine ⟨hreduced, fun h => ?_⟩
  obtain ⟨c, hc, -⟩ := h.raises
  exact not_unsignedCompiles_carrying (by decide)
    ((pow_definedWhen (fun _ => 0) (⟨_, hreduced⟩ : Residue 32 carrying) 0).domain hc)

/-- Thirteen, in four bits. -/
def thirteen : BitArray 32 := ⟨⟨⟨4, .unsigned, .normal⟩, [13]⟩, rfl⟩

theorem invertsAndRaises_prime : InvertsAndRaises (fun _ => 0) largest 6 thirteen :=
  (invertsAndRaises_iff (fun _ => 0) reduced_largest 6 rfl
    ⟨by decide, fun _ => by unfold BitArray.IsNormal; decide⟩).mpr
    ⟨squareCompiles_prime.unsigned (by decide +kernel) (by decide +kernel), by decide,
      fun _ => ⟨squareCompiles_prime, by decide +kernel⟩⟩

end Mod

end Hmpc.Ints
