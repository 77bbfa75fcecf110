/-
# Hmpc.Ints.Residue -- the values of `mod<Modulus>` as a commutative ring

A `Residue` is a value whose limbs are below the modulus. The operators of `mod` make the residues
a commutative ring, which the unsigned conversion identifies with the integers modulo `N`.
-/
import Hmpc.Ints.Mod
import Mathlib.Algebra.Ring.InjSurj

namespace Hmpc.Ints

open Hmpc.Core

/-- A `mod<Modulus>` whose limbs are below the modulus. -/
@[ext] structure Residue (w : ℕ) (N : Modulus) where
  val : Mod w N
  reduced : val.Reduced

namespace Residue

variable {w : ℕ} [NeZero w] {N : Modulus}

/-- The number modulo `N` that the unsigned conversion returns. -/
def toZMod (a : Residue w N) : ZMod N.toNat := a.val.toZMod

/-- Its Montgomery form. -/
def ofZMod (z : ZMod N.toNat) : Residue w N :=
  ⟨Mod.ofResidue w N (z * N.auxiliaryModulus w), Mod.reduced_ofResidue _⟩

@[simp] theorem toZMod_ofZMod (z : ZMod N.toNat) : (ofZMod z : Residue w N).toZMod = z := by
  rw [toZMod, ofZMod, Mod.toZMod, Mod.residue_ofResidue, mul_assoc,
    Mod.auxiliaryModulus_mul_inv, mul_one]

@[simp] theorem ofZMod_toZMod (a : Residue w N) : ofZMod a.toZMod = a := by
  apply Residue.ext
  show Mod.ofResidue w N (a.val.toZMod * N.auxiliaryModulus w) = a.val
  rw [← Mod.residue_eq]
  exact a.reduced.eq_ofResidue.symm

theorem toZMod_injective : Function.Injective (toZMod : Residue w N → ZMod N.toNat) :=
  Function.LeftInverse.injective ofZMod_toZMod

/-! ## The operators -/

/-- What a body computes is a residue again. -/
def operator (body : Mod.Body w) {op : ZMod N.toNat → ZMod N.toNat → ZMod N.toNat}
    (hbody : body.Computes N op) (a b : Residue w N) : Residue w N :=
  ⟨Mod.operator (fun _ => 0) body a.val b.val, by
    rw [Mod.operator_eq _ hbody a.reduced b.reduced]
    exact Mod.reduced_ofResidue _⟩

theorem toZMod_operator {body : Mod.Body w} {op : ZMod N.toNat → ZMod N.toNat → ZMod N.toNat}
    (hbody : body.Computes N op) (a b : Residue w N) : (operator body hbody a b).toZMod =
      op a.val.residue b.val.residue * (N.auxiliaryModulus w : ZMod N.toNat)⁻¹ := by
  show (Mod.operator (fun _ => 0) body a.val b.val).toZMod = _
  rw [Mod.operator_eq _ hbody a.reduced b.reduced, Mod.toZMod, Mod.residue_ofResidue]

instance : Add (Residue w N) := ⟨operator _ (Mod.computes_addBody (fun _ => 0))⟩

instance : Sub (Residue w N) := ⟨operator _ (Mod.computes_subtractBody (fun _ => 0))⟩

instance : Mul (Residue w N) := ⟨operator _ (Mod.computes_multiplyBody (fun _ => 0))⟩

instance : Neg (Residue w N) where
  neg a := ⟨Mod.negate (fun _ => 0) a.val, by
    rw [Mod.negate_eq _ a.reduced]
    exact Mod.reduced_ofResidue _⟩

instance : Zero (Residue w N) := ⟨ofZMod 0⟩

instance : One (Residue w N) := ⟨ofZMod 1⟩

instance : SMul ℕ (Residue w N) := ⟨fun n a => ofZMod (n • a.toZMod)⟩

instance : SMul ℤ (Residue w N) := ⟨fun n a => ofZMod (n • a.toZMod)⟩

instance : Pow (Residue w N) ℕ := ⟨fun a n => ofZMod (a.toZMod ^ n)⟩

instance : NatCast (Residue w N) := ⟨fun n => ofZMod n⟩

instance : IntCast (Residue w N) := ⟨fun n => ofZMod n⟩

theorem toZMod_add (a b : Residue w N) : (a + b).toZMod = a.toZMod + b.toZMod := by
  have hadd := toZMod_operator (Mod.computes_addBody (fun _ => 0)) a b
  rw [add_mul] at hadd
  exact hadd

theorem toZMod_sub (a b : Residue w N) : (a - b).toZMod = a.toZMod - b.toZMod := by
  have hsubtract := toZMod_operator (Mod.computes_subtractBody (fun _ => 0)) a b
  rw [sub_mul] at hsubtract
  exact hsubtract

theorem toZMod_mul (a b : Residue w N) : (a * b).toZMod = a.toZMod * b.toZMod := by
  have hmultiply := toZMod_operator (Mod.computes_multiplyBody (fun _ => 0)) a b
  have hform : a.toZMod * b.toZMod =
      a.val.residue * b.val.residue * (N.auxiliaryModulus w : ZMod N.toNat)⁻¹ *
        (N.auxiliaryModulus w : ZMod N.toNat)⁻¹ := by
    rw [toZMod, toZMod, Mod.toZMod, Mod.toZMod]
    ring
  rw [hform]
  exact hmultiply

theorem toZMod_neg (a : Residue w N) : (-a).toZMod = -a.toZMod := by
  show (Mod.negate (fun _ => 0) a.val).toZMod = -a.val.toZMod
  rw [Mod.negate_eq _ a.reduced, Mod.toZMod, Mod.residue_ofResidue, Mod.toZMod, neg_mul]

instance : CommRing (Residue w N) :=
  toZMod_injective.commRing toZMod (toZMod_ofZMod 0) (toZMod_ofZMod 1) toZMod_add toZMod_mul
    toZMod_neg toZMod_sub (fun _ _ => toZMod_ofZMod _) (fun _ _ => toZMod_ofZMod _)
    (fun _ _ => toZMod_ofZMod _) (fun _ => toZMod_ofZMod _) (fun _ => toZMod_ofZMod _)

/-- **The ring of the integers modulo `N`.** -/
def ringEquiv (w : ℕ) [NeZero w] (N : Modulus) : Residue w N ≃+* ZMod N.toNat where
  toFun := toZMod
  invFun := ofZMod
  left_inv := ofZMod_toZMod
  right_inv := toZMod_ofZMod
  map_add' := toZMod_add
  map_mul' := toZMod_mul

end Residue

end Hmpc.Ints
