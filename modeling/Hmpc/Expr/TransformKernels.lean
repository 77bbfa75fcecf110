/-
# Hmpc.Expr.TransformKernels -- the accesses of the kernels of a transform

The positions that the work items of each kernel read and write, and that no two of them have a
position in common. So the accesses of a launch can happen in any order.
-/
import Hmpc.Expr.NumberTheoreticTransform

namespace Hmpc.Expr.NumberTheoreticTransform

open Hmpc.Lib Hmpc.Lib.Ntt Hmpc.Lib.Butterfly

/-! ## What the launches have in common -/

/-- A launch of a kernel on `elementSize` arrays of `vectorSize` elements, with a table of roots. -/
structure OrderIndependent {R : Type*} (vectorSize elementSize : ℕ)
    (kernel : (ℕ → R) → Kernel R) (item : (ℕ → R) → ℕ → (ℕ → R) → ℕ → R) : Prop where
  reads (psis : ℕ → R) : Pairing (vectorSize * elementSize) (vectorSize / 2 * elementSize)
    (kernel psis).index (kernel psis).indexStep
  writes (psis : ℕ → R) : Pairing (vectorSize * elementSize) (vectorSize / 2 * elementSize)
    (kernel psis).writeIndex (kernel psis).writeIndexStep
  /-- The roots that are read are in the table. -/
  roots (psis psis' : ℕ → R) (h : ∀ j < vectorSize, psis j = psis' j) :
    ∀ id < vectorSize / 2 * elementSize, (kernel psis).workItem id = (kernel psis').workItem id
  /-- The result for any order of the accesses, and for any order of the work items. -/
  independent (psis buffer : ℕ → R) (accesses order : List ℕ)
    (haccesses : Kernel.Complete (vectorSize / 2 * elementSize) accesses)
    (horder : order.Perm (List.range (vectorSize / 2 * elementSize))) :
    ((kernel psis).run accesses (.start buffer)).buffer =
      parallelFor (List.range (vectorSize / 2 * elementSize)) (item psis) buffer ∧
    parallelFor order (item psis) buffer =
      parallelFor (List.range (vectorSize / 2 * elementSize)) (item psis) buffer

/-- Work items that have no positions in common. -/
theorem orderIndependent_of_pairing {R : Type*} {n m : ℕ} {kernel : (ℕ → R) → Kernel R}
    {item : (ℕ → R) → ℕ → (ℕ → R) → ℕ → R} (hitem : ∀ psis, (kernel psis).item = item psis)
    (hreads : ∀ psis, Pairing (n * m) (n / 2 * m) (kernel psis).index (kernel psis).indexStep)
    (hwrites : ∀ psis,
      Pairing (n * m) (n / 2 * m) (kernel psis).writeIndex (kernel psis).writeIndexStep)
    (hloads : ∀ psis, (kernel psis).source = none → ∀ id < n / 2 * m,
      (kernel psis).index id = (kernel psis).writeIndex id ∧
        (kernel psis).indexStep id = (kernel psis).writeIndexStep id)
    (hroots : ∀ psis psis', (∀ j < n, psis j = psis' j) →
      ∀ id < n / 2 * m, (kernel psis).workItem id = (kernel psis').workItem id) :
    OrderIndependent n m kernel item where
  reads := hreads
  writes := hwrites
  roots := hroots
  independent psis buffer accesses order haccesses horder := by
    have hrace := Kernel.raceFree_of_pairing (hwrites psis) (hloads psis)
    have hall := Kernel.run_eq_parallelFor hrace haccesses (.refl _) buffer
    have horder' := Kernel.run_eq_parallelFor hrace haccesses horder buffer
    rw [← hitem]
    exact ⟨hall, horder'.symm.trans hall⟩

section

variable {L m : ℕ}

/-- The roots of a stage of `c` blocks, for a work item of one of them. -/
theorem root_lt {s c tid : ℕ} (hs : 0 < s) (hn : 2 ^ L = 2 * s * c) (htid : tid < 2 ^ L / 2) :
    c + tid / s < 2 ^ L := by
  have hhalf : 2 ^ L / 2 = c * s := by
    rw [hn, Nat.mul_assoc, Nat.mul_div_cancel_left _ two_pos, Nat.mul_comm]
  have hblock : tid / s < c := (Nat.div_lt_iff_lt_mul hs).mpr (hhalf ▸ htid)
  have hle : c * 1 ≤ c * s := Nat.mul_le_mul_left c hs
  have hdouble : 2 ^ L = 2 * (c * s) := by rw [hn, Nat.mul_assoc, Nat.mul_comm s]
  omega

section

variable {tid array : ℕ → ℕ} {place : ℕ → ℕ → ℕ} (hL : 0 < L)
  (hwork : Splits (2 ^ L / 2) m tid array) (hplace : Fills (2 ^ L) m place)
include hL hwork hplace

/-- Elements of the two halves of an array. -/
theorem pairing_halves : Pairing (2 ^ L * m) (2 ^ L / 2 * m) (fun id => place (tid id) (array id))
    (fun id => place (tid id + 2 ^ L / 2) (array id)) := by
  have hhalf : 2 ^ L / 2 = 2 ^ (L - 1) := two_pow_half hL
  have htarget {id : ℕ} (hid : id < 2 ^ L / 2 * m) : target (2 ^ (L - 1)) (tid id) = tid id :=
    target_of_lt (hhalf ▸ (hwork.lt id hid).1)
  apply pairing_butterflies (Nat.two_pow_pos (L - 1)) (two_pow_split hL) hwork hplace
  · intro id hid
    exact congrArg (fun t => place t (array id)) (htarget hid).symm
  · intro id hid
    show place _ _ = place _ _
    rw [htarget hid, hhalf]

/-- Elements side by side. -/
theorem pairing_neighbours : Pairing (2 ^ L * m) (2 ^ L / 2 * m)
    (fun id => place (2 * tid id) (array id)) (fun id => place (2 * tid id + 1) (array id)) := by
  apply pairing_butterflies one_pos (two_pow_pairs hL) hwork hplace
  · intro id _
    rw [target_one]
  · intro id _
    rw [target_one]

end

variable {R : Type*} [Add R] [Sub R] [Mul R]

theorem forwardFirst_orderIndependent (hL : 0 < L) (inner : ℕ → R) :
    OrderIndependent (2 ^ L) m (fun psis => forwardFirstKernel (2 ^ L) m psis inner)
      (fun psis => forwardFirst (2 ^ L) m psis inner) := by
  have hreads := pairing_halves hL (splits_mod_div (2 ^ L / 2) m) (fills_rows (2 ^ L) m)
  have hwrites := pairing_halves hL (splits_mod_div (2 ^ L / 2) m) (fills_columns (2 ^ L) m)
  refine orderIndependent_of_pairing (fun _ => rfl) (fun _ => hreads) (fun _ => hwrites) nofun ?_
  intro psis psis' h id _
  unfold forwardFirstKernel
  dsimp only
  rw [h 1 (Nat.one_lt_two_pow hL.ne')]

theorem forwardMiddle_orderIndependent {t : ℕ} (ht : t < L) :
    OrderIndependent (2 ^ L) m (fun psis => forwardMiddleKernel (R := R) (2 ^ L) m t psis)
      (fun psis => forwardMiddle (2 ^ L) m t psis) := by
  have hpos : 0 < 2 ^ (L - t - 1) := Nat.two_pow_pos _
  have hstep : 2 ^ L / 2 ^ t / 2 = 2 ^ (L - t - 1) := forward_step ht
  have hpairing (psis : ℕ → R) : Pairing (2 ^ L * m) (2 ^ L / 2 * m)
      (forwardMiddleKernel (2 ^ L) m t psis).writeIndex
      (forwardMiddleKernel (2 ^ L) m t psis).writeIndexStep := by
    apply pairing_butterflies hpos (two_pow_split ht) (splits_div_mod _ _) (fills_columns _ _)
    · intro id _
      rw [← hstep]
      rfl
    · intro id _
      rw [← hstep]
      rfl
  refine orderIndependent_of_pairing (fun _ => rfl) hpairing hpairing (fun _ _ _ _ => ⟨rfl, rfl⟩) ?_
  intro psis psis' h id hid
  unfold forwardMiddleKernel
  dsimp only
  rw [h _ (hstep ▸ root_lt hpos (two_pow_split ht) ((splits_div_mod _ _).lt id hid).1)]

theorem forwardLast_orderIndependent (hL : 0 < L) (read : ℕ → R) :
    OrderIndependent (2 ^ L) m (fun psis => forwardLastKernel (2 ^ L) m psis read)
      (fun psis => forwardLast (2 ^ L) m psis read) := by
  have hreads := pairing_neighbours hL (splits_div_mod (2 ^ L / 2) m) (fills_columns (2 ^ L) m)
  have hwrites := pairing_neighbours hL (splits_div_mod (2 ^ L / 2) m) (fills_rows (2 ^ L) m)
  refine orderIndependent_of_pairing (fun _ => rfl) (fun _ => hreads) (fun _ => hwrites) nofun ?_
  intro psis psis' h id hid
  have hroot := root_lt one_pos (two_pow_pairs hL) ((splits_div_mod _ _).lt id hid).1
  rw [← two_pow_half hL, Nat.div_one] at hroot
  unfold forwardLastKernel
  dsimp only
  rw [h _ hroot]

theorem inverseFirst_orderIndependent (hL : 0 < L) (inner : ℕ → R) :
    OrderIndependent (2 ^ L) m (fun psis => inverseFirstKernel (2 ^ L) m psis inner)
      (fun psis => inverseFirst (2 ^ L) m psis inner) := by
  have hreads := pairing_neighbours hL (splits_mod_div (2 ^ L / 2) m) (fills_rows (2 ^ L) m)
  have hwrites := pairing_neighbours hL (splits_mod_div (2 ^ L / 2) m) (fills_columns (2 ^ L) m)
  refine orderIndependent_of_pairing (fun _ => rfl) (fun _ => hreads) (fun _ => hwrites) nofun ?_
  intro psis psis' h id hid
  have hroot := root_lt one_pos (two_pow_pairs hL) ((splits_mod_div _ _).lt id hid).1
  rw [← two_pow_half hL, Nat.div_one] at hroot
  unfold inverseFirstKernel
  dsimp only
  rw [h _ hroot]

theorem inverseMiddle_orderIndependent {t : ℕ} (ht : t < L) :
    OrderIndependent (2 ^ L) m (fun psis => inverseMiddleKernel (R := R) (2 ^ L) m t psis)
      (fun psis => inverseMiddle (2 ^ L) m t psis) := by
  have hpos : 0 < 2 ^ t := Nat.two_pow_pos _
  have hsplit : 2 ^ L = 2 * 2 ^ t * 2 ^ (L - t - 1) := by
    rw [two_pow_split ht]
    ring
  obtain ⟨hlength, hstep⟩ := inverse_step ht
  rw [← hlength] at hstep hsplit
  have hpairing (psis : ℕ → R) : Pairing (2 ^ L * m) (2 ^ L / 2 * m)
      (inverseMiddleKernel (2 ^ L) m t psis).writeIndex
      (inverseMiddleKernel (2 ^ L) m t psis).writeIndexStep := by
    apply pairing_butterflies hpos hsplit (splits_div_mod _ _) (fills_columns _ _)
    · intro id _
      rw [← hstep]
      rfl
    · intro id _
      rw [← hstep]
      rfl
  refine orderIndependent_of_pairing (fun _ => rfl) hpairing hpairing (fun _ _ _ _ => ⟨rfl, rfl⟩) ?_
  intro psis psis' h id hid
  unfold inverseMiddleKernel
  dsimp only
  rw [h _ (hstep ▸ root_lt hpos hsplit ((splits_div_mod _ _).lt id hid).1)]

theorem inverseLast_orderIndependent (hL : 0 < L) (read : ℕ → R) :
    OrderIndependent (2 ^ L) m (fun psis => inverseLastKernel (2 ^ L) m psis read)
      (fun psis => inverseLast (2 ^ L) m psis read) := by
  have hreads := pairing_halves hL (splits_div_mod (2 ^ L / 2) m) (fills_columns (2 ^ L) m)
  have hwrites := pairing_halves hL (splits_div_mod (2 ^ L / 2) m) (fills_rows (2 ^ L) m)
  refine orderIndependent_of_pairing (fun _ => rfl) (fun _ => hreads) (fun _ => hwrites) nofun ?_
  intro psis psis' h id _
  unfold inverseLastKernel
  dsimp only
  rw [h 0 (Nat.two_pow_pos L), h 1 (Nat.one_lt_two_pow hL.ne')]

end

/-! ## All launches -/

/-- The launches of a transform and of an inverse transform of `elementSize` arrays. -/
structure LaunchesIndependent (R : Type*) [Add R] [Sub R] [Mul R]
    (iterationCount elementSize : ℕ) : Prop where
  forwardFirst (inner : ℕ → R) : OrderIndependent (2 ^ iterationCount) elementSize
    (fun psis => forwardFirstKernel (2 ^ iterationCount) elementSize psis inner)
    (fun psis => forwardFirst (2 ^ iterationCount) elementSize psis inner)
  forwardMiddle (iteration : ℕ) (h : iteration ∈ List.range' 1 (iterationCount - 2)) :
    OrderIndependent (2 ^ iterationCount) elementSize
      (fun psis => forwardMiddleKernel (R := R) (2 ^ iterationCount) elementSize iteration psis)
      (fun psis => forwardMiddle (2 ^ iterationCount) elementSize iteration psis)
  forwardLast (read : ℕ → R) : OrderIndependent (2 ^ iterationCount) elementSize
    (fun psis => forwardLastKernel (2 ^ iterationCount) elementSize psis read)
    (fun psis => forwardLast (2 ^ iterationCount) elementSize psis read)
  inverseFirst (inner : ℕ → R) : OrderIndependent (2 ^ iterationCount) elementSize
    (fun psis => inverseFirstKernel (2 ^ iterationCount) elementSize psis inner)
    (fun psis => inverseFirst (2 ^ iterationCount) elementSize psis inner)
  inverseMiddle (iteration : ℕ) (h : iteration ∈ List.range' 1 (iterationCount - 2)) :
    OrderIndependent (2 ^ iterationCount) elementSize
      (fun psis => inverseMiddleKernel (R := R) (2 ^ iterationCount) elementSize iteration psis)
      (fun psis => inverseMiddle (2 ^ iterationCount) elementSize iteration psis)
  inverseLast (read : ℕ → R) : OrderIndependent (2 ^ iterationCount) elementSize
    (fun psis => inverseLastKernel (2 ^ iterationCount) elementSize psis read)
    (fun psis => inverseLast (2 ^ iterationCount) elementSize psis read)

/-- **Every launch** reads and writes each position once, and its work items can run in any
order. -/
theorem launchesIndependent {R : Type*} [Add R] [Sub R] [Mul R] {iterationCount : ℕ}
    (h : 2 ≤ iterationCount) (elementSize : ℕ) :
    LaunchesIndependent R iterationCount elementSize := by
  have hpos : 0 < iterationCount := by omega
  have hmiddle {iteration : ℕ} (hiteration : iteration ∈ List.range' 1 (iterationCount - 2)) :
      iteration < iterationCount := by
    rw [List.mem_range'_1] at hiteration
    omega
  exact
    { forwardFirst := forwardFirst_orderIndependent hpos
      forwardMiddle := fun _ hiteration => forwardMiddle_orderIndependent (hmiddle hiteration)
      forwardLast := forwardLast_orderIndependent hpos
      inverseFirst := inverseFirst_orderIndependent hpos
      inverseMiddle := fun _ hiteration => inverseMiddle_orderIndependent (hmiddle hiteration)
      inverseLast := inverseLast_orderIndependent hpos }

/-- Three arrays of eight elements. -/
theorem launchesIndependent_eight : LaunchesIndependent ℤ 3 3 :=
  launchesIndependent (by decide) 3

end Hmpc.Expr.NumberTheoreticTransform
