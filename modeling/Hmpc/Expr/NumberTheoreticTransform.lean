/-
# Hmpc.Expr.NumberTheoreticTransform -- the kernels of the transform and its inverse

A transform of `m` polynomials of `n = 2 ^ iteration_count` coefficients runs one kernel per stage.
The first kernel reads the inner expression and writes a scratch buffer in which the polynomials
alternate, the next ones work in that buffer, and the last kernel writes the tensor. A kernel runs
its work items in any order.
-/
import Hmpc.Detail.BitReverse
import Hmpc.Lib.Butterfly
import Hmpc.Lib.Interleaving
import Mathlib.Algebra.Polynomial.Div

namespace Hmpc.Expr.NumberTheoreticTransform

open Hmpc.Lib Hmpc.Lib.Ntt Hmpc.Lib.Butterfly Hmpc.Detail

section

variable {R : Type*} [Add R] [Sub R] [Mul R] [One R]

/-- `bit_reverse(i, size_constant_of<iteration_count>)` for an index of the roots -/
def rootIndex (iterationCount i : ℕ) : ℕ :=
  (bitReverse (BitVec.ofNat 32 i) iterationCount).toNat

/-- The loop of `get_roots`: the power of the root, and the roots so far. -/
def getRootsStep (isInverse : Bool) (iterationCount : ℕ) (root normalization : R)
    (state : R × (ℕ → R)) (i : ℕ) : R × (ℕ → R) :=
  let power := state.1 * root
  let j := rootIndex iterationCount i
  if isInverse ∧ j = 1 then (power, Function.update state.2 j (power * normalization))
  else (power, Function.update state.2 j power)

/-- `get_roots`; the roots of the inverse transform have the normalization in two of them. -/
def getRoots (isInverse : Bool) (iterationCount : ℕ) (root normalization : R)
    (uninitialized : ℕ → R) : ℕ → R :=
  let vectorSize := 2 ^ iterationCount
  let roots := Function.update uninitialized 0 (if isInverse then normalization else 1)
  let roots := Function.update roots (rootIndex iterationCount 1) root
  ((List.range' 2 (vectorSize - 2)).foldl
    (getRootsStep isInverse iterationCount root normalization) (root, roots)).2

/-- The first kernel of the transform; `inner` has the elements at their linear indices. -/
def forwardFirstKernel (vectorSize elementSize : ℕ) (psis inner : ℕ → R) : Kernel R where
  source := some inner
  workItem id :=
    let i := id / (vectorSize / 2)
    let tid := id % (vectorSize / 2)
    let step := vectorSize / 2
    let psi := psis 1
    { index := tid + i * vectorSize
      indexStep := tid + step + i * vectorSize
      writeIndex := i + tid * elementSize
      writeIndexStep := i + (tid + step) * elementSize
      first := fun u v => u + v * psi
      second := fun u v => u - v * psi }

/-- `inner_transform` of the transform -/
def forwardMiddleKernel (vectorSize elementSize iteration : ℕ) (psis : ℕ → R) : Kernel R where
  source := none
  workItem id :=
    let tid := id / elementSize
    let i := id % elementSize
    let length := 2 ^ iteration
    let step := vectorSize / length / 2
    let psiStep := tid / step
    let targetIdx := psiStep * step * 2 + tid % step
    let stepGroup := length + psiStep
    let psi := psis stepGroup
    let index := i + targetIdx * elementSize
    let indexStep := i + (targetIdx + step) * elementSize
    { index := index
      indexStep := indexStep
      writeIndex := index
      writeIndexStep := indexStep
      first := fun u v => u + v * psi
      second := fun u v => u - v * psi }

/-- The last kernel of the transform. -/
def forwardLastKernel (vectorSize elementSize : ℕ) (psis read : ℕ → R) : Kernel R where
  source := some read
  workItem id :=
    let tid := id / elementSize
    let i := id % elementSize
    let length := vectorSize / 2
    let step := 1
    let targetIdx := 2 * tid
    let stepGroup := length + tid
    let psi := psis stepGroup
    { index := i + targetIdx * elementSize
      indexStep := i + (targetIdx + step) * elementSize
      writeIndex := targetIdx + i * vectorSize
      writeIndexStep := targetIdx + step + i * vectorSize
      first := fun u v => u + v * psi
      second := fun u v => u - v * psi }

/-- The first kernel of the inverse transform. -/
def inverseFirstKernel (vectorSize elementSize : ℕ) (psis inner : ℕ → R) : Kernel R where
  source := some inner
  workItem id :=
    let i := id / (vectorSize / 2)
    let tid := id % (vectorSize / 2)
    let length := vectorSize / 2
    let step := 1
    let targetIdx := 2 * tid
    let stepGroup := length + tid
    let psi := psis stepGroup
    { index := targetIdx + i * vectorSize
      indexStep := targetIdx + step + i * vectorSize
      writeIndex := i + targetIdx * elementSize
      writeIndexStep := i + (targetIdx + step) * elementSize
      first := fun u v => u + v
      second := fun u v => (u - v) * psi }

/-- `inner_transform` of the inverse transform -/
def inverseMiddleKernel (vectorSize elementSize iteration : ℕ) (psis : ℕ → R) : Kernel R where
  source := none
  workItem id :=
    let tid := id / elementSize
    let i := id % elementSize
    let length := vectorSize >>> (iteration + 1)
    let step := vectorSize / length / 2
    let psiStep := tid / step
    let targetIdx := psiStep * step * 2 + tid % step
    let stepGroup := length + psiStep
    let psi := psis stepGroup
    let index := i + targetIdx * elementSize
    let indexStep := i + (targetIdx + step) * elementSize
    { index := index
      indexStep := indexStep
      writeIndex := index
      writeIndexStep := indexStep
      first := fun u v => u + v
      second := fun u v => (u - v) * psi }

/-- The last kernel of the inverse transform; its roots have the normalization in them. -/
def inverseLastKernel (vectorSize elementSize : ℕ) (psis read : ℕ → R) : Kernel R where
  source := some read
  workItem id :=
    let tid := id / elementSize
    let i := id % elementSize
    let step := vectorSize / 2
    let psi := psis 1
    { index := i + tid * elementSize
      indexStep := i + (tid + step) * elementSize
      writeIndex := tid + i * vectorSize
      writeIndexStep := tid + step + i * vectorSize
      first := fun u v => (u + v) * psis 0
      second := fun u v => (u - v) * psi }

/-! The work items of the kernels, from what they load to what they store. -/

def forwardFirst (vectorSize elementSize : ℕ) (psis inner : ℕ → R) : ℕ → (ℕ → R) → ℕ → R :=
  (forwardFirstKernel vectorSize elementSize psis inner).item

def forwardMiddle (vectorSize elementSize iteration : ℕ) (psis : ℕ → R) :
    ℕ → (ℕ → R) → ℕ → R :=
  (forwardMiddleKernel vectorSize elementSize iteration psis).item

def forwardLast (vectorSize elementSize : ℕ) (psis read : ℕ → R) : ℕ → (ℕ → R) → ℕ → R :=
  (forwardLastKernel vectorSize elementSize psis read).item

def inverseFirst (vectorSize elementSize : ℕ) (psis inner : ℕ → R) : ℕ → (ℕ → R) → ℕ → R :=
  (inverseFirstKernel vectorSize elementSize psis inner).item

def inverseMiddle (vectorSize elementSize iteration : ℕ) (psis : ℕ → R) :
    ℕ → (ℕ → R) → ℕ → R :=
  (inverseMiddleKernel vectorSize elementSize iteration psis).item

def inverseLast (vectorSize elementSize : ℕ) (psis read : ℕ → R) : ℕ → (ℕ → R) → ℕ → R :=
  (inverseLastKernel vectorSize elementSize psis read).item

/-- A transform of `m` polynomials: its kernels one after the other, each with its work items in
the order that `schedule` says. -/
def transform (first : (ℕ → R) → ℕ → (ℕ → R) → ℕ → R)
    (middle : ℕ → ℕ → (ℕ → R) → ℕ → R) (last : (ℕ → R) → ℕ → (ℕ → R) → ℕ → R)
    (iterationCount : ℕ) (schedule : ℕ → List ℕ) (inner scratchBuffer tensor : ℕ → R) : ℕ → R :=
  let scratchBuffer := parallelFor (schedule 0) (first inner) scratchBuffer
  let scratchBuffer := (List.range' 1 (iterationCount - 2)).foldl
    (fun scratchBuffer iteration => parallelFor (schedule iteration) (middle iteration)
      scratchBuffer) scratchBuffer
  parallelFor (schedule (iterationCount - 1)) (last scratchBuffer) tensor

/-- Buffers that have not been written, and the orders of work items. -/
structure Launch (R : Type*) where
  roots : ℕ → R
  scratchBuffer : ℕ → R
  tensor : ℕ → R
  schedule : ℕ → List ℕ

/-- `number_theoretic_transform_expression::operator()` -/
def forward (iterationCount elementSize : ℕ) (root : R) (launch : Launch R) (inner : ℕ → R) :
    ℕ → R :=
  let vectorSize := 2 ^ iterationCount
  let psis := getRoots false iterationCount root 1 launch.roots
  transform (forwardFirst vectorSize elementSize psis)
    (fun iteration => forwardMiddle vectorSize elementSize iteration psis)
    (forwardLast vectorSize elementSize psis) iterationCount launch.schedule inner
    launch.scratchBuffer launch.tensor

/-- `inverse_number_theoretic_transform_expression::operator()` -/
def inverse (iterationCount elementSize : ℕ) (root normalization : R) (launch : Launch R)
    (inner : ℕ → R) : ℕ → R :=
  let vectorSize := 2 ^ iterationCount
  let psis := getRoots true iterationCount root normalization launch.roots
  transform (inverseFirst vectorSize elementSize psis)
    (fun iteration => inverseMiddle vectorSize elementSize iteration psis)
    (inverseLast vectorSize elementSize psis) iterationCount launch.schedule inner
    launch.scratchBuffer launch.tensor

/-- Every kernel runs each of its work items once. -/
def Launch.Runs (launch : Launch R) (vectorSize elementSize : ℕ) : Prop :=
  ∀ iteration, (launch.schedule iteration).Perm (List.range (vectorSize / 2 * elementSize))

end

/-! ## The roots -/

section

variable {L : ℕ}

theorem rootIndex_eq (htwo : 2 ≤ L) (hL : L < 32) {i : ℕ} (hi : i < 2 ^ L) :
    rootIndex L i = reverseBits L i := by
  have hlt : i < 2 ^ 32 := lt_of_lt_of_le hi (Nat.pow_le_pow_right two_pos (by omega))
  have hvalue : (BitVec.ofNat 32 i).toNat = i := by
    rw [BitVec.toNat_ofNat, Nat.mod_eq_of_lt hlt]
  unfold rootIndex
  rw [toNat_bitReverse htwo hL (by rwa [hvalue]), hvalue]

variable {R : Type*} [CommRing R]

/-- What `get_roots` stores at an index. -/
def entry (isInverse : Bool) (L : ℕ) (root normalization : R) (j : ℕ) : R :=
  root ^ reverseBits L j * if isInverse ∧ j < 2 then normalization else 1

/-- The powers up to `k` are stored. -/
structure Stored (isInverse : Bool) (L : ℕ) (root normalization : R) (k : ℕ)
    (state : R × (ℕ → R)) : Prop where
  power : state.1 = root ^ k
  roots : ∀ j < 2 ^ L, reverseBits L j ≤ k → state.2 j = entry isInverse L root normalization j

variable {isInverse : Bool} {root normalization : R}

theorem Stored.step (htwo : 2 ≤ L) (hL : L < 32) {k : ℕ} (hk : k + 1 < 2 ^ L)
    {state : R × (ℕ → R)} (h : Stored isInverse L root normalization k state) :
    Stored isInverse L root normalization (k + 1)
      (getRootsStep isInverse L root normalization state (k + 1)) := by
  have hindex := rootIndex_eq htwo hL hk
  have hpower : state.1 * root = root ^ (k + 1) := by rw [h.power, pow_succ]
  have hpos : reverseBits L (k + 1) ≠ 0 := mt (reverseBits_eq_zero_iff hk).mp (Nat.succ_ne_zero k)
  -- an index behind which no higher power stands is the one of this step, or it was there
  have hcases {j : ℕ} (hj : j < 2 ^ L) (hle : reverseBits L j ≤ k + 1) :
      j = reverseBits L (k + 1) ∨ (j ≠ reverseBits L (k + 1) ∧ reverseBits L j ≤ k) := by
    by_cases heq : j = reverseBits L (k + 1)
    · exact Or.inl heq
    · refine Or.inr ⟨heq, ?_⟩
      have hne : reverseBits L j ≠ k + 1 := by
        intro hrev
        rw [← hrev, reverseBits_self hj] at heq
        exact heq rfl
      omega
  unfold getRootsStep
  simp only [hindex, hpower]
  split_ifs with hfirst
  · refine ⟨rfl, ?_⟩
    intro j hj hle
    dsimp only
    rcases hcases hj hle with rfl | ⟨hne, hle⟩
    · rw [Function.update_self, entry, reverseBits_self hk, if_pos ⟨hfirst.1, by omega⟩]
    · rw [Function.update_of_ne hne]
      exact h.roots j hj hle
  · refine ⟨rfl, ?_⟩
    intro j hj hle
    dsimp only
    rcases hcases hj hle with rfl | ⟨hne, hle⟩
    · rw [Function.update_self, entry, reverseBits_self hk, if_neg, mul_one]
      rintro ⟨hinverse, hlt⟩
      exact hfirst ⟨hinverse, by omega⟩
    · rw [Function.update_of_ne hne]
      exact h.roots j hj hle

/-- The powers of the root stand in bit-reversed order. -/
theorem getRoots_eq (htwo : 2 ≤ L) (hL : L < 32) (uninitialized : ℕ → R) {j : ℕ}
    (hj : j < 2 ^ L) :
    getRoots isInverse L root normalization uninitialized j =
      entry isInverse L root normalization j := by
  have hfour : 2 ^ 2 ≤ 2 ^ L := Nat.pow_le_pow_right two_pos htwo
  have hone := rootIndex_eq htwo hL (i := 1) (by omega)
  have hhigh : 2 ≤ 2 ^ (L - 1) := by
    have hpow : 2 ^ 1 ≤ 2 ^ (L - 1) := Nat.pow_le_pow_right two_pos (by omega)
    omega
  -- the loop writes the powers one after another, each to its bit-reversed index
  have hstored (c : ℕ) (hc : c ≤ 2 ^ L - 2) : Stored isInverse L root normalization (c + 1)
      ((List.range' 2 c).foldl (getRootsStep isInverse L root normalization)
        (root, Function.update
          (Function.update uninitialized 0 (if isInverse then normalization else 1))
          (rootIndex L 1) root)) := by
    induction c with
    | zero =>
        refine ⟨(pow_one root).symm, ?_⟩
        intro j hj hle
        show Function.update (Function.update uninitialized 0 _) (rootIndex L 1) root j = _
        rw [hone, reverseBits_one (by omega)]
        -- before the loop only the first power and what stands at index zero are there
        by_cases hzero : reverseBits L j = 0
        · have hj := (reverseBits_eq_zero_iff hj).mp hzero
          subst hj
          rw [Function.update_of_ne (by omega), Function.update_self, entry, hzero]
          cases isInverse <;> simp
        · have hj : j = 2 ^ (L - 1) := by
            rw [← reverseBits_one (by omega), show 1 = reverseBits L j by omega,
              reverseBits_self hj]
          rw [hj, Function.update_self, entry, if_neg (by omega), mul_one,
            ← reverseBits_one (by omega), reverseBits_self (by omega), pow_one]
    | succ c ih =>
        rw [List.range'_1_concat, List.foldl_concat, Nat.add_comm 2 c]
        exact (ih (by omega)).step htwo hL (by omega)
  have hall := hstored (2 ^ L - 2) le_rfl
  refine hall.roots j hj ?_
  have hlt := reverseBits_lt L j
  omega

end

/-! ## The kernels -/

section

variable {R : Type*} [Add R] [Sub R] [Mul R] {L m : ℕ} {order : List ℕ} {psis : ℕ → R}

theorem two_pow_half (hL : 0 < L) : 2 ^ L / 2 = 2 ^ (L - 1) := by
  obtain ⟨l, rfl⟩ : ∃ l, L = l + 1 := ⟨L - 1, by omega⟩
  rw [pow_succ, Nat.mul_div_cancel _ two_pos, Nat.add_sub_cancel]

theorem two_pow_pairs (hL : 0 < L) : 2 ^ L = 2 * 1 * 2 ^ (L - 1) := by
  rw [← two_pow_half hL, Nat.mul_one, Nat.mul_div_cancel' (dvd_pow_self 2 (by omega))]

/-- The step of a stage, from the length of the forward transform. -/
theorem forward_step {t : ℕ} (ht : t < L) : 2 ^ L / 2 ^ t / 2 = 2 ^ (L - t - 1) := by
  rw [Nat.pow_div ht.le two_pos, two_pow_half (by omega)]

/-- The step of a stage, from the length of the inverse transform. -/
theorem inverse_step {s : ℕ} (hs : s < L) : 2 ^ L >>> (s + 1) = 2 ^ (L - s - 1) ∧
    2 ^ L / 2 ^ (L - s - 1) / 2 = 2 ^ s := by
  constructor
  · rw [Nat.shiftRight_eq_div_pow, Nat.pow_div hs two_pos, Nat.sub_sub]
  · rw [Nat.pow_div (by omega) two_pos, two_pow_half (by omega),
      show L - (L - s - 1) - 1 = s by omega]

theorem target_of_lt {s t : ℕ} (h : t < s) : target s t = t := by
  unfold target
  rw [Nat.div_eq_of_lt h, Nat.mod_eq_of_lt h, Nat.zero_mul, Nat.zero_mul, Nat.zero_add]

theorem target_one (t : ℕ) : target 1 t = 2 * t := by
  unfold target
  rw [Nat.div_one, Nat.mod_one]
  omega

variable (horder : order.Perm (List.range (2 ^ L / 2 * m)))
include horder

theorem forwardFirst_eq (hL : 0 < L) (inner write : ℕ → R) {p i : ℕ} (hp : p < 2 ^ L)
    (hi : i < m) :
    parallelFor order (forwardFirst (2 ^ L) m psis inner) write (i + p * m) =
      forwardStage (2 ^ (L - 1)) (fun b => psis (1 + b)) (fun p => inner (p + i * 2 ^ L)) p := by
  have hpos : 0 < 2 ^ (L - 1) := Nat.two_pow_pos _
  refine parallelFor_stage_from (f := fun b u v => u + v * psis (1 + b))
    (g := fun b u v => u - v * psis (1 + b)) (r := fun p i => inner (p + i * 2 ^ L)) hpos
    (two_pow_split hL) horder (splits_mod_div _ _) (layout_columns _ _) ?_ write hp hi
  funext id buffer
  have hlt : id % 2 ^ (L - 1) < 2 ^ (L - 1) := Nat.mod_lt _ hpos
  unfold forwardFirst forwardFirstKernel pair
  simp only [Kernel.item_from, two_pow_half hL, target_of_lt hlt, Nat.div_eq_of_lt hlt,
    Nat.add_zero]

theorem forwardMiddle_eq {t : ℕ} (ht : t < L) (readWrite : ℕ → R) {p i : ℕ} (hp : p < 2 ^ L)
    (hi : i < m) :
    parallelFor order (forwardMiddle (2 ^ L) m t psis) readWrite (i + p * m) =
      forwardStage (2 ^ (L - t - 1)) (fun b => psis (2 ^ t + b))
        (fun p => readWrite (i + p * m)) p := by
  refine parallelFor_stage (f := fun b u v => u + v * psis (2 ^ t + b))
    (g := fun b u v => u - v * psis (2 ^ t + b)) (Nat.two_pow_pos _) (two_pow_split ht) horder
    (splits_div_mod _ _) (layout_columns _ _) ?_ readWrite hp hi
  funext id buffer
  unfold forwardMiddle forwardMiddleKernel pair
  simp only [Kernel.item_inPlace, forward_step ht]
  rfl

theorem forwardLast_eq (hL : 0 < L) (read write : ℕ → R) {p i : ℕ} (hp : p < 2 ^ L)
    (hi : i < m) :
    parallelFor order (forwardLast (2 ^ L) m psis read) write (p + i * 2 ^ L) =
      forwardStage 1 (fun b => psis (2 ^ (L - 1) + b)) (fun p => read (i + p * m)) p := by
  refine parallelFor_stage_from (f := fun b u v => u + v * psis (2 ^ (L - 1) + b))
    (g := fun b u v => u - v * psis (2 ^ (L - 1) + b)) (r := fun p i => read (i + p * m)) one_pos
    (two_pow_pairs hL) horder (splits_div_mod _ _) (layout_rows _ _) ?_ write hp hi
  funext id buffer
  unfold forwardLast forwardLastKernel pair
  simp only [Kernel.item_from, two_pow_half hL, target_one, Nat.div_one]

theorem inverseFirst_eq (hL : 0 < L) (inner write : ℕ → R) {p i : ℕ} (hp : p < 2 ^ L)
    (hi : i < m) :
    parallelFor order (inverseFirst (2 ^ L) m psis inner) write (i + p * m) =
      inverseStage 1 (fun b => psis (2 ^ (L - 1) + b)) (fun p => inner (p + i * 2 ^ L)) p := by
  refine parallelFor_stage_from (f := fun _ u v => u + v)
    (g := fun b u v => (u - v) * psis (2 ^ (L - 1) + b)) (r := fun p i => inner (p + i * 2 ^ L))
    one_pos (two_pow_pairs hL) horder (splits_mod_div _ _) (layout_columns _ _) ?_ write hp hi
  funext id buffer
  unfold inverseFirst inverseFirstKernel pair
  simp only [Kernel.item_from, two_pow_half hL, target_one, Nat.div_one]

theorem inverseMiddle_eq {t : ℕ} (ht : t < L) (readWrite : ℕ → R) {p i : ℕ} (hp : p < 2 ^ L)
    (hi : i < m) :
    parallelFor order (inverseMiddle (2 ^ L) m t psis) readWrite (i + p * m) =
      inverseStage (2 ^ t) (fun b => psis (2 ^ (L - t - 1) + b))
        (fun p => readWrite (i + p * m)) p := by
  have hsplit : 2 ^ L = 2 * 2 ^ t * 2 ^ (L - t - 1) := by
    rw [two_pow_split ht]
    ring
  refine parallelFor_stage (f := fun _ u v => u + v)
    (g := fun b u v => (u - v) * psis (2 ^ (L - t - 1) + b)) (Nat.two_pow_pos _) hsplit horder
    (splits_div_mod _ _) (layout_columns _ _) ?_ readWrite hp hi
  funext id buffer
  unfold inverseMiddle inverseMiddleKernel pair
  simp only [Kernel.item_inPlace, (inverse_step ht).1, (inverse_step ht).2]
  rfl

theorem inverseLast_eq (hL : 0 < L) (read write : ℕ → R) {p i : ℕ} (hp : p < 2 ^ L)
    (hi : i < m) :
    parallelFor order (inverseLast (2 ^ L) m psis read) write (p + i * 2 ^ L) =
      if p % (2 * 2 ^ (L - 1)) < 2 ^ (L - 1) then
        (read (i + p * m) + read (i + (p + 2 ^ (L - 1)) * m)) * psis 0
      else (read (i + (p - 2 ^ (L - 1)) * m) - read (i + p * m)) * psis 1 := by
  have hpos : 0 < 2 ^ (L - 1) := Nat.two_pow_pos _
  refine Eq.trans ?_ (parallelFor_stage_from (f := fun _ u v => (u + v) * psis 0)
    (g := fun _ u v => (u - v) * psis 1) (r := fun p i => read (i + p * m)) hpos
    (two_pow_split hL) horder (splits_div_mod _ _) (layout_rows _ _) rfl write hp hi)
  refine congrFun (parallelFor_congr ?_ write) _
  intro id hid
  have hlt : id / m < 2 ^ (L - 1) := by
    rw [horder.mem_iff, List.mem_range, two_pow_half hL] at hid
    exact Nat.div_lt_of_lt_mul (by rwa [Nat.mul_comm] at hid)
  funext buffer
  unfold inverseLast inverseLastKernel pair
  simp only [Kernel.item_from, two_pow_half hL, target_of_lt hlt]

end

/-! ## The transforms -/

section

variable {R : Type*} {L m : ℕ}

/-- The scratch buffer holds element `p` of array `i`. -/
def Holds (L m : ℕ) (buffer : ℕ → R) (stage : ℕ → ℕ → R) : Prop :=
  ∀ i < m, ∀ p < 2 ^ L, buffer (i + p * m) = stage i p

/-- From what each kernel does to what the transform does. -/
theorem transform_eq {first last : (ℕ → R) → ℕ → (ℕ → R) → ℕ → R}
    {middle : ℕ → ℕ → (ℕ → R) → ℕ → R} {schedule : ℕ → List ℕ}
    {inner scratchBuffer tensor : ℕ → R} (stages : ℕ → ℕ → ℕ → R) (result : ℕ → ℕ → R)
    (hL : 2 ≤ L)
    (hfirst : Holds L m (parallelFor (schedule 0) (first inner) scratchBuffer) (stages 1))
    (hmiddle : ∀ t < L - 1, ∀ buffer, Holds L m buffer (stages t) →
      Holds L m (parallelFor (schedule t) (middle t) buffer) (stages (t + 1)))
    (hlast : ∀ buffer, Holds L m buffer (stages (L - 1)) → ∀ i < m, ∀ p < 2 ^ L,
      parallelFor (schedule (L - 1)) (last buffer) tensor (p + i * 2 ^ L) = result i p)
    {i p : ℕ} (hi : i < m) (hp : p < 2 ^ L) :
    transform first middle last L schedule inner scratchBuffer tensor (p + i * 2 ^ L) =
      result i p := by
  have hiterations (c : ℕ) (hc : c ≤ L - 2) : Holds L m ((List.range' 1 c).foldl
      (fun buffer iteration => parallelFor (schedule iteration) (middle iteration) buffer)
      (parallelFor (schedule 0) (first inner) scratchBuffer)) (stages (c + 1)) := by
    induction c with
    | zero => exact hfirst
    | succ c ih =>
        rw [List.range'_1_concat, List.foldl_concat, Nat.add_comm 1 c]
        exact hmiddle (c + 1) (by omega) _ (ih (by omega))
  have hall := hiterations (L - 2) le_rfl
  rw [show L - 2 + 1 = L - 1 by omega] at hall
  exact hlast _ hall i hi p hp

variable [CommRing R] {root normalization : R} {launch : Launch R}

/-- The powers of a root in bit-reversed order. -/
def powers (L : ℕ) (root : R) (j : ℕ) : R := root ^ reverseBits L j

/-- The transform of the array `i` is all forward stages. -/
theorem forward_eq (htwo : 2 ≤ L) (hL : L < 32) (hruns : launch.Runs (2 ^ L) m) (inner : ℕ → R)
    {i p : ℕ} (hi : i < m) (hp : p < 2 ^ L) :
    forward L m root launch inner (p + i * 2 ^ L) =
      forwardStages L (powers L root) (fun p => inner (p + i * 2 ^ L)) L p := by
  have hroots (j : ℕ) (hj : j < 2 ^ L) :
      getRoots false L root 1 launch.roots j = powers L root j := by
    rw [getRoots_eq htwo hL launch.roots hj, entry, if_neg (by simp), mul_one, powers]
  have hstage {t : ℕ} (ht : t < L) {d d' : ℕ → R} (hd : ∀ p < 2 ^ L, d p = d' p) {p : ℕ}
      (hp : p < 2 ^ L) :
      forwardStage (2 ^ (L - t - 1)) (fun b => getRoots false L root 1 launch.roots (2 ^ t + b))
        d p = forwardStage (2 ^ (L - t - 1)) (fun b => powers L root (2 ^ t + b)) d' p :=
    forwardStage_congr (two_pow_split ht) hd (hroots _ (factor_lt ht hp).2) hp
  -- one stage for each kernel: the first, the middle ones, and the last
  refine transform_eq
    (fun t i => forwardStages L (powers L root) (fun p => inner (p + i * 2 ^ L)) t)
    (fun i p => forwardStages L (powers L root) (fun p => inner (p + i * 2 ^ L)) L p)
    htwo ?_ ?_ ?_ hi hp
  · intro i hi p hp
    rw [forwardFirst_eq (hruns 0) (by omega) inner _ hp hi]
    exact hstage (t := 0) (by omega) (fun _ _ => rfl) hp
  · intro t ht buffer hbuffer i hi p hp
    rw [forwardMiddle_eq (hruns t) (by omega) buffer hp hi]
    exact hstage (by omega) (hbuffer i hi) hp
  · intro buffer hbuffer i hi p hp
    rw [forwardLast_eq (hruns (L - 1)) (by omega) buffer _ hp hi]
    have hlast := hstage (show L - 1 < L by omega) (hbuffer i hi) hp
    rw [show L - (L - 1) - 1 = 0 by omega, pow_zero] at hlast
    obtain ⟨l, rfl⟩ : ∃ l, L = l + 1 := ⟨L - 1, by omega⟩
    rw [hlast, forwardStages, show l + 1 - l - 1 = 0 by omega, pow_zero]
    rfl

/-- The inverse transform of the array `i` is all inverse stages and the normalization. -/
theorem inverse_eq (htwo : 2 ≤ L) (hL : L < 32) (hruns : launch.Runs (2 ^ L) m) (inner : ℕ → R)
    {i p : ℕ} (hi : i < m) (hp : p < 2 ^ L) :
    inverse L m root normalization launch inner (p + i * 2 ^ L) =
      normalization * inverseStages L (powers L root) (fun p => inner (p + i * 2 ^ L)) L p := by
  -- the normalization is in the first two entries, which only the last kernel reads
  have hentry (j : ℕ) (hj : j < 2 ^ L) : getRoots true L root normalization launch.roots j =
      powers L root j * if j < 2 then normalization else 1 := by
    rw [getRoots_eq htwo hL launch.roots hj, entry, powers]
    simp only [true_and]
  have hstage {t : ℕ} (ht : t < L - 1) {d d' : ℕ → R} (hd : ∀ p < 2 ^ L, d p = d' p) {p : ℕ}
      (hp : p < 2 ^ L) :
      inverseStage (2 ^ t)
        (fun b => getRoots true L root normalization launch.roots (2 ^ (L - t - 1) + b)) d p =
      inverseStage (2 ^ t) (fun b => powers L root (2 ^ (L - t - 1) + b)) d' p := by
    have hlt : L - t - 1 < L := by omega
    have hsplit := two_pow_split hlt
    have hfactor := factor_lt hlt hp
    rw [show L - (L - t - 1) - 1 = t by omega] at hsplit hfactor
    have hlength : 2 ^ 1 ≤ 2 ^ (L - t - 1) := Nat.pow_le_pow_right two_pos (by omega)
    have hlarge : ¬ 2 ^ (L - t - 1) + p / (2 * 2 ^ t) < 2 :=
      Nat.not_lt.mpr (hlength.trans (Nat.le_add_right _ _))
    exact inverseStage_congr hsplit hd (by rw [hentry _ hfactor.2, if_neg hlarge, mul_one]) hp
  refine transform_eq
    (fun t i => inverseStages L (powers L root) (fun p => inner (p + i * 2 ^ L)) t)
    (fun i p => normalization *
      inverseStages L (powers L root) (fun p => inner (p + i * 2 ^ L)) L p) htwo ?_ ?_ ?_ hi hp
  · intro i hi p hp
    rw [inverseFirst_eq (hruns 0) (by omega) inner _ hp hi]
    exact hstage (t := 0) (by omega) (fun _ _ => rfl) hp
  · intro t ht buffer hbuffer i hi p hp
    rw [inverseMiddle_eq (hruns t) (by omega) buffer hp hi]
    exact hstage ht (hbuffer i hi) hp
  · intro buffer hbuffer i hi p hp
    obtain ⟨l, rfl⟩ : ∃ l, L = l + 1 := ⟨L - 1, by omega⟩
    rw [Nat.add_sub_cancel] at hbuffer ⊢
    have hsplit : 2 ^ (l + 1) = 2 * 2 ^ l := pow_succ' 2 l
    rw [inverseLast_eq (hruns l) (by omega) buffer _ hp hi, hentry 0 (Nat.two_pow_pos _),
      hentry 1 (Nat.one_lt_two_pow (by omega)), inverseStages, inverseStage, Nat.add_sub_cancel]
    simp only [show l + 1 - l - 1 = 0 by omega, pow_zero, if_pos (show (0 : ℕ) < 2 by omega),
      if_pos (show (1 : ℕ) < 2 by omega)]
    have hone : (1 : ℕ) + p / (2 * 2 ^ l) = 1 := by
      rw [← hsplit, Nat.div_eq_of_lt hp]
    -- both halves of the last butterflies are normalized
    split_ifs with hlow
    · rw [hbuffer i hi p hp, hbuffer i hi _ (low_half_lt (c := 1) (by omega) hlow hp)]
      simp only [powers, reverseBits_zero, pow_zero]
      ring
    · rw [hbuffer i hi p hp, hbuffer i hi (p - 2 ^ l) (by omega), hone]
      ring

/-- A slot of the transform is the value of the polynomial at an odd power of the root. -/
theorem forward_values (htwo : 2 ≤ L) (hL : L < 32) (hroot : root ^ 2 ^ L = -1)
    (hruns : launch.Runs (2 ^ L) m) (x : ℕ → R) {i k : ℕ} (hi : i < m) (hk : k < 2 ^ L) :
    forward L m root launch x (k + i * 2 ^ L) =
      ∑ j ∈ Finset.range (2 ^ L),
        x (j + i * 2 ^ L) * root ^ (j * (2 * reverseBits L k + 1)) := by
  rw [forward_eq htwo hL hruns x hi hk]
  exact forwardStages_values hroot (fun _ _ => rfl) _ hk

theorem powers_mul_powers {inverted : R} (hinverted : root * inverted = 1) (j : ℕ) :
    powers L root j * powers L inverted j = 1 := by
  unfold powers
  rw [← mul_pow, hinverted, one_pow]

/-- The inverse transform undoes the transform, -/
theorem inverse_forward (htwo : 2 ≤ L) (hL : L < 32) {inverted : R}
    (hinverted : root * inverted = 1) (hnormalization : normalization * 2 ^ L = 1)
    {launch' : Launch R} (hruns : launch.Runs (2 ^ L) m) (hruns' : launch'.Runs (2 ^ L) m)
    (x : ℕ → R) {i p : ℕ} (hi : i < m) (hp : p < 2 ^ L) :
    inverse L m inverted normalization launch' (forward L m root launch x) (p + i * 2 ^ L) =
      x (p + i * 2 ^ L) := by
  have hinner (p : ℕ) (hp : p < 2 ^ L) := @forward_eq _ _ _ _ root _ htwo hL hruns x _ _ hi hp
  rw [inverse_eq htwo hL hruns' _ hi hp, inverseStages_congr (fun _ _ => rfl) hinner le_rfl hp,
    inverseStages_forwardStages (powers_mul_powers hinverted) _ le_rfl, Nat.sub_self,
    forwardStages, ← mul_assoc, hnormalization, one_mul]

/-- and the other way round. -/
theorem forward_inverse (htwo : 2 ≤ L) (hL : L < 32) {inverted : R}
    (hinverted : root * inverted = 1) (hnormalization : normalization * 2 ^ L = 1)
    {launch' : Launch R} (hruns : launch.Runs (2 ^ L) m) (hruns' : launch'.Runs (2 ^ L) m)
    (y : ℕ → R) {i p : ℕ} (hi : i < m) (hp : p < 2 ^ L) :
    forward L m root launch (inverse L m inverted normalization launch' y) (p + i * 2 ^ L) =
      y (p + i * 2 ^ L) := by
  have hinner (p : ℕ) (hp : p < 2 ^ L) := @inverse_eq _ _ _ _ inverted
    normalization _ htwo hL hruns' y _ _ hi hp
  rw [forward_eq htwo hL hruns _ hi hp, forwardStages_congr (fun _ _ => rfl) hinner le_rfl hp,
    forwardStages_inverseStages (powers_mul_powers hinverted) _ _ le_rfl, Nat.sub_self,
    inverseStages, mul_comm (2 ^ L), hnormalization, one_mul]

end

/-! ## Products of polynomials -/

section

open Polynomial

variable {R : Type*} [CommRing R] {L m : ℕ} {root : R} {launch : Launch R}

/-- The polynomial with the coefficients of array `i`. -/
noncomputable def polynomial (L : ℕ) (x : ℕ → R) (i : ℕ) : R[X] :=
  ∑ j ∈ Finset.range (2 ^ L), monomial j (x (j + i * 2 ^ L))

theorem coeff_polynomial {x : ℕ → R} {i j : ℕ} (hj : j < 2 ^ L) :
    (polynomial L x i).coeff j = x (j + i * 2 ^ L) := by
  simp [polynomial, coeff_monomial, hj]

theorem eval_polynomial (x : ℕ → R) (i : ℕ) (z : R) :
    (polynomial L x i).eval z = ∑ j ∈ Finset.range (2 ^ L), x (j + i * 2 ^ L) * z ^ j := by
  simp [polynomial, eval_finsetSum, eval_monomial]

/-- A polynomial of small degree is that of its coefficients. -/
theorem polynomial_coeff {f : R[X]} {x : ℕ → R} {i : ℕ} (hf : f.degree < (2 ^ L : ℕ))
    (hx : ∀ j < 2 ^ L, x (j + i * 2 ^ L) = f.coeff j) : polynomial L x i = f := by
  ext j
  by_cases hj : j < 2 ^ L
  · rw [coeff_polynomial hj, hx j hj]
  · have hzero : f.coeff j = 0 :=
      coeff_eq_zero_of_degree_lt (lt_of_lt_of_le hf (Nat.cast_le.mpr (Nat.not_lt.mp hj)))
    rw [hzero]
    simp [polynomial, coeff_monomial, hj]

/-- A slot as a value. -/
theorem forward_eval (htwo : 2 ≤ L) (hL : L < 32) (hroot : root ^ 2 ^ L = -1)
    (hruns : launch.Runs (2 ^ L) m) (x : ℕ → R) {i k : ℕ} (hi : i < m) (hk : k < 2 ^ L) :
    forward L m root launch x (k + i * 2 ^ L) =
      (polynomial L x i).eval (root ^ (2 * reverseBits L k + 1)) := by
  rw [forward_values htwo hL hroot hruns x hi hk, eval_polynomial]
  refine Finset.sum_congr rfl fun j _ => ?_
  rw [← pow_mul, Nat.mul_comm j]

/-- The odd powers of the root are roots of `X ^ n + 1`. -/
theorem eval_root (hroot : root ^ 2 ^ L = -1) (r : ℕ) :
    (X ^ 2 ^ L + 1 : R[X]).eval (root ^ (2 * r + 1)) = 0 := by
  rw [eval_add, eval_pow, eval_X, eval_one, ← pow_mul, Nat.mul_comm, pow_mul, hroot,
    Odd.neg_one_pow ⟨r, rfl⟩, neg_add_cancel]

/-- The slotwise product is the transform of the product. -/
theorem forward_product (htwo : 2 ≤ L) (hL : L < 32) (hroot : root ^ 2 ^ L = -1)
    {launches : Fin 3 → Launch R} (hruns : ∀ l, (launches l).Runs (2 ^ L) m) {x y z : ℕ → R}
    (hz : ∀ i < m, ∀ j < 2 ^ L,
      z (j + i * 2 ^ L) = ((polynomial L x i * polynomial L y i) %ₘ (X ^ 2 ^ L + 1)).coeff j)
    {i k : ℕ} (hi : i < m) (hk : k < 2 ^ L) :
    forward L m root (launches 0) x (k + i * 2 ^ L) *
        forward L m root (launches 1) y (k + i * 2 ^ L) =
      forward L m root (launches 2) z (k + i * 2 ^ L) := by
  rcases subsingleton_or_nontrivial R with h | h
  · exact Subsingleton.elim _ _
  have hpos : 0 < 2 ^ L := Nat.two_pow_pos L
  have hmonic : (X ^ 2 ^ L + 1 : R[X]).Monic := monic_X_pow_add_C 1 hpos.ne'
  have hdegree := degree_modByMonic_lt (polynomial L x i * polynomial L y i) hmonic
  rw [show (X ^ 2 ^ L + 1 : R[X]).degree = (2 ^ L : ℕ) from degree_X_pow_add_C hpos 1] at hdegree
  have hremainder (r : ℕ) :
      ((polynomial L x i * polynomial L y i) %ₘ (X ^ 2 ^ L + 1)).eval (root ^ (2 * r + 1)) =
        (polynomial L x i * polynomial L y i).eval (root ^ (2 * r + 1)) :=
    eval₂_modByMonic_eq_self_of_root (f := RingHom.id R) (eval_root hroot r)
  rw [forward_eval htwo hL hroot (hruns 0) x hi hk, forward_eval htwo hL hroot (hruns 1) y hi hk,
    forward_eval htwo hL hroot (hruns 2) z hi hk, polynomial_coeff hdegree (hz i hi), hremainder,
    eval_mul]

end

end Hmpc.Expr.NumberTheoreticTransform
