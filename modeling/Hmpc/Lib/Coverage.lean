/-
# Hmpc.Lib.Coverage -- lists that have every number equally often

A loop covers the numbers below a bound `m` times when each of them occurs `m` times in what it
visits, and nothing else does. If every number below the bound leads to some numbers below another
one, and all of them together cover those `r` times, then the loop leads to `m * r` of each:
`Covers.flatMap`.
-/
import Mathlib.Algebra.BigOperators.Group.Finset.Sigma
import Mathlib.Algebra.BigOperators.Ring.Finset
import Mathlib.Tactic.Ring
import Hmpc.Lib.Loops

namespace Hmpc.Lib

open Loops

/-- Each number below `n` occurs `m` times, and no other number does. -/
def Covers (n m : ℕ) (l : List ℕ) : Prop := ∀ j, l.count j = if j < n then m else 0

namespace Covers

variable {n m k r : ℕ} {l : List ℕ}

theorem range (n : ℕ) : Covers n 1 (List.range n) := by
  intro j
  split
  · rename_i hj
    exact List.count_eq_one_of_mem List.nodup_range (List.mem_range.mpr hj)
  · rename_i hj
    exact List.count_eq_zero.mpr fun hmem => hj (List.mem_range.mp hmem)

theorem mem_lt (h : Covers n m l) {j : ℕ} (hj : j ∈ l) : j < n := by
  by_contra hnot
  have hcount := h j
  rw [if_neg hnot] at hcount
  exact List.count_eq_zero.mp hcount hj

/-- A sum over what is visited is `m` times the sum over the numbers. -/
theorem sum_map (h : Covers n m l) (f : ℕ → ℕ) :
    (l.map f).sum = m * ∑ j ∈ Finset.range n, f j := by
  have hsubset : l.toFinset ⊆ Finset.range n := by
    intro j hj
    exact Finset.mem_range.mpr (h.mem_lt (List.mem_toFinset.mp hj))
  have hrest : ∀ j ∈ Finset.range n, j ∉ l.toFinset → l.count j • f j = 0 := by
    intro j _ hj
    rw [List.count_eq_zero.mpr fun hmem => hj (List.mem_toFinset.mpr hmem),
      Nat.nsmul_eq_mul, Nat.zero_mul]
  rw [Finset.sum_list_map_count, Finset.sum_subset hsubset hrest, Finset.mul_sum]
  apply Finset.sum_congr rfl
  intro j hj
  rw [h j, if_pos (Finset.mem_range.mp hj), Nat.nsmul_eq_mul]

theorem flatMap (h : Covers n m l) {f : ℕ → List ℕ} (hf : Covers k r ((List.range n).flatMap f)) :
    Covers k (m * r) (l.flatMap f) := by
  intro j
  have hone := hf j
  rw [List.count_flatMap, (Covers.range n).sum_map, Nat.one_mul] at hone
  rw [List.count_flatMap, h.sum_map, hone]
  split
  · rfl
  · rw [Nat.mul_zero]

theorem map (h : Covers n m l) {f : ℕ → ℕ} (hf : Covers k r ((List.range n).map f)) :
    Covers k (m * r) (l.map f) := by
  rw [List.map_eq_flatMap] at hf ⊢
  exact h.flatMap hf

/-- Nothing occurs twice exactly if there is nothing, or nothing is covered twice. -/
theorem count_le_one_iff (h : Covers n m l) : (∀ j, l.count j ≤ 1) ↔ n = 0 ∨ m ≤ 1 := by
  constructor
  · intro hle
    rcases Nat.eq_zero_or_pos n with hzero | hpos
    · exact Or.inl hzero
    · have hfirst := hle 0
      rw [h 0, if_pos hpos] at hfirst
      exact Or.inr hfirst
  · intro hcond j
    rw [h j]
    split <;> omega

end Covers

/-! ## Loops in loops -/

variable {n m k r : ℕ} {l : List ℕ}

/-- A loop over something that does not matter. -/
theorem covers_repeat (h : Covers k r l) (n : ℕ) :
    Covers k (n * r) ((List.range n).flatMap fun _ => l) := by
  intro j
  rw [List.count_flatMap, (Covers.range n).sum_map, Nat.one_mul]
  simp only [Function.comp_apply, Finset.sum_const, Finset.card_range, Nat.nsmul_eq_mul, h j]
  split
  · rfl
  · rw [Nat.mul_zero]

theorem count_map_add (l : List ℕ) (c j : ℕ) :
    (l.map (c + ·)).count j = if c ≤ j then l.count (j - c) else 0 := by
  split
  · rename_i hle
    have hj : j = c + (j - c) := by omega
    conv_lhs => rw [hj]
    exact List.count_map_of_injective l (c + ·) (add_right_injective c) (j - c)
  · rename_i hlt
    apply List.count_eq_zero.mpr
    rw [List.mem_map]
    rintro ⟨i, _, hi⟩
    omega

/-- A loop whose iterations lead to one block after the other. -/
theorem covers_blocks (h : Covers k r l) (n : ℕ) :
    Covers (n * k) r ((List.range n).flatMap fun b => l.map (b * k + ·)) := by
  induction n with
  | zero =>
      intro j
      simp
  | succ n ih =>
      intro j
      rw [List.range_succ, List.flatMap_append, List.count_append, ih j, List.flatMap_singleton,
        count_map_add, Nat.add_one_mul, h]
      split_ifs <;> omega

/-- Two loops may change places. -/
theorem count_swap (n m : ℕ) (f : ℕ → ℕ → ℕ) (j : ℕ) :
    ((List.range n).flatMap fun a => (List.range m).map fun b => f a b).count j =
      ((List.range m).flatMap fun b => (List.range n).map fun a => f a b).count j := by
  have hone (m : ℕ) (f : ℕ → ℕ) :
      ((List.range m).map f).count j = ∑ b ∈ Finset.range m, [f b].count j := by
    rw [List.map_eq_flatMap, List.count_flatMap, (Covers.range m).sum_map, Nat.one_mul]
    rfl
  rw [List.count_flatMap, List.count_flatMap, (Covers.range n).sum_map,
    (Covers.range m).sum_map, Nat.one_mul, Nat.one_mul]
  simp only [Function.comp_apply, hone]
  exact Finset.sum_comm

/-- Numbers of two digits, the second one in the inner loop. -/
theorem covers_rows (n m : ℕ) :
    Covers (n * m) 1 ((List.range n).flatMap fun a => (List.range m).map fun b => a * m + b) := by
  simp only [List.map_eq_flatMap]
  rw [flatMap_range_mul n m fun e => [e], List.flatMap_singleton']
  exact Covers.range _

/-- Numbers of two digits, the first one in the inner loop. -/
theorem covers_columns (n m : ℕ) :
    Covers (n * m) 1 ((List.range m).flatMap fun b => (List.range n).map fun a => a * m + b) := by
  intro j
  rw [count_swap]
  exact covers_rows n m j

/-- A digit that is put in between two parts of a number goes through all numbers. -/
theorem covers_insert (a k b : ℕ) :
    Covers (a * k * b) 1 ((List.range (a * b)).flatMap fun j =>
      (List.range k).map fun d => (j / b * k + d) * b + j % b) := by
  have hblocks := covers_blocks (covers_columns k b) a
  rw [← Nat.mul_assoc] at hblocks
  have hloop : (List.range (a * b)).flatMap (fun j =>
      (List.range k).map fun d => (j / b * k + d) * b + j % b) =
      (List.range a).flatMap fun x => ((List.range b).flatMap fun y =>
        (List.range k).map fun d => d * b + y).map (x * (k * b) + ·) := by
    rw [← flatMap_range_mul a b]
    apply List.flatMap_congr
    intro x _
    rw [List.map_flatMap]
    apply List.flatMap_congr
    intro y hy
    have hy := List.mem_range.mp hy
    have hdiv : (x * b + y) / b = x := by
      rw [Nat.mul_comm, Nat.mul_add_div (by omega), Nat.div_eq_of_lt hy, Nat.add_zero]
    have hmod : (x * b + y) % b = y := by
      rw [Nat.mul_comm, Nat.mul_add_mod, Nat.mod_eq_of_lt hy]
    rw [List.map_map, hdiv, hmod]
    apply List.map_congr_left
    intro d _
    simp only [Function.comp_apply]
    ring
  rwa [hloop]

end Hmpc.Lib
