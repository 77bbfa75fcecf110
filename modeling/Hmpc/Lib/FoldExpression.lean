/-
# Hmpc.Lib.FoldExpression -- folds and loops over a pack

A fold expression over an empty pack has no value, so there is no neutral element to start with.
Where the elements stand for those of a commutative monoid, and the operator for its addition, the
fold stands for the sum. A loop has a result if all of its steps have one.
-/
import Mathlib.Algebra.BigOperators.Group.List.Basic

namespace Hmpc.Lib

variable {α β R : Type*}

/-- `(pack op ...)` -/
def foldRight (op : α → α → α) : List α → Option α
  | [] => none
  | [a] => some a
  | a :: l => (foldRight op l).map (op a)

theorem foldRight_cons (op : α → α → α) (a : α) {l : List α} (h : l ≠ []) :
    foldRight op (a :: l) = (foldRight op l).map (op a) := by
  cases l with
  | nil => exact absurd rfl h
  | cons b l => rfl

/-- The fold of an operator that stands for an addition. -/
theorem foldRight_sum [AddCommMonoid R] {op : α → α → α} {value : α → R}
    (hop : ∀ a b, value (op a b) = value a + value b) {l : List α} (h : l ≠ []) :
    (foldRight op l).map value = some (l.map value).sum := by
  induction l with
  | nil => exact absurd rfl h
  | cons a l ih =>
      by_cases hl : l = []
      · rw [hl, List.map_singleton, List.sum_singleton]
        rfl
      · have hcomp : value ∘ op a = (value a + ·) ∘ value := funext (hop a)
        rw [foldRight_cons op a hl, Option.map_map, hcomp, ← Option.map_map, ih hl, Option.map_some,
          List.map_cons, List.sum_cons]

/-- A loop whose steps all have results. -/
theorem mapM_some {f : α → Option β} {g : α → β} {l : List α} (h : ∀ a ∈ l, f a = some (g a)) :
    l.mapM f = some (l.map g) := by
  induction l with
  | nil => rfl
  | cons a l ih =>
      rw [List.mapM_cons, h a List.mem_cons_self, ih fun a ha => h a (List.mem_cons_of_mem _ ha)]
      rfl

/-- A loop over all indices visits all elements in order. -/
theorem mapM_range_getElem? (l : List α) (f : ℕ → α → β) :
    (List.range l.length).mapM (fun i => (l[i]?).map (f i)) = some (l.mapIdx f) := by
  induction l generalizing f with
  | nil => rfl
  | cons a l ih =>
      rw [List.length_cons, List.range_succ_eq_map, List.mapM_cons, List.mapM_map, List.mapIdx_cons]
      have htail := ih fun i => f (i + 1)
      show Option.bind (some (f 0 a)) _ = _
      rw [Option.bind_some]
      show Option.bind ((List.range l.length).mapM fun i => (l[i]?).map (f (i + 1))) _ = _
      rw [htail]
      rfl

theorem mapM_range_getElem?_map (l : List α) (f : α → β) :
    (List.range l.length).mapM (fun i => (l[i]?).map f) = some (l.map f) := by
  rw [mapM_range_getElem? l fun _ => f]
  exact congrArg some (List.mapIdx_eq_iff.mpr fun i => List.getElem?_map)

theorem map_range_getElem? (l : List α) (g : Option α → β) :
    (List.range l.length).map (fun j => g l[j]?) = l.map fun a => g (some a) := by
  apply List.ext_getElem?
  intro j
  rw [List.getElem?_map, List.getElem?_map]
  by_cases hj : j < l.length
  · rw [List.getElem?_range hj, List.getElem?_eq_getElem hj]
    simp [hj]
  · rw [List.getElem?_eq_none (Nat.le_of_not_lt hj),
      List.getElem?_eq_none (by rw [List.length_range]; exact Nat.le_of_not_lt hj)]
    rfl

end Hmpc.Lib
