/-
# Hmpc.Lib.Parallel -- kernels whose work items do not interfere

A kernel runs its work items in some order. Where each item reads and writes two places of a buffer
that no other item has to do with, the order does not matter: `parallelFor_pairs` gives the buffer
afterwards by the buffer before. Where the items only write, each to places of its own, the buffer
holds what was written: `store_of_mem`.
-/
import Mathlib.Data.List.Nodup

namespace Hmpc.Lib

variable {α : Type*}

/-- The work items of a kernel, in the order in which they happen to run. -/
def parallelFor (order : List ℕ) (item : ℕ → (ℕ → α) → ℕ → α) (buffer : ℕ → α) : ℕ → α :=
  order.foldl (fun buffer id => item id buffer) buffer

theorem parallelFor_congr {order : List ℕ} {item item' : ℕ → (ℕ → α) → ℕ → α}
    (h : ∀ id ∈ order, item id = item' id) (buffer : ℕ → α) :
    parallelFor order item buffer = parallelFor order item' buffer := by
  unfold parallelFor
  apply List.foldl_ext
  intro buffer id hid
  rw [h id hid]

/-- A work item that rewrites the places `a id` and `b id`. -/
def pair (a b : ℕ → ℕ) (f g : ℕ → α → α → α) (id : ℕ) (buffer : ℕ → α) : ℕ → α :=
  let u := buffer (a id)
  let v := buffer (b id)
  Function.update (Function.update buffer (a id) (f id u v)) (b id) (g id u v)

variable {a b : ℕ → ℕ} {f g : ℕ → α → α → α} {order : List ℕ}

theorem pair_of_ne {id p : ℕ} (ha : p ≠ a id) (hb : p ≠ b id) (buffer : ℕ → α) :
    pair a b f g id buffer p = buffer p := by
  unfold pair
  rw [Function.update_of_ne hb, Function.update_of_ne ha]

/-- Places that no item has to do with are left alone. -/
theorem parallelFor_of_ne {p : ℕ} (hp : ∀ id ∈ order, p ≠ a id ∧ p ≠ b id) (buffer : ℕ → α) :
    parallelFor order (pair a b f g) buffer p = buffer p := by
  induction order generalizing buffer with
  | nil => rfl
  | cons id order ih =>
      obtain ⟨ha, hb⟩ := hp id List.mem_cons_self
      have hrest := ih (fun id' hid => hp id' (List.mem_cons_of_mem _ hid)) (pair a b f g id buffer)
      exact hrest.trans (pair_of_ne ha hb buffer)

/-- Each item finds in its two places what was there at the beginning. -/
theorem parallelFor_pairs (hnodup : order.Nodup) (ha : ∀ i ∈ order, ∀ j ∈ order, a i = a j → i = j)
    (hb : ∀ i ∈ order, ∀ j ∈ order, b i = b j → i = j)
    (hab : ∀ i ∈ order, ∀ j ∈ order, a i ≠ b j) (buffer : ℕ → α) :
    ∀ id ∈ order,
      parallelFor order (pair a b f g) buffer (a id) = f id (buffer (a id)) (buffer (b id)) ∧
      parallelFor order (pair a b f g) buffer (b id) = g id (buffer (a id)) (buffer (b id)) := by
  induction order generalizing buffer with
  | nil =>
      intro id hid
      cases hid
  | cons first order ih =>
      obtain ⟨hnot, hnodup⟩ := List.nodup_cons.mp hnodup
      intro id hid
      have hfirst := List.mem_cons_self (a := first) (l := order)
      have htail {i : ℕ} (hi : i ∈ order) : i ∈ first :: order := List.mem_cons_of_mem _ hi
      rcases List.mem_cons.mp hid with rfl | hmem
      · -- the items behind it leave its places alone
        have haid (i : ℕ) (hi : i ∈ order) : a id ≠ a i ∧ a id ≠ b i :=
          ⟨fun h => hnot (ha id hfirst i (htail hi) h ▸ hi), hab id hfirst i (htail hi)⟩
        have hbid (i : ℕ) (hi : i ∈ order) : b id ≠ a i ∧ b id ≠ b i :=
          ⟨fun h => hab i (htail hi) id hfirst h.symm,
            fun h => hnot (hb id hfirst i (htail hi) h ▸ hi)⟩
        have hne : a id ≠ b id := hab id hfirst id hfirst
        constructor
        · refine (parallelFor_of_ne haid _).trans ?_
          show pair a b f g id buffer (a id) = _
          unfold pair
          rw [Function.update_of_ne hne, Function.update_self]
        · refine (parallelFor_of_ne hbid _).trans ?_
          show pair a b f g id buffer (b id) = _
          unfold pair
          rw [Function.update_self]
      · have hih := ih hnodup (fun i hi j hj => ha i (htail hi) j (htail hj))
          (fun i hi j hj => hb i (htail hi) j (htail hj))
          (fun i hi j hj => hab i (htail hi) j (htail hj)) (pair a b f g first buffer) id hmem
        have hneid : id ≠ first := fun h => hnot (h ▸ hmem)
        rw [pair_of_ne (fun h => hneid (ha id (htail hmem) first hfirst h))
            (hab id (htail hmem) first hfirst),
          pair_of_ne (fun h => hab first hfirst id (htail hmem) h.symm)
            (fun h => hneid (hb id (htail hmem) first hfirst h))] at hih
        exact hih

/-! ## Writes -/

/-- The buffer after some writes. -/
def store (writes : List (ℕ × α)) (buffer : ℕ → α) : ℕ → α :=
  writes.foldl (fun buffer write => Function.update buffer write.1 write.2) buffer

theorem store_of_notMem {writes : List (ℕ × α)} {p : ℕ} (hp : p ∉ writes.map Prod.fst)
    (buffer : ℕ → α) : store writes buffer p = buffer p := by
  induction writes generalizing buffer with
  | nil => rfl
  | cons first writes ih =>
      rw [List.map_cons, List.mem_cons, not_or] at hp
      have hrest := ih hp.2 (Function.update buffer first.1 first.2)
      exact hrest.trans (Function.update_of_ne hp.1 _ _)

/-- Writes to different places leave what they write, in whatever order they happen. -/
theorem store_of_mem {writes : List (ℕ × α)} (hnodup : (writes.map Prod.fst).Nodup) {p : ℕ} {v : α}
    (h : (p, v) ∈ writes) (buffer : ℕ → α) : store writes buffer p = v := by
  induction writes generalizing buffer with
  | nil => cases h
  | cons first writes ih =>
      obtain ⟨hnot, hnodup⟩ := List.nodup_cons.mp hnodup
      rcases List.mem_cons.mp h with rfl | h
      · exact (store_of_notMem hnot _).trans (Function.update_self _ _ _)
      · exact ih hnodup h _

end Hmpc.Lib
