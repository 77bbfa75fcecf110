/-
# Hmpc.Index -- indices with a coordinate for each dimension, and linear ones

An index made from a linear one has no coordinate in the placeholder dimensions of its shape
(`mask`), and a shape that it is used with skips its own placeholder dimensions (`project`). So
an index of a shape can be used with every shape that the shape extends: `toLinearIndex_mask`.
-/
import Hmpc.Shape

namespace Hmpc

open Hmpc.Lib.MixedRadix

/-- `index`: a coordinate, or none for a placeholder. -/
abbrev Index := List (Option ℕ)

/-- The loop of `to_linear_index`. -/
def toLinearIndexFrom : Shape → Index → ℕ → Option ℕ
  | [], [], linear => some linear
  | extent :: s, coordinate :: index, linear =>
      if extent = Extent.placeholder then toLinearIndexFrom s index linear
      else do
        let value ← coordinate
        if value < extent.count then
          toLinearIndexFrom s index (linear * extent.count + value)
        else none
  | _, _, _ => none

/-- `to_linear_index` -/
def toLinearIndex (index : Index) (s : Shape) : Option ℕ :=
  if s.length = 0 then some 0 else toLinearIndexFrom s index 0

/-- `from_linear_index` -/
def fromLinearIndex (size : ℕ) (s : Shape) : Index :=
  (s.foldr (fun extent (index, size) =>
    if extent = Extent.placeholder then (none :: index, size)
    else (some (size % extent.count) :: index, size / extent.count)) (([], size) : Index × ℕ)).1

/-- `unsqueeze_for_element_index` -/
def unsqueezeForElementIndex (vectorSize : ℕ) (value : Index) (dim : ℤ) : Option Index :=
  let rank := value.length - if vectorSize = 0 then 0 else 1
  (dimension rank dim).map fun pos =>
    value.take pos ++ (value.take rank).drop (pos + 1) ++
      if vectorSize = 0 then [] else value.drop rank

/-! ## Coordinates without the placeholder dimensions -/

/-- The index of a shape at some coordinates. -/
def mask (s : Shape) (c : List ℕ) : Index :=
  s.zipWith (fun extent v => if extent = Extent.placeholder then none else some v) c

/-- The coordinates that a shape looks at. -/
def project (s : Shape) (c : List ℕ) : List ℕ :=
  s.zipWith (fun extent v => if extent = Extent.placeholder then 0 else v) c

theorem length_of_inRange {s : Shape} {c : List ℕ} (h : InRange s.counts c) :
    c.length = s.length := by
  have hlength := h.length_eq
  rwa [Shape.counts, List.length_map] at hlength

theorem length_mask {s : Shape} {c : List ℕ} (h : c.length = s.length) :
    (mask s c).length = s.length := by
  rw [mask, List.length_zipWith, h, Nat.min_self]

theorem fromLinearIndex_eq (s : Shape) (k : ℕ) :
    fromLinearIndex k s = mask s (coordinates s.counts k) := by
  have hfold : s.foldr (fun extent (index, size) =>
      if extent = Extent.placeholder then (none :: index, size)
      else (some (size % extent.count) :: index, size / extent.count)) (([], k) : Index × ℕ) =
      (mask s (coordinates s.counts k), k / s.counts.prod) := by
    induction s with
    | nil => simp [mask, Shape.counts]
    | cons extent s ih =>
        rw [List.foldr_cons, ih]
        simp only [Shape.counts, List.map_cons, coordinates, mask, List.zipWith_cons_cons,
          List.prod_cons]
        split
        · rename_i h
          simp [h, Extent.count]
        · rw [Nat.mul_comm, Nat.div_div_eq_div_mul]
  exact congrArg Prod.fst hfold

theorem inRange_project {s r : Shape} (hs : s.Extends r) {c : List ℕ}
    (hc : InRange r.counts c) : InRange s.counts (project s c) := by
  induction hs generalizing c with
  | nil => exact List.Forall₂.nil
  | cons hextent _ ih =>
      cases hc with
      | cons hv hc =>
          refine List.Forall₂.cons ?_ (ih hc)
          dsimp only
          rcases hextent with rfl | rfl
          · simp [Extent.count]
          · split
            · rename_i h
              simp [h, Extent.count]
            · exact hv

theorem toLinearIndexFrom_mask {s r : Shape} (hs : s.Extends r) {c : List ℕ}
    (hc : InRange r.counts c) (linear : ℕ) :
    toLinearIndexFrom s (mask r c) linear =
      some (linear * s.counts.prod + offset s.counts (project s c)) := by
  induction hs generalizing c linear with
  | nil =>
      cases hc
      simp [toLinearIndexFrom, mask, Shape.counts, project, offset]
  | cons hextent _ ih =>
      cases hc with
      | cons hv hc =>
          have hih := fun linear => ih hc linear
          simp only [mask, Shape.counts, project] at hih
          simp only [toLinearIndexFrom, mask, Shape.counts, project, List.map_cons,
            List.zipWith_cons_cons, List.prod_cons, offset]
          rcases hextent with rfl | rfl
          · rw [if_pos rfl, if_pos rfl, hih]
            simp [Extent.count]
          · split
            · rename_i h
              rw [hih]
              simp [h, Extent.count]
            · simp only [Option.bind_eq_bind, Option.bind_some, if_pos hv, hih]
              congr 1
              ring

/-- The element of a shape at the coordinates of one that it is extended to. -/
theorem toLinearIndex_mask {s r : Shape} (hs : s.Extends r) {c : List ℕ}
    (hc : InRange r.counts c) :
    toLinearIndex (mask r c) s = some (offset s.counts (project s c)) := by
  unfold toLinearIndex
  split
  · rename_i h
    rw [List.eq_nil_of_length_eq_zero h]
    rfl
  · rw [toLinearIndexFrom_mask hs hc, Nat.zero_mul, Nat.zero_add]

theorem project_coordinates (s : Shape) (k : ℕ) :
    project s (coordinates s.counts k) = coordinates s.counts k := by
  induction s with
  | nil => rfl
  | cons extent s ih =>
      simp only [project, Shape.counts, List.map_cons, coordinates, List.zipWith_cons_cons] at ih ⊢
      rw [ih]
      split
      · rename_i h
        simp [h, Extent.count, Nat.mod_one]
      · rfl

/-! ## A dimension less -/

theorem forall₂_eraseIdx {α β : Type*} {R : α → β → Prop} {l : List α} {m : List β}
    (h : List.Forall₂ R l m) (i : ℕ) : List.Forall₂ R (l.eraseIdx i) (m.eraseIdx i) := by
  induction h generalizing i with
  | nil => exact List.Forall₂.nil
  | cons hab hrest ih =>
      cases i with
      | zero => exact hrest
      | succ i => exact List.Forall₂.cons hab (ih i)

theorem zipWith_eraseIdx {α β γ : Type*} (f : α → β → γ) (l : List α) (m : List β) (i : ℕ) :
    (l.zipWith f m).eraseIdx i = (l.eraseIdx i).zipWith f (m.eraseIdx i) := by
  induction l generalizing m i with
  | nil => simp
  | cons a l ih =>
      cases m with
      | nil => simp
      | cons b m =>
          cases i with
          | zero => rfl
          | succ i => simp [ih]

theorem unsqueezeForElementIndex_eq {vectorSize : ℕ} {value : Index} {dim : ℤ} {rank pos : ℕ}
    (hlen : value.length = rank + if vectorSize = 0 then 0 else 1)
    (hpos : dimension rank dim = some pos) :
    unsqueezeForElementIndex vectorSize value dim = some (value.eraseIdx pos) := by
  have hlt := dimension_lt hpos
  have hrank : (value.length - if vectorSize = 0 then 0 else 1) = rank := by omega
  unfold unsqueezeForElementIndex
  simp only [hrank, hpos, Option.map_some]
  congr 1
  rw [List.eraseIdx_eq_take_drop_succ, List.append_assoc]
  congr 1
  have hdrop : value.drop (pos + 1) =
      (value.take rank).drop (pos + 1) ++ value.drop rank := by
    rw [← List.drop_append_of_le_length (by simp; omega), List.take_append_drop]
  rw [hdrop]
  congr 1
  split
  · rename_i h
    rw [if_pos h] at hlen
    exact (List.drop_of_length_le (by omega)).symm
  · rfl

end Hmpc
