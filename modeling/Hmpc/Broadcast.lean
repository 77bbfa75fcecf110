/-
# Hmpc.Broadcast -- how often the elements of a shape are looked at

When all elements of a shape are gone through, and each time the element of a part is looked at that
lies at the same coordinates, then every element of the part is looked at equally often: once for
each coordinate in the dimensions in which the part has a placeholder (`Shape.repeats`).
-/
import Hmpc.Index
import Hmpc.Lib.Coverage

namespace Hmpc

open Hmpc.Lib Hmpc.Lib.Loops Hmpc.Lib.MixedRadix

/-- How many coordinates there are in the dimensions that are placeholders of the first shape. -/
def Shape.repeats (s r : Shape) : ℕ :=
  (s.zipWith (fun extent common => if extent = Extent.placeholder then common.count else 1) r).prod

theorem Shape.repeats_cons (extent common : Extent) (s r : Shape) :
    Shape.repeats (extent :: s) (common :: r) =
      (if extent = Extent.placeholder then common.count else 1) * s.repeats r := by
  unfold Shape.repeats
  rw [List.zipWith_cons_cons, List.prod_cons]

/-- The element of a part that has the coordinates of an element of the whole. -/
def elementAt (s : Shape) (c : List ℕ) : ℕ := offset s.counts (project s c)

theorem elementAt_coordinates {s : Shape} {k : ℕ} (hk : k < s.counts.prod) :
    elementAt s (coordinates s.counts k) = k := by
  rw [elementAt, project_coordinates, offset_coordinates hk]

/-- A part of a part looks at the coordinates that the part looks at. -/
theorem project_project {s t r : Shape} (hst : s.Extends t) (htr : t.Extends r) {c : List ℕ}
    (hc : InRange r.counts c) : project s (project t c) = project s c := by
  induction hst generalizing r c with
  | nil =>
      cases htr
      cases hc
      rfl
  | cons hextent _ ih =>
      cases htr with
      | cons _ htr =>
          cases hc with
          | cons _ hc =>
              have hrest := ih htr hc
              simp only [project, List.zipWith_cons_cons] at hrest ⊢
              rw [hrest]
              rcases hextent with rfl | rfl
              · rw [if_pos rfl, if_pos rfl]
              · split <;> rfl

theorem elementAt_elementAt {s t r : Shape} (hst : s.Extends t) (htr : t.Extends r) {c : List ℕ}
    (hc : InRange r.counts c) :
    elementAt s (coordinates t.counts (elementAt t c)) = elementAt s c := by
  unfold elementAt
  rw [coordinates_offset (inRange_project htr hc), project_project hst htr hc]

/-! ## All elements of the whole -/

section

variable {extent common : Extent} {s r : Shape}

theorem elementAt_cons {j : ℕ} (hj : j < r.counts.prod) (k : ℕ) :
    elementAt (extent :: s) (coordinates (Shape.counts (common :: r)) (k * r.counts.prod + j)) =
      (if extent = Extent.placeholder then 0 else k % common.count) * s.counts.prod +
        elementAt s (coordinates r.counts j) := by
  have hdiv : (k * r.counts.prod + j) / r.counts.prod = k := by
    rw [Nat.mul_comm, Nat.mul_add_div (by omega), Nat.div_eq_of_lt hj, Nat.add_zero]
  have hrange := inRange_coordinates (show 0 < r.counts.prod by omega) j
  have hlower := coordinates_offset_add hrange k
  rw [offset_coordinates hj, Nat.add_comm] at hlower
  show offset (extent.count :: s.counts) (project (extent :: s)
    ((k * r.counts.prod + j) / r.counts.prod % common.count ::
      coordinates r.counts (k * r.counts.prod + j))) = _
  rw [hlower, hdiv]
  rfl

/-- The elements that are looked at, one block for each coordinate in the first dimension. -/
theorem elements_cons :
    (List.range (Shape.counts (common :: r)).prod).map (fun k =>
        elementAt (extent :: s) (coordinates (Shape.counts (common :: r)) k)) =
      (List.range common.count).flatMap fun k => ((List.range r.counts.prod).map fun j =>
        elementAt s (coordinates r.counts j)).map
          ((if extent = Extent.placeholder then 0 else k) * s.counts.prod + ·) := by
  have hprod : (Shape.counts (common :: r)).prod = common.count * r.counts.prod := by
    rw [Shape.counts, List.map_cons, List.prod_cons]
    rfl
  rw [hprod, List.map_eq_flatMap, ← flatMap_range_mul]
  apply List.flatMap_congr
  intro k hk
  rw [← List.map_eq_flatMap, List.map_map]
  apply List.map_congr_left
  intro j hj
  rw [elementAt_cons (List.mem_range.mp hj), Nat.mod_eq_of_lt (List.mem_range.mp hk)]
  rfl

theorem covers_cons (hextent : extent.Extends common) (h : Covers s.counts.prod (s.repeats r)
    ((List.range r.counts.prod).map fun k => elementAt s (coordinates r.counts k))) :
    Covers (Shape.counts (extent :: s)).prod (Shape.repeats (extent :: s) (common :: r))
      ((List.range (Shape.counts (common :: r)).prod).map fun k =>
        elementAt (extent :: s) (coordinates (Shape.counts (common :: r)) k)) := by
  have hprod : (Shape.counts (extent :: s)).prod = extent.count * s.counts.prod := by
    rw [Shape.counts, List.map_cons, List.prod_cons]
    rfl
  rw [elements_cons, Shape.repeats_cons, hprod]
  split
  · -- the coordinate does not matter
    rename_i hplaceholder
    subst hplaceholder
    simp only [Nat.zero_mul, Nat.zero_add, List.map_id', Extent.count, Nat.one_mul]
    exact covers_repeat h common.count
  · rename_i hextent'
    obtain rfl := hextent.resolve_left hextent'
    rw [Nat.one_mul]
    exact covers_blocks h extent.count

end

theorem covers_elementAt {s r : Shape} (h : s.Extends r) :
    Covers s.counts.prod (s.repeats r)
      ((List.range r.counts.prod).map fun k => elementAt s (coordinates r.counts k)) := by
  induction h with
  | nil => exact Covers.range 1
  | cons hextent _ ih => exact covers_cons hextent ih

/-! ## A dimension that is put in -/

theorem coordinates_append (a b : List ℕ) (j : ℕ) :
    coordinates (a ++ b) j = coordinates a (j / b.prod) ++ coordinates b j := by
  induction a with
  | nil => rfl
  | cons e a ih =>
      rw [List.cons_append, coordinates, coordinates, ih, List.prod_append, List.cons_append,
        Nat.mul_comm, Nat.div_div_eq_div_mul]

theorem offset_append {a c : List ℕ} (hlen : c.length = a.length) (b d : List ℕ) :
    offset (a ++ b) (c ++ d) = offset a c * b.prod + offset b d := by
  induction a generalizing c with
  | nil =>
      rw [List.eq_nil_of_length_eq_zero hlen]
      simp [offset]
  | cons e a ih =>
      obtain ⟨v, c, rfl⟩ := List.exists_cons_of_length_eq_add_one hlen
      rw [List.cons_append, List.cons_append, offset, offset, ih (by simpa using hlen),
        List.prod_append]
      ring

/-- Coordinates with one more before the place `n`. -/
def insertCoordinate (n k : ℕ) (c : List ℕ) : List ℕ := c.take n ++ k :: c.drop n

variable {a b : Shape} {extent : Extent} {j k : ℕ}

theorem inRange_insertCoordinate {c : List ℕ} (hc : InRange (Shape.counts (a ++ b)) c)
    (hk : k < extent.count) :
    InRange (Shape.counts (a ++ extent :: b)) (insertCoordinate a.length k c) := by
  unfold Shape.counts at hc ⊢
  rw [List.map_append] at hc
  rw [List.map_append, List.map_cons]
  have hlen : (a.map Extent.count).length = a.length := List.length_map _
  have htake := List.forall₂_take a.length hc
  have hdrop := List.forall₂_drop a.length hc
  rw [List.take_left' hlen] at htake
  rw [List.drop_left' hlen] at hdrop
  exact List.rel_append htake (List.Forall₂.cons hk hdrop)

/-- The position of an element with a coordinate put in. -/
theorem offset_insertCoordinate (hj : j < (Shape.counts (a ++ b)).prod) :
    offset (Shape.counts (a ++ extent :: b))
        (insertCoordinate a.length k (coordinates (Shape.counts (a ++ b)) j)) =
      (j / b.counts.prod * extent.count + k) * b.counts.prod + j % b.counts.prod := by
  unfold Shape.counts at hj ⊢
  rw [List.map_append, List.prod_append] at hj
  rw [List.map_append, List.map_append, List.map_cons, coordinates_append, insertCoordinate,
    List.take_left' (by simp), List.drop_left' (by simp), offset_append (by simp), offset,
    offset_coordinates_mod, offset_coordinates_mod, List.prod_cons,
    Nat.mod_eq_of_lt (Nat.div_lt_of_lt_mul (by rwa [Nat.mul_comm]))]
  ring

theorem covers_insertCoordinate {s : Shape} (h : s.Extends (a ++ extent :: b)) :
    Covers s.counts.prod (s.repeats (a ++ extent :: b))
      ((List.range (Shape.counts (a ++ b)).prod).flatMap fun j =>
        (List.range extent.count).map fun k => elementAt s
          (insertCoordinate a.length k (coordinates (Shape.counts (a ++ b)) j))) := by
  have hsplit : (Shape.counts (a ++ b)).prod = a.counts.prod * b.counts.prod := by
    rw [Shape.counts, List.map_append, List.prod_append]
    rfl
  have hwhole : (Shape.counts (a ++ extent :: b)).prod =
      a.counts.prod * extent.count * b.counts.prod := by
    rw [Shape.counts, List.map_append, List.prod_append, List.map_cons, List.prod_cons,
      Nat.mul_assoc]
    rfl
  -- the positions of the loop are those of the shape, each once; their elements cover `s`
  have hone := covers_insert a.counts.prod extent.count b.counts.prod
  rw [← hsplit, ← hwhole] at hone
  have hall := hone.map (covers_elementAt h)
  rw [Nat.one_mul, List.map_flatMap] at hall
  -- inserting the coordinate is the same step on linear positions
  have hloop : (List.range (Shape.counts (a ++ b)).prod).flatMap (fun j =>
      (List.range extent.count).map fun k => elementAt s
        (insertCoordinate a.length k (coordinates (Shape.counts (a ++ b)) j))) =
      (List.range (Shape.counts (a ++ b)).prod).flatMap fun j =>
        ((List.range extent.count).map fun k =>
          (j / b.counts.prod * extent.count + k) * b.counts.prod + j % b.counts.prod).map fun m =>
            elementAt s (coordinates (Shape.counts (a ++ extent :: b)) m) := by
    apply List.flatMap_congr
    intro j hj
    have hj := List.mem_range.mp hj
    rw [List.map_map]
    apply List.map_congr_left
    intro k hk
    have hrange := inRange_insertCoordinate
      (inRange_coordinates (show 0 < (Shape.counts (a ++ b)).prod by omega) j)
      (List.mem_range.mp hk)
    rw [Function.comp_apply, ← offset_insertCoordinate hj, coordinates_offset hrange]
  rwa [hloop]

/-! ## Positions with a coordinate put in -/

section

variable {r : Shape} {c : List ℕ} {n : ℕ}

theorem mask_insertCoordinate (hextent : extent ≠ Extent.placeholder)
    (hc : InRange r.counts c) :
    mask (r.take n ++ extent :: r.drop n) (insertCoordinate n k c) =
      (mask r c).take n ++ some k :: (mask r c).drop n := by
  have hlen := length_of_inRange hc
  unfold mask insertCoordinate
  rw [List.zipWith_append (by simp [hlen]), List.zipWith_cons_cons, if_neg hextent,
    List.take_zipWith, List.drop_zipWith]

theorem project_insertCoordinate (hextent : extent ≠ Extent.placeholder)
    (hlen : c.length = (a ++ b).length) :
    project (a ++ extent :: b) (insertCoordinate a.length k c) =
      insertCoordinate a.length k (project (a ++ b) c) := by
  rw [List.length_append] at hlen
  unfold project insertCoordinate
  have htake (f : Extent → ℕ → ℕ) : (List.zipWith f (a ++ b) c).take a.length =
      List.zipWith f ((a ++ b).take a.length) (c.take a.length) := List.take_zipWith
  have hdrop (f : Extent → ℕ → ℕ) : (List.zipWith f (a ++ b) c).drop a.length =
      List.zipWith f ((a ++ b).drop a.length) (c.drop a.length) := List.drop_zipWith
  rw [List.zipWith_append (by rw [List.length_take]; omega), List.zipWith_cons_cons,
    if_neg hextent, htake, hdrop, List.take_left, List.drop_left]

theorem extends_insert (h : (a ++ b).Extends r) :
    Shape.Extends (a ++ extent :: b) (r.take a.length ++ extent :: r.drop a.length) := by
  have htake := List.forall₂_take a.length h
  have hdrop := List.forall₂_drop a.length h
  rw [List.take_left] at htake
  rw [List.drop_left] at hdrop
  exact List.rel_append htake (List.Forall₂.cons (Or.inr rfl) hdrop)

theorem elementAt_insertCoordinate {s : Shape} (h : s.Extends (a ++ extent :: b))
    (hextent : extent ≠ Extent.placeholder) (hr : (a ++ b).Extends r) (hc : InRange r.counts c)
    (hk : k < extent.count) :
    elementAt s (insertCoordinate a.length k
        (coordinates (Shape.counts (a ++ b)) (elementAt (a ++ b) c))) =
      elementAt s (insertCoordinate a.length k c) := by
  have hlen : c.length = (a ++ b).length := by rw [length_of_inRange hc, hr.length_eq]
  have hle : a.length ≤ r.length := by
    rw [← hr.length_eq, List.length_append]
    omega
  have hc' : InRange (Shape.counts (r.take a.length ++ extent :: r.drop a.length))
      (insertCoordinate (r.take a.length).length k c) :=
    inRange_insertCoordinate (by rwa [List.take_append_drop]) hk
  rw [List.length_take, Nat.min_eq_left hle] at hc'
  unfold elementAt
  rw [coordinates_offset (inRange_project hr hc), ← project_insertCoordinate hextent hlen,
    project_project h (extends_insert hr) hc']

end

/-! ## Dimensions that both shapes have -/

theorem Shape.repeats_append {s r : Shape} (h : s.length = r.length) (s' r' : Shape) :
    Shape.repeats (s ++ s') (r ++ r') = s.repeats r * s'.repeats r' := by
  unfold Shape.repeats
  rw [List.zipWith_append h, List.prod_append]

theorem Shape.repeats_self (s : Shape) : s.repeats s = 1 := by
  induction s with
  | nil => rfl
  | cons extent s ih =>
      rw [Shape.repeats_cons, ih, Nat.mul_one]
      split
      · rename_i hplaceholder
        rw [hplaceholder]
        rfl
      · rfl

end Hmpc
