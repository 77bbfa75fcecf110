/-
# Hmpc.Expr.Meaning -- what an expression means, element by element

An expression stands for an array of elements in row-major order. `meaning` is this array, given by
recursion over the expression alone: nothing is read from a tensor that was computed for a part, and
the elements of random expressions are those of one table. An expression that is evaluated at a
position evaluates its operands at positions that lead to the elements `meaning` takes; the
coordinates that a product splices in are the same on both sides (`reaches_spliced`).
-/
import Hmpc.Expr.Elements
import Hmpc.Expr.Evaluations
import Hmpc.Expr.MatrixProduct

namespace Hmpc.Expr

open Hmpc.Lib Hmpc.Lib.MixedRadix

/-- What the kernels of complex expressions compute from all elements of their operand. The order in
which a reduction combines them is not specified. -/
structure Semantics (V : Type) extends Interpretation V where
  reduce : Reduction → Multiset V → V
  transform : (isInverse : Bool) → (vectorSize : ℕ) → List V → ℕ → V

/-- A fold expression over `+`. -/
def Semantics.sum {V : Type} [Inhabited V] (m : Semantics V) (terms : List V) : V :=
  (foldRight (m.apply .add) terms).getD default

/-! ## Coordinates that are spliced in -/

section Spliced

variable {α : Type}

/-- A list with one thing in the place of those from `n` to `k`. -/
def spliced (n k : ℕ) (a : α) (l : List α) : List α := l.take n ++ a :: l.drop k

variable {extent : Extent} {s r : Shape} {c : List ℕ} {n k v : ℕ}

theorem inRange_spliced (hc : InRange r.counts c) (hv : v < extent.count) :
    InRange (Shape.counts (spliced n k extent r)) (spliced n k v c) := by
  unfold spliced Shape.counts at *
  rw [List.map_append, List.map_cons, List.map_take, List.map_drop]
  exact List.rel_append (List.forall₂_take n hc) (.cons hv (List.forall₂_drop k hc))

theorem extends_spliced (h : s.Extends r) :
    Shape.Extends (spliced n k extent s) (spliced n k extent r) :=
  List.rel_append (List.forall₂_take n h) (.cons (Or.inr rfl) (List.forall₂_drop k h))

theorem mask_spliced (hextent : extent ≠ .placeholder) (hlen : c.length = r.length) :
    mask (spliced n k extent r) (spliced n k v c) = spliced n k (some v) (mask r c) := by
  unfold mask spliced
  rw [List.zipWith_append (by simp [hlen]), List.zipWith_cons_cons, if_neg hextent,
    List.take_zipWith, List.drop_zipWith]

theorem project_spliced (hextent : extent ≠ .placeholder) (hlen : c.length = s.length) :
    project (spliced n k extent s) (spliced n k v c) = spliced n k v (project s c) := by
  unfold project spliced
  rw [List.zipWith_append (by simp [hlen]), List.zipWith_cons_cons, if_neg hextent,
    List.take_zipWith, List.drop_zipWith]

/-- The coordinates of an element lead to the same place as those it was reached by. -/
theorem elementAt_spliced {t : Shape} (ht : t.Extends (spliced n k extent s))
    (hextent : extent ≠ .placeholder) (hs : s.Extends r) (hc : InRange r.counts c)
    (hv : v < extent.count) :
    elementAt t (spliced n k v (coordinates s.counts (elementAt s c))) =
      elementAt t (spliced n k v c) := by
  have hlen : c.length = s.length := by rw [length_of_inRange hc, hs.length_eq]
  unfold elementAt
  rw [coordinates_offset (inRange_project hs hc), ← project_spliced hextent hlen,
    project_project ht (extends_spliced hs) (inRange_spliced hc hv)]

end Spliced

namespace ArrayExpression

variable {V : Type}

/-! ## The meaning -/

/-- The elements of an expression, in row-major order; `table` has those of random expressions. -/
def meaning [Inhabited V] (m : Semantics V) (table : ArrayExpression × ℕ → V) :
    ArrayExpression → ℕ → V
  | tensor _ tag _, j => m.tensor tag j
  | value _ tag, _ => m.value tag
  | e@(random ..), j => table (e, j)
  | cast type inner, j => m.cast type (inner.meaning m table j)
  | cache inner, j => inner.meaning m table j
  | e@(unsqueeze dim inner), j =>
      inner.meaning m table (elementAt inner.elementShape ((coordinates e.elementShape.counts
        j).eraseIdx ((dimension (inner.rank + 1) dim).getD 0)))
  | e@(binary operation left right), j =>
      let c := coordinates e.elementShape.counts j
      m.apply operation (left.meaning m table (elementAt left.elementShape c))
        (right.meaning m table (elementAt right.elementShape c))
  | e@(matrixProduct left right), j =>
      let c := coordinates e.elementShape.counts j
      m.sum ((List.range left.sumExtent).map fun k => m.apply .multiply
        (left.meaning m table (elementAt left.elementShape
          (spliced (left.rank - 1) left.rank k c)))
        (right.meaning m table (elementAt right.elementShape
          (spliced (right.rank - 2) (right.rank - 1) k c))))
  | e@(matrixVectorProduct matrix vector), j =>
      let c := coordinates e.elementShape.counts j
      m.sum ((List.range matrix.sumExtent).map fun k => m.apply .multiply
        (matrix.meaning m table (elementAt matrix.elementShape
          (spliced (matrix.rank - 1) (matrix.rank - 1) k c)))
        (vector.meaning m table (elementAt vector.elementShape
          (spliced (vector.rank - 1) vector.rank k c))))
  | reduce operation inner, _ =>
      m.reduce operation ((Multiset.range inner.elementShape.size).map (inner.meaning m table))
  | transform isInverse inner, j =>
      m.transform isInverse inner.vectorSize
        ((List.range inner.elementShape.size).map (inner.meaning m table)) j

/-- A product has something to add up, and a product of matrices is not evaluated at linear indices,
for which it does not compile. -/
def ProductCompiles : ArrayExpression → Prop
  | e@(matrixProduct left _) =>
      left.sumExtent ≠ 0 ∧ e.sameElementShape e.elementShape = false
  | matrixVectorProduct matrix _ => matrix.sumExtent ≠ 0
  | _ => True

/-! ## The positions of the operands -/

variable {e : ArrayExpression} {p : Position} {index : Index} {j : ℕ}

/-- A tensor of an expression is read at the element that the position leads to. -/
theorem readTensor_reaches (h : Reaches e p j) (data : ℕ → V) :
    readTensor data e.vectorSize (e.shape.getD []) p = some (data j) := by
  cases h with
  | linear _ hk =>
      rw [← Shape.size_eq] at hk
      exact readTensor_linear hk
  | multidimensional hextends hc => exact readTensor_mask hextends hc

/-- An operand with other coordinates in the place of some. -/
theorem reaches_spliced {operand : ArrayExpression} {n k extent v : ℕ}
    (hoperand : operand.elementShape.Extends (spliced n k (.static extent) e.elementShape))
    (hne : e.elementShape ≠ []) (h : Reaches e (.multidimensional index) j) (hv : v < extent) :
    Reaches operand (.multidimensional (spliced n k (some v) index))
      (elementAt operand.elementShape (spliced n k v (coordinates e.elementShape.counts j))) := by
  cases h with
  | multidimensional hextends hc =>
      have hr := hextends.resolve_left hne
      have hstatic : Extent.static extent ≠ .placeholder := fun h => by cases h
      rw [elementAt_spliced hoperand hstatic hr hc hv,
        ← mask_spliced hstatic (length_of_inRange hc)]
      exact .multidimensional (Or.inr (hoperand.trans (extends_spliced hr)))
        (inRange_spliced hc hv)

/-- The dimension that is new is left out again. -/
theorem reaches_unsqueeze {dim : ℤ} {inner : ArrayExpression}
    (hshape : (unsqueeze dim inner).shape.isSome) (h : Reaches (unsqueeze dim inner) p j) :
    ∃ index, p = .multidimensional index ∧ ∃ index',
      unsqueezeForElementIndex inner.vectorSize index dim = some index' ∧
        Reaches inner (.multidimensional index') (elementAt inner.elementShape
          ((coordinates (unsqueeze dim inner).elementShape.counts j).eraseIdx
            ((dimension (inner.rank + 1) dim).getD 0))) := by
  obtain ⟨s, hs⟩ := Option.isSome_iff_exists.mp hshape
  obtain ⟨t, ht, hs'⟩ := Option.bind_eq_some_iff.mp hs
  obtain ⟨pos, hpos, hlength, herase⟩ := unsqueeze_eq hs'
  have hinner := herase inner.vectorSize
  rw [← elementShape_of_shape ht] at hinner
  have hlen := length_elementShape s inner.vectorSize
  have hwhole : (unsqueeze dim inner).elementShape = s.elementShape inner.vectorSize :=
    elementShape_of_shape hs
  have hrank : inner.rank = t.length := by rw [rank, ht, Option.getD_some]
  rw [hrank, hpos, Option.getD_some, hwhole]
  cases h with
  | linear hsame _ =>
      -- the inner expression has a dimension less
      exfalso
      simp only [sameElementShape, Bool.and_eq_true] at hsame
      have hshort := Shape.length_eq_of_sameType (sameType_of_sameElementShape hsame.1)
      rw [hwhole, hlen, elementShape_of_shape ht, length_elementShape, hlength] at hshort
      omega
  | multidimensional hextends hc =>
      rename_i r c
      rw [hwhole] at hextends ⊢
      have hr : (s.elementShape inner.vectorSize).Extends r := by
        refine hextends.resolve_left fun hempty => ?_
        rw [hempty, List.length_nil] at hlen
        omega
      have hindex : (mask r c).length = t.length + 1 + if inner.vectorSize = 0 then 0 else 1 := by
        rw [length_mask (length_of_inRange hc), ← hr.length_eq, hlen, hlength]
      have hmask : (mask r c).eraseIdx pos = mask (r.eraseIdx pos) (c.eraseIdx pos) :=
        zipWith_eraseIdx _ r c pos
      have hcounts : InRange (Shape.counts (r.eraseIdx pos)) (c.eraseIdx pos) := by
        rw [Shape.counts, ← List.eraseIdx_map]
        exact forall₂_eraseIdx hc pos
      have hr' : inner.elementShape.Extends (r.eraseIdx pos) := by
        rw [← hinner]
        exact forall₂_eraseIdx hr pos
      have hproject : (project (s.elementShape inner.vectorSize) c).eraseIdx pos =
          project inner.elementShape (c.eraseIdx pos) := by
        rw [← hinner]
        exact zipWith_eraseIdx _ _ c pos
      refine ⟨_, rfl, _, unsqueezeForElementIndex_eq hindex hpos, ?_⟩
      have helement : elementAt inner.elementShape ((coordinates
          (s.elementShape inner.vectorSize).counts (elementAt (s.elementShape inner.vectorSize)
            c)).eraseIdx pos) = elementAt inner.elementShape (c.eraseIdx pos) := by
        unfold elementAt
        rw [coordinates_offset (inRange_project hr hc), hproject,
          project_project (Shape.Extends.refl _) hr' hcounts]
      rw [helement, hmask]
      exact .multidimensional (Or.inr hr') hcounts

/-- Both operands of a product of matrices have their own dimensions around the one that is summed
over. -/
theorem extends_matrixProduct {left right : ArrayExpression}
    (h : (matrixProduct left right).Compiles) :
    (matrixProduct left right).elementShape ≠ [] ∧
      left.elementShape.Extends (spliced (left.rank - 1) left.rank (.static left.sumExtent)
        (matrixProduct left right).elementShape) ∧
      right.elementShape.Extends (spliced (right.rank - 2) (right.rank - 1)
        (.static left.sumExtent) (matrixProduct left right).elementShape) := by
  obtain ⟨hshape, hsizes, -, -⟩ := h
  obtain ⟨s, hs⟩ := Option.isSome_iff_exists.mp hshape
  obtain ⟨l, hl, hs'⟩ := Option.bind_eq_some_iff.mp hs
  obtain ⟨r, hr, hs'⟩ := Option.bind_eq_some_iff.mp hs'
  obtain ⟨lefts, rights, batch, u, v, k, rfl, rfl, rfl, -, -, hlefts, hrights⟩ :=
    MatrixProduct.matrixProductShape_parts hs'
  have hsize : (matrixProduct left right).vectorSize = left.vectorSize := by
    rw [vectorSize, hsizes, ite_self]
  have hsum : left.sumExtent = k := by
    unfold sumExtent
    rw [hl]
    simp [Extent.count]
  have hleft : left.rank = batch.length + 2 := by
    rw [rank, hl, Option.getD_some, List.length_append, hlefts.length_eq]
    rfl
  have hright : right.rank = batch.length + 2 := by
    rw [rank, hr, Option.getD_some, List.length_append, hrights.length_eq]
    rfl
  rw [elementShape_of_shape hs, elementShape_of_shape hl, elementShape_of_shape hr, ← hsizes, hsize,
    hleft, hright, hsum]
  generalize left.vectorSize = n
  rw [MatrixProduct.elementShape_append n (batch ++ [u, v]),
    MatrixProduct.elementShape_append n (lefts ++ [u, .static k]),
    MatrixProduct.elementShape_append n (rights ++ [Extent.static k, v])]
  refine ⟨by simp, ?_, ?_⟩
  · have hspliced : spliced (batch.length + 2 - 1) (batch.length + 2) (Extent.static k)
        (batch ++ [u, v] ++ Shape.elementShape n []) =
        batch ++ [u, .static k] ++ Shape.elementShape n [] := by
      have h := MatrixProduct.splice (batch ++ [u]) [v] (Shape.elementShape n [])
        (Extent.static k) (i := batch.length + 1) (j := batch.length + 2) (by simp) (by simp)
      simpa [spliced] using h
    rw [hspliced]
    exact List.rel_append (List.rel_append hlefts (Shape.Extends.refl _)) (Shape.Extends.refl _)
  · have hspliced : spliced (batch.length + 2 - 2) (batch.length + 2 - 1) (Extent.static k)
        (batch ++ [u, v] ++ Shape.elementShape n []) =
        batch ++ [.static k, v] ++ Shape.elementShape n [] := by
      simp [spliced]
    rw [hspliced]
    exact List.rel_append (List.rel_append hrights (Shape.Extends.refl _)) (Shape.Extends.refl _)

theorem extends_matrixVectorProduct {matrix vector : ArrayExpression}
    (h : (matrixVectorProduct matrix vector).Compiles) :
    (matrixVectorProduct matrix vector).elementShape ≠ [] ∧
      matrix.elementShape.Extends (spliced (matrix.rank - 1) (matrix.rank - 1)
        (.static matrix.sumExtent) (matrixVectorProduct matrix vector).elementShape) ∧
      vector.elementShape.Extends (spliced (vector.rank - 1) vector.rank
        (.static matrix.sumExtent) (matrixVectorProduct matrix vector).elementShape) := by
  obtain ⟨hshape, hsizes, -, -⟩ := h
  obtain ⟨s, hs⟩ := Option.isSome_iff_exists.mp hshape
  obtain ⟨l, hl, hs'⟩ := Option.bind_eq_some_iff.mp hs
  obtain ⟨r, hr, hs'⟩ := Option.bind_eq_some_iff.mp hs'
  obtain ⟨matrices, vectors, batch, u, k, rfl, rfl, rfl, -, hcommon⟩ :=
    MatrixProduct.matrixVectorProductShape_parts hs'
  obtain ⟨hmatrices, hvectors⟩ := commonExtents_extends hcommon
  have hsize : (matrixVectorProduct matrix vector).vectorSize = matrix.vectorSize := by
    rw [vectorSize, hsizes, ite_self]
  have hsum : matrix.sumExtent = k := by
    unfold sumExtent
    rw [hl]
    simp [Extent.count]
  have hmatrix : matrix.rank = batch.length + 2 := by
    rw [rank, hl, Option.getD_some, List.length_append, hmatrices.length_eq]
    rfl
  have hvector : vector.rank = batch.length + 1 := by
    rw [rank, hr, Option.getD_some, List.length_append, hvectors.length_eq]
    rfl
  rw [elementShape_of_shape hs, elementShape_of_shape hl, elementShape_of_shape hr, ← hsizes, hsize,
    hmatrix, hvector, hsum]
  generalize matrix.vectorSize = n
  rw [MatrixProduct.elementShape_append n (batch ++ [u]),
    MatrixProduct.elementShape_append n (matrices ++ [u, .static k]),
    MatrixProduct.elementShape_append n (vectors ++ [Extent.static k])]
  refine ⟨by simp, ?_, ?_⟩
  · have hspliced : spliced (batch.length + 2 - 1) (batch.length + 2 - 1) (Extent.static k)
        (batch ++ [u] ++ Shape.elementShape n []) =
        batch ++ [u, .static k] ++ Shape.elementShape n [] := by
      have h := MatrixProduct.splice (batch ++ [u]) [] (Shape.elementShape n [])
        (Extent.static k) (i := batch.length + 1) (j := batch.length + 1) (by simp) (by simp)
      simpa [spliced] using h
    rw [hspliced]
    exact List.rel_append (List.rel_append hmatrices (Shape.Extends.refl _)) (Shape.Extends.refl _)
  · have hspliced : spliced (batch.length + 1 - 1) (batch.length + 1) (Extent.static k)
        (batch ++ [u] ++ Shape.elementShape n []) =
        batch ++ [.static k] ++ Shape.elementShape n [] := by
      simp [spliced]
    rw [hspliced]
    exact List.rel_append (List.rel_append hvectors (Shape.Extends.refl _)) (Shape.Extends.refl _)

/-- The product of a matrix and a vector is only evaluated at indices with coordinates. -/
theorem reaches_matrixVectorProduct {matrix vector : ArrayExpression}
    (h : (matrixVectorProduct matrix vector).Compiles)
    (hreaches : Reaches (matrixVectorProduct matrix vector) p j) :
    ∃ index, p = .multidimensional index := by
  cases hreaches with
  | multidimensional => exact ⟨_, rfl⟩
  | linear hsame _ =>
      -- a linear index would need a matrix of as many dimensions as the product
      exfalso
      obtain ⟨a, b, hmatrix⟩ := exists_matrix h
      simp only [sameElementShape, Bool.and_eq_true] at hsame
      have hlength := Shape.length_eq_of_sameType (sameType_of_sameElementShape hsame.1.1)
      rw [hmatrix.elementShape_eq, hmatrix.extends_.length_eq] at hlength
      simp at hlength

/-! ## Evaluation and meaning -/

variable [Inhabited V] {m : Semantics V} {table : ArrayExpression × ℕ → V} {s : Shape} {n : ℕ}

/-- What has no operands that are evaluated elementwise has the elements that it means. -/
def meant (m : Semantics V) (table : ArrayExpression × ℕ → V) (e : ArrayExpression)
    (position : Position) : Option V := (e.element position).map (e.meaning m table)

/-- **What an expression evaluates to is what it means.** -/
theorem evaluate_meant {e : ArrayExpression} (he : e.Compiles) {p : Position} {j : ℕ} {v : V}
    (h : Reaches e p j) (hv : e.evaluate m.toInterpretation (meant m table) p = some v) :
    v = e.meaning m table j := by
  induction e generalizing p j v with
  | tensor type tag s =>
      have hread := readTensor_reaches h (m.tensor tag)
      exact Option.some.inj (hv.symm.trans hread)
  | value type tag => exact (Option.some.inj hv).symm
  | cast type inner ih =>
      obtain ⟨w, hw, rfl⟩ := Option.map_eq_some_iff.mp hv
      have hinner : Reaches inner p j := h.inner (elementShape_cast he.1) fun hsame => by
        simp only [sameElementShape, Bool.and_eq_true] at hsame
        exact hsame.1
      exact congrArg _ (ih he.2 hinner hw)
  | cache inner ih =>
      have hshape : (ArrayExpression.cache inner).elementShape = inner.elementShape := rfl
      have hinner : Reaches inner p j := h.inner hshape fun hsame => by
        simp only [sameElementShape, Bool.and_eq_true] at hsame
        exact hsame.1
      exact ih he hinner hv
  | unsqueeze dim inner ih =>
      obtain ⟨index, rfl, index', hindex, hinner⟩ := reaches_unsqueeze he.1 h
      rw [evaluate, hindex] at hv
      exact ih he.2 hinner hv
  | binary operation left right ihl ihr =>
      obtain ⟨l, hl, hv⟩ := Option.bind_eq_some_iff.mp hv
      obtain ⟨r, hr, hv⟩ := Option.bind_eq_some_iff.mp hv
      obtain rfl := Option.some.inj hv
      have hleft : Reaches left p _ := reaches_operand (he.operand 0) (fun hsame => by
        simp only [sameElementShape, Bool.and_eq_true] at hsame
        exact hsame.1.1) h
      have hright : Reaches right p _ := reaches_operand (he.operand 1) (fun hsame => by
        simp only [sameElementShape, Bool.and_eq_true] at hsame
        exact hsame.1.2) h
      obtain ⟨-, -, -, -, hcl, hcr⟩ := he
      rw [ihl hcl hleft hl, ihr hcr hright hr, meaning]
  | random | matrixProduct | matrixVectorProduct | reduce | transform =>
      rw [evaluate, meant, h.element] at hv
      exact (Option.some.inj hv).symm

/-- The index that a kernel evaluates an element at. -/
theorem reaches_fromLinearIndex {e : ArrayExpression} (hn : n ≠ 0) (hshape : e.shape = some s)
    (hsize : e.vectorSize = n) {k : ℕ} (hk : k < s.size * n) :
    Reaches e (.multidimensional (fromLinearIndex k (s.elementShape n))) k := by
  have helement : e.elementShape = s.elementShape n := by
    rw [elementShape_of_shape hshape, hsize]
  have hlt : k < e.elementShape.counts.prod := by
    rwa [helement, prod_counts_elementShape hn s]
  have hreaches : Reaches e (.multidimensional (mask e.elementShape
      (coordinates e.elementShape.counts k)))
      (elementAt e.elementShape (coordinates e.elementShape.counts k)) :=
    .multidimensional (Or.inr (Shape.Extends.refl _))
      (inRange_coordinates (Nat.zero_lt_of_lt hlt) k)
  rwa [elementAt_coordinates hlt, ← fromLinearIndex_eq, helement] at hreaches

/-- The elements of an expression are those that it means. -/
theorem HasElements.meaning {e : ArrayExpression} {data : ℕ → V}
    (h : HasElements m.toInterpretation (meant m table) e s n data) (he : e.Compiles) (hn : n ≠ 0)
    {k : ℕ} (hk : k < s.size * n) : e.meaning m table k = data k :=
  (evaluate_meant he (reaches_fromLinearIndex hn h.shape h.vectorSize hk) (h.element k hk)).symm

/-- What is not evaluated elementwise has its meaning as elements. -/
theorem hasElements_meant {e : ArrayExpression} (hn : n ≠ 0) (hshape : e.shape = some s)
    (hsize : e.vectorSize = n)
    (hother : ∀ p, e.evaluate m.toInterpretation (meant m table) p = meant m table e p) :
    HasElements m.toInterpretation (meant m table) e s n (e.meaning m table) where
  shape := hshape
  vectorSize := hsize
  element k hk := by
    rw [hother, meant, (reaches_fromLinearIndex hn hshape hsize hk).element, Option.map_some]

end ArrayExpression

end Hmpc.Expr
