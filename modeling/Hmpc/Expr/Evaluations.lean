/-
# Hmpc.Expr.Evaluations -- which elements of its operands an expression evaluates

An expression is evaluated at a position, and evaluates its operands at positions that it makes of
it; a matrix product goes through the extent that is summed over. All work items of a kernel
together evaluate an operand at many positions. `covers_kernelPositions` counts how often they meet
an element of an operand whose access pattern is not `multiple`: as often as `repeats` says.
-/
import Hmpc.Broadcast
import Hmpc.Expr.Pointwise

namespace Hmpc.Expr.ArrayExpression

open Hmpc.Lib Hmpc.Lib.Loops Hmpc.Lib.MixedRadix

/-! ## Where operands are evaluated -/

/-- `shape_type::rank` -/
def rank (e : ArrayExpression) : ℕ := (e.shape.getD []).length

/-- `sum_extent`, for the left operand -/
def sumExtent (e : ArrayExpression) : ℕ := (((e.shape.getD []).getLast?.map Extent.count).getD 0)

/-- `operator()` at an index: the indices that the child is evaluated at. An unsqueeze and the
products are not compiled for a linear index, and a reduction or a transform is never evaluated
inside of another expression. -/
def childPositions : (e : ArrayExpression) → Fin e.arity → Position → List Position
  | tensor .., i, _ => i.elim0
  | value .., i, _ => i.elim0
  | random .., i, _ => i.elim0
  | cast .., _, position => [position]
  | cache .., _, position => [position]
  | unsqueeze dim inner, _, .multidimensional index =>
      ((unsqueezeForElementIndex inner.vectorSize index dim).map .multidimensional).toList
  | unsqueeze .., _, .linear _ => []
  | binary .., _, position => [position]
  | matrixProduct left right, i, .multidimensional index =>
      (List.range left.sumExtent).map fun k => .multidimensional <|
        if i.val = 0 then index.take (left.rank - 1) ++ some k :: index.drop left.rank
        else index.take (right.rank - 2) ++ some k :: index.drop (right.rank - 1)
  | matrixProduct .., _, .linear _ => []
  | matrixVectorProduct matrix vector, i, .multidimensional index =>
      (List.range matrix.sumExtent).map fun k => .multidimensional <|
        if i.val = 0 then index.take (matrix.rank - 1) ++ some k :: index.drop (matrix.rank - 1)
        else index.take (vector.rank - 1) ++ some k :: index.drop vector.rank
  | matrixVectorProduct .., _, .linear _ => []
  | reduce .., _, _ => []
  | transform .., _, _ => []

/-- The index of a work item. -/
def position (e : ArrayExpression) (i : ℕ) : Position :=
  if e.sameElementShape e.elementShape then .linear i
  else .multidimensional (fromLinearIndex i e.elementShape)

/-- All work items of a kernel with one for each element. -/
def positions (e : ArrayExpression) : List Position :=
  (List.range e.elementShape.size).map e.position

/-- The elements that the work items of the first kernel of a transform read, two for each. -/
def transformElements (isInverse : Bool) (vectorSize elementSize : ℕ) : List ℕ :=
  (List.range (elementSize * vectorSize / 2)).flatMap fun id =>
    let i := id / (vectorSize / 2)
    let tid := id % (vectorSize / 2)
    if isInverse then [2 * tid + i * vectorSize, 2 * tid + 1 + i * vectorSize]
    else [tid + i * vectorSize, tid + vectorSize / 2 + i * vectorSize]

/-- The indices that the child is evaluated at while the tensor of an expression is computed. -/
def kernelPositions : (e : ArrayExpression) → Fin e.arity → List Position
  | reduce _ inner, _ => inner.positions
  | transform isInverse inner, _ =>
      (transformElements isInverse inner.vectorSize (inner.shape.getD []).size).map inner.position
  | e, i => e.positions.flatMap (e.childPositions i)

/-- The element that an index leads to. -/
def element (e : ArrayExpression) : Position → Option ℕ
  | .linear k => if e.elementShape.length = 0 then some 0 else some k
  | .multidimensional index => toLinearIndex index e.elementShape

/-- The expression can be instantiated and its assertions about extents hold: values are scalars,
a cast keeps the vector size, operators have operands that accept their indices, products have
operands of one vector size, and a transform has vectors of a power of two, which the kernel
halves. -/
def Compiles : ArrayExpression → Prop
  | tensor .. => True
  | value type _ => type.vectorSize = 0
  | random .. => True
  | cast type inner => type.vectorSize = inner.vectorSize ∧ inner.Compiles
  | cache inner => inner.Compiles
  | e@(unsqueeze _ inner) => e.shape.isSome ∧ inner.Compiles
  | e@(binary _ left right) =>
      e.shape.isSome ∧
        (left.vectorSize = 0 ∨ right.vectorSize = 0 ∨ left.vectorSize = right.vectorSize) ∧
        left.Accepts e.elementShape ∧ right.Accepts e.elementShape ∧
        left.Compiles ∧ right.Compiles
  | e@(matrixProduct left right) =>
      e.shape.isSome ∧ left.vectorSize = right.vectorSize ∧ left.Compiles ∧ right.Compiles
  | e@(matrixVectorProduct matrix vector) =>
      e.shape.isSome ∧ matrix.vectorSize = vector.vectorSize ∧ matrix.Compiles ∧ vector.Compiles
  | reduce _ inner => inner.Compiles
  | transform _ inner => (∃ k, inner.vectorSize = 2 ^ (k + 1)) ∧ inner.Compiles

/-! ## How often -/

/-- How often an element of a child is evaluated when all elements of the expression are, by the
extents: once, except for operands without a dimension, and for placeholders of the matrix. -/
def repeats (e : ArrayExpression) (index : ℕ) : ℕ :=
  match e with
  | binary _ left right =>
      let operand := if index = 0 then left else right
      if operand.elementShape = [] then e.elementShape.size
      else operand.elementShape.repeats e.elementShape
  | matrixVectorProduct matrix _ => (matrix.shape.getD []).repeats (e.shape.getD [])
  | _ => 1

/-- The elements of a child that are evaluated for an element of an expression. -/
def childElements : (e : ArrayExpression) → Fin e.arity → ℕ → List ℕ
  | cast .., _, j => [j]
  | cache .., _, j => [j]
  | e@(binary _ left right), i, j =>
      [elementAt (if i.val = 0 then left else right).elementShape
        (coordinates e.elementShape.counts j)]
  | e@(matrixVectorProduct matrix _), _, j =>
      (List.range matrix.sumExtent).map fun k => elementAt matrix.elementShape
        (insertCoordinate (matrix.rank - 1) k (coordinates e.elementShape.counts j))
  | _, _, _ => []

/-- A position is right for an expression: coordinates of a shape that extends the one of its
elements, or a linear index where all element shapes agree. It leads to some element then. -/
inductive Reaches (e : ArrayExpression) : Position → ℕ → Prop
  | linear {k : ℕ} (hsame : e.sameElementShape e.elementShape = true)
      (hk : k < e.elementShape.counts.prod) : Reaches e (.linear k) k
  | multidimensional {r : Shape} {c : List ℕ}
      (hextends : e.elementShape = [] ∨ e.elementShape.Extends r) (hc : InRange r.counts c) :
      Reaches e (.multidimensional (mask r c)) (elementAt e.elementShape c)

variable {e : ArrayExpression} {p : Position} {j : ℕ}

theorem Reaches.element (h : Reaches e p j) : e.element p = some j := by
  cases h with
  | linear _ hk =>
      show (if e.elementShape.length = 0 then some 0 else some j) = some j
      split
      · rename_i hrank
        rw [List.eq_nil_of_length_eq_zero hrank] at hk
        rw [show j = 0 from Nat.lt_one_iff.mp hk]
      · rfl
  | multidimensional hextends hc =>
      rcases hextends with hempty | hextends
      · rw [ArrayExpression.element, hempty]
        rfl
      · exact toLinearIndex_mask hextends hc

/-- A work item evaluates the element that it is for. -/
theorem reaches_position {k : ℕ} (hk : k < e.elementShape.counts.prod) :
    Reaches e (e.position k) k := by
  unfold position
  split
  · rename_i hsame
    exact .linear hsame hk
  · have hreaches : Reaches e (.multidimensional (mask e.elementShape
        (coordinates e.elementShape.counts k)))
        (elementAt e.elementShape (coordinates e.elementShape.counts k)) :=
      .multidimensional (Or.inr (Shape.Extends.refl _))
        (inRange_coordinates (Nat.zero_lt_of_lt hk) k)
    rwa [elementAt_coordinates hk, ← fromLinearIndex_eq] at hreaches

theorem reaches_positions (e : ArrayExpression) :
    List.Forall₂ (Reaches e) e.positions (List.range e.elementShape.counts.prod) := by
  unfold positions
  rw [Shape.size_eq, List.forall₂_map_left_iff, List.forall₂_same]
  intro k hk
  exact reaches_position (List.mem_range.mp hk)

/-! ## Operands of an operator -/

/-- Coordinates lead to the element of an operand that the element of the operator has. -/
theorem reaches_operand {operand : ArrayExpression}
    (hoperand : operand.elementShape = [] ∨ operand.elementShape.Extends e.elementShape)
    (hsame : e.sameElementShape e.elementShape = true →
      operand.sameElementShape e.elementShape = true) (h : Reaches e p j) :
    Reaches operand p
      (elementAt operand.elementShape (coordinates e.elementShape.counts j)) := by
  cases h with
  | linear hall hk =>
      -- a linear index is passed on only if the shapes agree
      have hshape := eq_of_sameElementShape hoperand (hsame hall)
      rw [← hshape] at hk
      have hreaches : Reaches operand (.linear j) j := .linear (hshape ▸ hsame hall) hk
      rwa [← hshape, elementAt_coordinates hk]
  | multidimensional hextends hc =>
      rename_i r c
      rcases hoperand with hempty | hoperand
      · have hreaches : Reaches operand (.multidimensional (mask r c))
            (elementAt operand.elementShape c) := .multidimensional (Or.inl hempty) hc
        rwa [hempty] at hreaches ⊢
      · rcases hextends with hempty | hextends
        -- an operator without elements has operands without elements
        · have hnil : operand.elementShape = [] := by
            rw [hempty] at hoperand
            cases hshape : operand.elementShape with
            | nil => rfl
            | cons => rw [hshape] at hoperand; cases hoperand
          have hreaches : Reaches operand (.multidimensional (mask r c))
              (elementAt operand.elementShape c) := .multidimensional (Or.inl hnil) hc
          rwa [hnil] at hreaches ⊢
        · rw [elementAt_elementAt hoperand hextends hc]
          exact .multidimensional (Or.inr (hoperand.trans hextends)) hc

theorem covers_operand {operand : ArrayExpression}
    (hoperand : operand.elementShape = [] ∨ operand.elementShape.Extends e.elementShape) :
    Covers operand.elementShape.counts.prod
      (if operand.elementShape = [] then e.elementShape.size
        else operand.elementShape.repeats e.elementShape)
      ((List.range e.elementShape.counts.prod).flatMap fun j =>
        [elementAt operand.elementShape (coordinates e.elementShape.counts j)]) := by
  split
  · rename_i hempty
    have hone := covers_repeat (Covers.range 1) e.elementShape.counts.prod
    rw [Nat.mul_one, ← Shape.size_eq] at hone
    rw [hempty]
    rwa [Shape.size_eq] at hone ⊢
  · rename_i hne
    rw [← List.map_eq_flatMap]
    exact covers_elementAt (hoperand.resolve_left hne)

/-! ## The matrix of a matrix-vector product -/

theorem matrixVectorProductShape_eq {matrix vector s : Shape}
    (h : matrixVectorProductShape matrix vector = some s) :
    ∃ (matrices batch : Shape) (u : Extent) (k : ℕ), matrix = matrices ++ [u, .static k] ∧
      s = batch ++ [u] ∧ matrices.Extends batch := by
  unfold matrixVectorProductShape at h
  split at h
  · rename_i k u matrices l vectors hmatrix hvector
    split at h
    · obtain ⟨batch, hbatch, rfl⟩ := Option.map_eq_some_iff.mp h
      refine ⟨matrices.reverse, batch, u, k, ?_, rfl, (commonExtents_extends hbatch).1⟩
      rw [← List.reverse_reverse matrix, hmatrix]
      simp
    · cases h
  · cases h

/-- The matrix has one more dimension than the product, the one that is summed over. -/
structure Matrix (matrix e : ArrayExpression) (a b : Shape) : Prop where
  elementShape_eq : e.elementShape = a ++ b
  extends_ : matrix.elementShape.Extends (a ++ .static matrix.sumExtent :: b)
  ne_nil : a ≠ []
  rank_eq : matrix.rank - 1 = a.length
  repeats_eq : matrix.elementShape.repeats (a ++ .static matrix.sumExtent :: b) =
    (matrix.shape.getD []).repeats (e.shape.getD [])

theorem exists_matrix {matrix vector : ArrayExpression}
    (h : (matrixVectorProduct matrix vector).Compiles) :
    ∃ a b, Matrix matrix (matrixVectorProduct matrix vector) a b := by
  obtain ⟨hshape, hsizes, -, -⟩ := h
  obtain ⟨s, hs⟩ := Option.isSome_iff_exists.mp hshape
  obtain ⟨m, hm, hs'⟩ := Option.bind_eq_some_iff.mp hs
  obtain ⟨v, -, hs'⟩ := Option.bind_eq_some_iff.mp hs'
  obtain ⟨matrices, batch, u, k, rfl, rfl, hbatch⟩ := matrixVectorProductShape_eq hs'
  -- the dimension of the vectors, if there is one
  obtain ⟨b, hb⟩ : ∃ b : Shape, ∀ t, Shape.elementShape matrix.vectorSize t = t ++ b := by
    unfold Shape.elementShape
    by_cases hzero : matrix.vectorSize = 0
    · exact ⟨[], fun t => by rw [if_pos hzero, List.append_nil]⟩
    · exact ⟨[.static matrix.vectorSize], fun t => by rw [if_neg hzero]⟩
  have hsize : (matrixVectorProduct matrix vector).vectorSize = matrix.vectorSize := by
    rw [vectorSize, hsizes, ite_self]
  have hsum : matrix.sumExtent = k := by
    unfold sumExtent
    rw [hm]
    simp [Extent.count]
  have hlength := hbatch.length_eq
  refine ⟨batch ++ [u], b, ?_, ?_, by simp, ?_, ?_⟩
  · rw [elementShape_of_shape hs, hsize, hb]
  · rw [elementShape_of_shape hm, hb, hsum, List.append_assoc, List.append_assoc]
    exact List.rel_append hbatch (Shape.Extends.refl _)
  · unfold rank
    rw [hm, Option.getD_some]
    simp [hlength]
  · rw [elementShape_of_shape hm, hb, hsum, hs, hm, Option.getD_some, Option.getD_some,
      List.append_assoc, List.append_assoc, Shape.repeats_append hlength,
      Shape.repeats_append hlength]
    congr 1
    show Shape.repeats ([u, .static k] ++ b) ([u, .static k] ++ b) = _
    rw [Shape.repeats_self, Shape.repeats_cons]
    split
    · rename_i hplaceholder
      rw [hplaceholder]
      rfl
    · rfl

/-- The matrix is evaluated at the indices with one more coordinate. -/
theorem reaches_matrix {matrix : ArrayExpression} {a b : Shape} (hmatrix : Matrix matrix e a b)
    {index : Index} (h : Reaches e (.multidimensional index) j) :
    List.Forall₂ (Reaches matrix)
      ((List.range matrix.sumExtent).map fun k => .multidimensional
        (index.take (matrix.rank - 1) ++ some k :: index.drop (matrix.rank - 1)))
      ((List.range matrix.sumExtent).map fun k => elementAt matrix.elementShape
        (insertCoordinate (matrix.rank - 1) k (coordinates e.elementShape.counts j))) := by
  rw [List.forall₂_map_left_iff, List.forall₂_map_right_iff, List.forall₂_same, hmatrix.rank_eq]
  intro k hk
  have hk := List.mem_range.mp hk
  cases h with
  | multidimensional hextends hc =>
      rename_i r c
      rw [hmatrix.elementShape_eq] at hextends ⊢
      have hr : (a ++ b).Extends r := by
        refine hextends.resolve_left fun hnil => ?_
        exact hmatrix.ne_nil (List.append_eq_nil_iff.mp hnil).1
      have hle : a.length ≤ r.length := by
        rw [← hr.length_eq, List.length_append]
        omega
      -- the inserted coordinate is of an extent that no placeholder hides
      have hstatic : Extent.static matrix.sumExtent ≠ .placeholder := nofun
      have hrange : InRange (Shape.counts (r.take a.length ++ .static matrix.sumExtent ::
          r.drop a.length)) (insertCoordinate (r.take a.length).length k c) :=
        inRange_insertCoordinate (by rwa [List.take_append_drop]) hk
      rw [List.length_take, Nat.min_eq_left hle] at hrange
      rw [← mask_insertCoordinate hstatic hc,
        elementAt_insertCoordinate hmatrix.extends_ hstatic hr hc hk]
      exact .multidimensional (Or.inr (hmatrix.extends_.trans (extends_insert hr))) hrange

theorem covers_matrix {matrix : ArrayExpression} {a b : Shape} (hmatrix : Matrix matrix e a b) :
    Covers matrix.elementShape.counts.prod ((matrix.shape.getD []).repeats (e.shape.getD []))
      ((List.range e.elementShape.counts.prod).flatMap fun j =>
        (List.range matrix.sumExtent).map fun k => elementAt matrix.elementShape
          (insertCoordinate (matrix.rank - 1) k (coordinates e.elementShape.counts j))) := by
  rw [← hmatrix.repeats_eq, hmatrix.rank_eq, hmatrix.elementShape_eq]
  exact covers_insertCoordinate hmatrix.extends_

/-! ## All children -/

/-- What is right for an expression is right for one with the same elements inside of it. -/
theorem Reaches.inner {inner : ArrayExpression} (hshape : e.elementShape = inner.elementShape)
    (hsame : e.sameElementShape e.elementShape = true →
      inner.sameElementShape e.elementShape = true) (h : Reaches e p j) : Reaches inner p j := by
  cases h with
  | linear hall hk => exact .linear (hshape ▸ hsame hall) (hshape ▸ hk)
  | multidimensional hextends hc =>
      rw [hshape] at hextends ⊢
      exact .multidimensional hextends hc

theorem elementShape_cast {type : ValueType} {inner : ArrayExpression}
    (h : type.vectorSize = inner.vectorSize) :
    (cast type inner).elementShape = inner.elementShape := by
  show Shape.elementShape type.vectorSize (inner.shape.getD []) = _
  rw [h]
  rfl

/-- An operand looks at coordinates of the operator. -/
theorem Compiles.operand {operation : BinaryOperation} {left right : ArrayExpression}
    (h : (binary operation left right).Compiles) (index : ℕ) :
    (if index = 0 then left else right).elementShape = [] ∨
      (if index = 0 then left else right).elementShape.Extends
        (binary operation left right).elementShape := by
  obtain ⟨hshape, hsizes, hleft, hright, -, -⟩ := h
  obtain ⟨s, hs⟩ := Option.isSome_iff_exists.mp hshape
  obtain ⟨-, -, hl, hr⟩ := extends_of_accepts hs hsizes hleft hright
  split
  · exact hl
  · exact hr

/-! ## Operands that are accessed once -/

theorem binaryAccess_eq_once {own other : Shape} (h : binaryAccess own other = Pattern.once)
    (hne : own ≠ []) : own.length = other.length ∧
      ∀ pair ∈ own.zip other, pair.1 = Extent.placeholder → pair.2 = pair.1 := by
  have hrank : own.length ≠ 0 := fun hzero => hne (List.eq_nil_of_length_eq_zero hzero)
  unfold binaryAccess at h
  split_ifs at h with hlength
  refine ⟨not_not.mp hlength, ?_⟩
  intro pair hpair hplaceholder
  have hfold := foldl_iff_or (P := fun pattern : Pattern => pattern = Pattern.multiple)
    (Q := fun pair : Extent × Extent => pair.1 = .placeholder ∧ pair.2 ≠ pair.1)
    (f := fun pattern pair => if pair.1 = Extent.placeholder ∧ pair.2 ≠ pair.1
      then Pattern.multiple else pattern)
    (fun pattern pair => by
      split_ifs with hmultiple
      · exact ⟨fun _ => Or.inr hmultiple, fun _ => rfl⟩
      · exact ⟨Or.inl, fun hor => hor.resolve_right hmultiple⟩)
    (own.zip other) Pattern.once
  by_contra hdifferent
  have hmultiple := hfold.mpr (Or.inr ⟨pair, hpair, hplaceholder, hdifferent⟩)
  rw [h] at hmultiple
  cases hmultiple

/-- A placeholder of both operands is one of the operator. -/
theorem repeats_eq_one {own other common : Shape} (hcommon : commonExtents own other = some common)
    (h : ∀ pair ∈ own.zip other, pair.1 = Extent.placeholder → pair.2 = pair.1) :
    own.repeats common = 1 := by
  induction own generalizing other common with
  | nil => rfl
  | cons extent own ih =>
      cases other with
      | nil => cases hcommon
      | cons otherExtent other =>
          obtain ⟨first, hfirst, hcommon⟩ := Option.bind_eq_some_iff.mp hcommon
          obtain ⟨rest, hrest, hcommon⟩ := Option.bind_eq_some_iff.mp hcommon
          obtain rfl := Option.some.inj hcommon
          rw [List.zip_cons_cons, List.forall_mem_cons] at h
          rw [Shape.repeats_cons, ih hrest h.2, Nat.mul_one]
          split
          · rename_i hplaceholder
            have hother : otherExtent = .placeholder := (h.1 hplaceholder).trans hplaceholder
            rw [hplaceholder, hother] at hfirst
            obtain rfl := Option.some.inj hfirst
            rfl
          · rfl

/-- The tag of an operator is right for operands with a dimension. -/
theorem repeats_of_once {operation : BinaryOperation} {left right : ArrayExpression} {i : Fin 2}
    (hcompiles : (binary operation left right).Compiles)
    (haccess : (binary operation left right).access i = Pattern.once)
    (hne : (if i.val = 0 then left else right).shape.getD [] ≠ []) :
    (binary operation left right).repeats i = 1 := by
  have hoperand := hcompiles.operand i
  obtain ⟨s, hs⟩ := Option.isSome_iff_exists.mp hcompiles.1
  have helements := elementShape_of_shape hs
  obtain ⟨l, hl, hs'⟩ := Option.bind_eq_some_iff.mp hs
  obtain ⟨r, hr, hs'⟩ := Option.bind_eq_some_iff.mp hs'
  -- the operand and the other one have as many dimensions
  obtain ⟨own, hown, hlength, hrepeats⟩ : ∃ own,
      (if i.val = 0 then left else right).shape = some own ∧ own.length = s.length ∧
        own.repeats s = 1 := by
    simp only [access, hl, hr, Option.getD_some] at haccess
    split_ifs at haccess hne ⊢ with hi
    · rw [hl, Option.getD_some] at hne
      obtain ⟨hlength, hall⟩ := binaryAccess_eq_once haccess hne
      have hcommon := commonExtents_of_rank hne hlength (Or.inl hs')
      exact ⟨l, hl, (commonExtents_extends hcommon).1.length_eq, repeats_eq_one hcommon hall⟩
    · rw [hr, Option.getD_some] at hne
      obtain ⟨hlength, hall⟩ := binaryAccess_eq_once haccess hne
      have hcommon := commonExtents_of_rank hne hlength (Or.inr hs')
      exact ⟨r, hr, (commonExtents_extends hcommon).1.length_eq, repeats_eq_one hcommon hall⟩
  simp only [repeats]
  generalize (if i.val = 0 then left else right) = operand at *
  have hshape := elementShape_of_shape hown
  rw [hown, Option.getD_some] at hne
  have hnil : operand.elementShape ≠ [] := by
    intro hnil
    have hzero := congrArg List.length (hshape.symm.trans hnil)
    rw [length_elementShape] at hzero
    exact hne (List.eq_nil_of_length_eq_zero (Nat.eq_zero_of_add_eq_zero_right hzero))
  have hsizes := (hoperand.resolve_left hnil).length_eq
  rw [hshape, helements, length_elementShape, length_elementShape] at hsizes
  rw [if_neg hnil, hshape, helements]
  -- the dimension of the vectors is in both shapes or in none
  unfold Shape.elementShape
  split_ifs at hsizes ⊢
  · exact hrepeats
  · omega
  · omega
  · rw [Shape.repeats_append hlength, hrepeats]
    rfl

/-! ## All children of an expression -/

/-- A child that is not accessed `multiple` times, of an expression that is evaluated at an index,
is evaluated at the elements that `childElements` says. -/
theorem reaches_childPositions (hcompiles : e.Compiles) (hcomplex : e.isComplex = false)
    {i : Fin e.arity} (haccess : e.access i ≠ Pattern.multiple) (h : Reaches e p j) :
    List.Forall₂ (Reaches (e.get i)) (e.childPositions i p) (e.childElements i j) := by
  cases e with
  | tensor | value | random => exact i.elim0
  | unsqueeze | matrixProduct => exact absurd rfl haccess
  | reduce | transform => cases hcomplex
  | cast type inner =>
      refine .cons (h.inner (elementShape_cast hcompiles.1) fun hsame => ?_) .nil
      simp only [sameElementShape, Bool.and_eq_true] at hsame
      exact hsame.1
  | cache inner =>
      have hshape : (cache inner).elementShape = inner.elementShape := rfl
      refine .cons (h.inner hshape fun hsame => ?_) .nil
      simp only [sameElementShape, Bool.and_eq_true] at hsame
      exact hsame.1
  | binary operation left right =>
      refine .cons (reaches_operand (hcompiles.operand i) (fun hsame => ?_) h) .nil
      simp only [sameElementShape, Bool.and_eq_true] at hsame
      show (if i.val = 0 then left else right).sameElementShape _ = true
      split
      · exact hsame.1.1
      · exact hsame.1.2
  | matrixVectorProduct matrix vector =>
      obtain ⟨a, b, hmatrix⟩ := exists_matrix hcompiles
      have hi : i.val = 0 := by
        by_contra hne
        exact haccess (if_neg hne)
      have hget : (matrixVectorProduct matrix vector).get i = matrix := if_pos hi
      rw [hget]
      cases p with
      | linear k =>
          -- a linear index would need a matrix of as many dimensions as the product
          exfalso
          cases h with
          | linear hsame _ =>
              simp only [sameElementShape, Bool.and_eq_true] at hsame
              have hlength := Shape.length_eq_of_sameType (sameType_of_sameElementShape hsame.1.1)
              rw [hmatrix.elementShape_eq, hmatrix.extends_.length_eq] at hlength
              simp at hlength
      | multidimensional index =>
          simp only [childPositions, hi, if_true]
          exact reaches_matrix hmatrix h

/-- All elements of an expression together evaluate each element of such a child `repeats` times. -/
theorem covers_childElements (hcompiles : e.Compiles) (hcomplex : e.isComplex = false)
    {i : Fin e.arity} (haccess : e.access i ≠ Pattern.multiple) :
    Covers (e.get i).elementShape.counts.prod (e.repeats i)
      ((List.range e.elementShape.counts.prod).flatMap (e.childElements i)) := by
  cases e with
  | tensor | value | random => exact i.elim0
  | unsqueeze | matrixProduct => exact absurd rfl haccess
  | reduce | transform => cases hcomplex
  | cast type inner =>
      rw [elementShape_cast hcompiles.1]
      show Covers _ 1 ((List.range _).flatMap fun j => [j])
      rw [List.flatMap_singleton']
      exact Covers.range _
  | cache inner =>
      show Covers _ 1 ((List.range _).flatMap fun j => [j])
      rw [List.flatMap_singleton']
      exact Covers.range _
  | binary operation left right => exact covers_operand (hcompiles.operand i)
  | matrixVectorProduct matrix vector =>
      obtain ⟨a, b, hmatrix⟩ := exists_matrix hcompiles
      have hi : i.val = 0 := by
        by_contra hne
        exact haccess (if_neg hne)
      have hget : (matrixVectorProduct matrix vector).get i = matrix := if_pos hi
      rw [hget]
      exact covers_matrix hmatrix

/-! ## Kernels -/

/-- Two work items in a pair read different elements, and all of them together every element. -/
theorem covers_transformElements (isInverse : Bool) (elementSize k : ℕ) :
    Covers (elementSize * 2 ^ (k + 1)) 1
      (transformElements isInverse (2 ^ (k + 1)) elementSize) := by
  have hhalf : 2 ^ (k + 1) / 2 = 2 ^ k := by omega
  have hitems : elementSize * 2 ^ (k + 1) / 2 = elementSize * 2 ^ k := by
    rw [pow_succ, ← Nat.mul_assoc, Nat.mul_div_cancel _ two_pos]
  have hdiv {i tid : ℕ} (htid : tid < 2 ^ k) : (i * 2 ^ k + tid) / 2 ^ k = i := by
    rw [Nat.mul_comm, Nat.mul_add_div (by omega), Nat.div_eq_of_lt htid, Nat.add_zero]
  have hmod {i tid : ℕ} (htid : tid < 2 ^ k) : (i * 2 ^ k + tid) % 2 ^ k = tid := by
    rw [Nat.mul_comm, Nat.mul_add_mod, Nat.mod_eq_of_lt htid]
  have htwo : List.range 2 = [0, 1] := rfl
  -- the elements of one vector, in pairs of neighbors or with half a vector between them
  obtain ⟨l, hl, hitem⟩ : ∃ l, Covers (2 ^ (k + 1)) 1 l ∧
      transformElements isInverse (2 ^ (k + 1)) elementSize =
        (List.range elementSize).flatMap fun i => l.map (i * 2 ^ (k + 1) + ·) := by
    unfold transformElements
    rw [hitems, hhalf]
    cases isInverse with
    | true =>
        refine ⟨_, covers_rows (2 ^ k) 2, ?_⟩
        rw [← flatMap_range_mul]
        apply List.flatMap_congr
        intro i _
        rw [List.map_flatMap]
        apply List.flatMap_congr
        intro tid htid
        have htid := List.mem_range.mp htid
        simp only [hdiv htid, hmod htid, if_true, htwo, List.map_cons, List.map_nil, pow_succ,
          ← Nat.mul_assoc, List.cons.injEq, and_true]
        omega
    | false =>
        refine ⟨_, Nat.mul_comm 2 (2 ^ k) ▸ covers_columns 2 (2 ^ k), ?_⟩
        rw [← flatMap_range_mul]
        apply List.flatMap_congr
        intro i _
        rw [List.map_flatMap]
        apply List.flatMap_congr
        intro tid htid
        have htid := List.mem_range.mp htid
        simp only [hdiv htid, hmod htid, Bool.false_eq_true, if_false, htwo, List.map_cons,
          List.map_nil, pow_succ, ← Nat.mul_assoc, List.cons.injEq, and_true]
        omega
  rw [hitem]
  exact covers_blocks hl elementSize

/-- The positions of a kernel are right, and reach each element of a child `repeats` times. -/
theorem covers_kernelPositions (hcompiles : e.Compiles) {i : Fin e.arity}
    (haccess : e.access i ≠ Pattern.multiple) :
    ∃ elements, List.Forall₂ (Reaches (e.get i)) (e.kernelPositions i) elements ∧
      Covers (e.get i).elementShape.counts.prod (e.repeats i) elements := by
  -- a complex kernel says itself where it reads; the others follow their own positions
  by_cases hcomplex : e.isComplex = true
  · cases e with
    | tensor | value | random | cast | cache | unsqueeze | binary | matrixProduct
    | matrixVectorProduct => cases hcomplex
    | reduce operation inner => exact ⟨_, reaches_positions inner, Covers.range _⟩
    | transform isInverse inner =>
        obtain ⟨⟨k, hk⟩, -⟩ := hcompiles
        have hcovers := covers_transformElements isInverse (inner.shape.getD []).size k
        have hsize : (inner.shape.getD []).size * 2 ^ (k + 1) = inner.elementShape.counts.prod := by
          have hne : inner.vectorSize ≠ 0 := by
            rw [hk]
            exact (Nat.two_pow_pos _).ne'
          rw [elementShape, Shape.elementShape, if_neg hne, hk, Shape.size_eq]
          simp [Shape.counts, Extent.count]
        rw [hsize, ← hk] at hcovers
        refine ⟨_, ?_, hcovers⟩
        show List.Forall₂ _ (List.map inner.position _) _
        rw [List.forall₂_map_left_iff, List.forall₂_same]
        exact fun j hj => reaches_position (hcovers.mem_lt hj)
  · have hcomplex : e.isComplex = false := by simpa using hcomplex
    have hpositions : e.kernelPositions i = e.positions.flatMap (e.childPositions i) := by
      cases e <;> first | rfl | cases hcomplex
    rw [hpositions]
    refine ⟨_, List.rel_flatMap (reaches_positions e) ?_,
      covers_childElements hcompiles hcomplex haccess⟩
    exact fun p j h => reaches_childPositions hcompiles hcomplex haccess h

end Hmpc.Expr.ArrayExpression
