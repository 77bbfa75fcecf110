/-
# Hmpc.Expr.MatrixProduct -- products of matrices, and of matrices and vectors

Both products splice the index that is summed over into the index of the result, each operand at
its own place, and leave what stands behind it where it is: the column, or the coefficient of a
polynomial. Batches are broadcast by the operands themselves, which look at the coordinates of
their own dimensions only. An operand is given by what it evaluates to at the indices that are in
its range, so a product that has a value has read nothing else.
-/
import Hmpc.Expr.BitMonomial
import Hmpc.Expr.Pointwise
import Hmpc.Lib.FoldExpression

namespace Hmpc.Expr.MatrixProduct

open Hmpc.Core Hmpc.Lib Hmpc.Lib.MixedRadix

/-- An operand: how it is evaluated at an index with coordinates. -/
structure Operand (α : Type) where
  shape : Shape
  vectorSize : ℕ
  /-- `operator()` -/
  evaluate : Index → Option α
  /-- `same_element_shape` -/
  sameElementShape : Shape → Bool
  same : ∀ s, sameElementShape s = true → s.sameType (shape.elementShape vectorSize) = true

namespace Operand

variable {α : Type}

def elementShape (o : Operand α) : Shape := o.shape.elementShape o.vectorSize

/-- `rank` -/
def rank (o : Operand α) : ℕ := o.shape.length

/-- `sum_extent`, for the left operand -/
def sumExtent (o : Operand α) : ℕ := (o.shape.getLast?.map Extent.count).getD 0

/-- The elements of an operand, at the coordinates of every shape that its own is extended to. -/
def HasValue (o : Operand α) (value : List ℕ → α) : Prop :=
  ∀ r c, o.elementShape.Extends r → InRange r.counts c → o.evaluate (mask r c) = some (value c)

/-- `tensor_expression` -/
def tensor (data : ℕ → α) (vectorSize : ℕ) (s : Shape) : Operand α where
  shape := s
  vectorSize := vectorSize
  evaluate index := readTensor data vectorSize s (.multidimensional index)
  sameElementShape t := t.sameType (s.elementShape vectorSize)
  same _ h := h

/-- The elements lie in memory in row-major order, and do not see coordinates in dimensions that are
placeholders. -/
theorem hasValue_tensor (data : ℕ → α) (vectorSize : ℕ) (s : Shape) :
    (tensor data vectorSize s).HasValue fun c => data (offset (s.elementShape vectorSize).counts
      (project (s.elementShape vectorSize) c)) :=
  fun _ _ hextends hc => ArrayExpression.readTensor_mask (.inr hextends) hc

/-- An expression of tensors, values and elementwise operators. -/
def expression (m : Interpretation α) (other : ArrayExpression → Position → Option α)
    (e : ArrayExpression) : Operand α where
  shape := e.shape.getD []
  vectorSize := e.vectorSize
  evaluate index := e.evaluate m other (.multidimensional index)
  sameElementShape := e.sameElementShape
  same _ h := ArrayExpression.sameType_of_sameElementShape h

theorem hasValue_expression (m : Interpretation α)
    (other : ArrayExpression → Position → Option α) (other' : ArrayExpression → List ℕ → α)
    {e : ArrayExpression} (helementwise : e.Elementwise) (hshape : e.shape.isSome) :
    (expression m other e).HasValue (e.denote m other') := by
  obtain ⟨s, hs⟩ := Option.isSome_iff_exists.mp hshape
  exact fun r c hextends hc =>
    ArrayExpression.evaluate_mask m other other' e s r c helementwise hs hc (.inr hextends)

end Operand

/-! ## The products of the source -/

section

variable {α β γ : Type}
  (multiply : (Index → Option α) → Index → (Index → Option β) → Index → Option γ)
  (add : γ → γ → γ)

/-- `matrix_product_expression::operator()`; it does not compile for a linear index. -/
def matrixProduct (left : Operand α) (right : Operand β) : Position → Option γ
  | .multidimensional index => do
      let terms ← (List.range left.sumExtent).mapM fun k =>
        multiply left.evaluate (index.take (left.rank - 1) ++ some k :: index.drop left.rank)
          right.evaluate (index.take (right.rank - 2) ++ some k :: index.drop (right.rank - 1))
      foldRight add terms
  | .linear _ => none

/-- `matrix_vector_product_expression::operator()` -/
def matrixVectorProduct (matrix : Operand α) (vector : Operand β) : Position → Option γ
  | .multidimensional index => do
      let terms ← (List.range matrix.sumExtent).mapM fun k =>
        multiply
          matrix.evaluate (index.take (matrix.rank - 1) ++ some k :: index.drop (matrix.rank - 1))
          vector.evaluate (index.take (vector.rank - 1) ++ some k :: index.drop vector.rank)
      foldRight add terms
  | .linear _ => none

/-- `same_element_shape` of a product -/
def sameElementShape (left : Operand α) (right : Operand β) (s : Shape) : Bool :=
  left.sameElementShape s && right.sameElementShape s

/-- What a kernel writes to the element `i`. -/
def execute (left : Operand α) (right : Operand β) (s : Shape) (evaluate : Position → Option γ)
    (i : ℕ) : Option γ :=
  evaluate (if sameElementShape left right s then .linear i
    else .multidimensional (fromLinearIndex i s))

end

/-- The product of two elements. -/
def multiplyElements {α β γ : Type} (multiply : α → β → γ) (left : Index → Option α)
    (leftIndex : Index) (right : Index → Option β) (rightIndex : Index) : Option γ := do
  return multiply (← left leftIndex) (← right rightIndex)

/-! ## Products of vectors -/

/-- The coordinates in a value that is a vector of `n` scalars, or in a scalar. -/
def InVector (n : ℕ) (x : List ℕ) : Prop := InRange (Shape.elementShape n []).counts x

/-- What a multiplication of the source computes of two values, `product` of their coefficients. -/
def Multiplies {α β γ : Type} (n : ℕ)
    (multiply : (Index → Option α) → Index → (Index → Option β) → Index → Option γ)
    (product : (List ℕ → α) → (List ℕ → β) → List ℕ → γ) : Prop :=
  ∀ (left : Index → Option α) (right : Index → Option β) (leftIndex rightIndex : Index)
    (l : List ℕ → α) (r : List ℕ → β),
    (∀ x, InVector n x → left (leftIndex ++ x.map some) = some (l x)) →
    (∀ x, InVector n x → right (rightIndex ++ x.map some) = some (r x)) →
    ∀ x, InVector n x →
      multiply left (leftIndex ++ x.map some) right (rightIndex ++ x.map some) =
        some (product l r x)

theorem multiplies_elements {α β γ : Type} (n : ℕ) (multiply : α → β → γ) :
    Multiplies n (multiplyElements multiply) fun l r x => multiply (l x) (r x) := by
  intro left right leftIndex rightIndex l r hleft hright x hx
  rw [multiplyElements, hleft x hx, hright x hx]
  rfl

/-- The product of two values is that of all their scalars. -/
theorem Multiplies.congr {α β γ : Type} {n : ℕ}
    {multiply : (Index → Option α) → Index → (Index → Option β) → Index → Option γ}
    {product : (List ℕ → α) → (List ℕ → β) → List ℕ → γ} (hm : Multiplies n multiply product)
    {l : List ℕ → α} {r r' : List ℕ → β} (hr : ∀ x, InVector n x → r x = r' x) {x : List ℕ}
    (hx : InVector n x) : product l r x = product l r' x := by
  have hread {δ : Type} (value : List ℕ → δ) (y : List ℕ) :
      some (value ((([] : Index) ++ y.map some).map (Option.getD · 0))) = some (value y) := by
    simp
  have h := hm (fun index => some (l (index.map (Option.getD · 0))))
    (fun index => some (r (index.map (Option.getD · 0)))) [] [] l
  have hl := h r (fun y _ => hread l y) (fun y _ => hread r y) x hx
  have hl' := h r' (fun y _ => hread l y)
    (fun y hy => (hread r y).trans (congrArg some (hr y hy))) x hx
  exact Option.some.inj (hl.symm.trans hl')

theorem inVector_iff {n : ℕ} (hn : n ≠ 0) (x : List ℕ) : InVector n x ↔ ∃ e < n, x = [e] := by
  unfold InVector Shape.elementShape
  rw [if_neg hn]
  constructor
  · intro h
    cases h with
    | cons he h =>
        cases h
        exact ⟨_, he, rfl⟩
  · rintro ⟨e, he, rfl⟩
    exact .cons he .nil

/-- A bit monomial and a polynomial are multiplied as polynomials. -/
theorem multiplies_bitMonomial {α β : Type} (T : BitMonomial.Coefficients α β) {n : Size} {b : ℕ}
    (hn : n.toNat = 2 ^ b) (hlt : n.toNat < 2 ^ 31) :
    Multiplies n.toNat (BitMonomial.multiplySpecialization T n n) (fun degree p x =>
      BitMonomial.coefficient T n.toNat (fun r => p [r]) (degree x) (x.headD 0)) ∧
    Multiplies n.toNat (BitMonomial.multiplySpecializationSwapped T n n) (fun p degree x =>
      BitMonomial.coefficient T n.toNat (fun r => p [r]) (degree x) (x.headD 0)) := by
  have hzero : n.toNat ≠ 0 := by
    rw [hn]
    exact (Nat.two_pow_pos b).ne'
  have hboth (left : Index → Option (Option Size)) (right : Index → Option α)
      (leftIndex rightIndex : Index) (l : List ℕ → Option Size) (r : List ℕ → α)
      (hleft : ∀ x, InVector n.toNat x → left (leftIndex ++ x.map some) = some (l x))
      (hright : ∀ x, InVector n.toNat x → right (rightIndex ++ x.map some) = some (r x))
      (x : List ℕ) (hx : InVector n.toNat x) :
      BitMonomial.multiplySpecialization T n n left (leftIndex ++ x.map some) right
        (rightIndex ++ x.map some) =
          some (BitMonomial.coefficient T n.toNat (fun i => r [i]) (l x) (x.headD 0)) := by
    obtain ⟨e, he, rfl⟩ := (inVector_iff hzero x).mp hx
    have hread (i : ℕ) (hi : i < n.toNat) :
        right (BitMonomial.elementIndex rightIndex i) = some ((fun i => r [i]) i) :=
      hright [i] ((inVector_iff hzero _).mpr ⟨i, hi, rfl⟩)
    have h := BitMonomial.multiplySpecialization_eq hn (hleft [e] hx) (T := T) hread he
    rwa [if_pos hlt] at h
  refine ⟨hboth, ?_⟩
  intro left right leftIndex rightIndex l r hleft hright
  exact hboth right left rightIndex leftIndex r l hright hleft

/-! ## Indices of the operands -/

theorem elementShape_append (n : ℕ) (s : Shape) :
    s.elementShape n = s ++ Shape.elementShape n [] := by
  unfold Shape.elementShape
  split_ifs
  · rw [List.append_nil]
  · rfl

theorem mask_append {s : Shape} {c : List ℕ} (hlen : c.length = s.length) (t : Shape)
    (d : List ℕ) : mask (s ++ t) (c ++ d) = mask s c ++ mask t d :=
  List.zipWith_append hlen.symm

theorem mask_cons {e : Extent} (he : e ≠ .placeholder) (s : Shape) (v : ℕ) (c : List ℕ) :
    mask (e :: s) (v :: c) = some v :: mask s c := by
  unfold mask
  rw [List.zipWith_cons_cons, if_neg he]

theorem mask_vector {n : ℕ} {x : List ℕ} (hx : InVector n x) :
    mask (Shape.elementShape n []) x = x.map some := by
  by_cases hn : n = 0
  · unfold InVector Shape.elementShape at hx
    rw [if_pos hn] at hx
    cases hx
    exact List.zipWith_nil_right
  · obtain ⟨e, -, rfl⟩ := (inVector_iff hn x).mp hx
    rw [Shape.elementShape, if_neg hn]
    rfl

/-- The dimensions of matrices that can be multiplied. -/
theorem matrixProductShape_parts {left right s : Shape}
    (h : matrixProductShape left right = some s) :
    ∃ (lefts rights batch : Shape) (u v : Extent) (k : ℕ), left = lefts ++ [u, .static k] ∧
      right = rights ++ [.static k, v] ∧ s = batch ++ [u, v] ∧ u ≠ .placeholder ∧
      v ≠ .placeholder ∧ lefts.Extends batch ∧ rights.Extends batch := by
  unfold matrixProductShape at h
  split at h
  · rename_i k u lefts v l rights hleft hright
    split_ifs at h with hadmitted
    obtain ⟨rfl, hu, hv⟩ := hadmitted
    obtain ⟨batch, hbatch, rfl⟩ := Option.map_eq_some_iff.mp h
    obtain ⟨hlefts, hrights⟩ := commonExtents_extends hbatch
    refine ⟨lefts.reverse, rights.reverse, batch, u, v, k, ?_, ?_, rfl, hu, hv, hlefts, hrights⟩
    · rw [← List.reverse_reverse left, hleft]
      simp
    · rw [← List.reverse_reverse right, hright]
      simp
  · cases h

theorem matrixVectorProductShape_parts {matrix vector s : Shape}
    (h : matrixVectorProductShape matrix vector = some s) :
    ∃ (matrices vectors batch : Shape) (u : Extent) (k : ℕ), matrix = matrices ++ [u, .static k] ∧
      vector = vectors ++ [.static k] ∧ s = batch ++ [u] ∧ u ≠ .placeholder ∧
      commonExtents matrices vectors = some batch := by
  unfold matrixVectorProductShape at h
  split at h
  · rename_i k u matrices l vectors hmatrix hvector
    split_ifs at h with hadmitted
    obtain ⟨rfl, hu⟩ := hadmitted
    obtain ⟨batch, hbatch, rfl⟩ := Option.map_eq_some_iff.mp h
    refine ⟨matrices.reverse, vectors.reverse, batch, u, k, ?_, ?_, rfl, hu, hbatch⟩
    · rw [← List.reverse_reverse matrix, hmatrix]
      simp
    · rw [← List.reverse_reverse vector, hvector]
      simp
  · cases h

section

variable {α β γ : Type} {n : ℕ}
  {multiply : (Index → Option α) → Index → (Index → Option β) → Index → Option γ}
  {product : (List ℕ → α) → (List ℕ → β) → List ℕ → γ} {add : γ → γ → γ}

/-- The coordinates of two groups of dimensions. -/
theorem inRange_append {s t : Shape} {c d : List ℕ} (h : InRange (Shape.counts (s ++ t)) (c ++ d))
    (hlen : c.length = s.length) : InRange s.counts c ∧ InRange t.counts d := by
  have hcounts : s.counts.length = c.length := by rw [Shape.counts, List.length_map, hlen]
  have happend : Shape.counts (s ++ t) = s.counts ++ t.counts := List.map_append
  rw [happend] at h
  have htake := List.forall₂_take c.length h
  have hdrop := List.forall₂_drop c.length h
  rw [List.take_left, List.take_left' hcounts] at htake
  rw [List.drop_left, List.drop_left' hcounts] at hdrop
  exact ⟨htake, hdrop⟩

/-- An index of a batch, of dimensions that are not broadcast, and of a coefficient. -/
theorem mask_parts {batch : Shape} {b : List ℕ} {e : Shape} {c x : List ℕ}
    (hb : InRange batch.counts b) (he : ∀ d ∈ e, d ≠ Extent.placeholder)
    (hc : InRange e.counts c) (hx : InVector n x) :
    mask ((batch ++ e).elementShape n) (b ++ (c ++ x)) =
        mask batch b ++ (c.map some ++ x.map some) ∧
      InRange ((batch ++ e).elementShape n).counts (b ++ (c ++ x)) := by
  have hmask : mask e c = c.map some := by
    induction e generalizing c with
    | nil =>
        cases hc
        rfl
    | cons d e ih =>
        cases hc with
        | cons _ hc =>
            rw [mask_cons (he d List.mem_cons_self),
              ih (fun d hd => he d (List.mem_cons_of_mem _ hd)) hc, List.map_cons]
  rw [elementShape_append, List.append_assoc]
  constructor
  · rw [mask_append (length_of_inRange hb), mask_append (length_of_inRange hc), hmask,
      mask_vector hx]
  · rw [Shape.counts, List.map_append, List.map_append]
    exact List.rel_append hb (List.rel_append hc hx)

/-- An operand is read at such an index, if its own batch is extended to that of the index. -/
theorem Operand.HasValue.read {o : Operand α} {value : List ℕ → α} (h : o.HasValue value)
    {parts batch e : Shape} {b c x : List ℕ} (hshape : o.shape = parts ++ e)
    (hsize : o.vectorSize = n) (hparts : parts.Extends batch) (hb : InRange batch.counts b)
    (he : ∀ d ∈ e, d ≠ Extent.placeholder) (hc : InRange e.counts c) (hx : InVector n x) :
    o.evaluate ((mask batch b ++ c.map some) ++ x.map some) = some (value (b ++ (c ++ x))) := by
  obtain ⟨hmask, hrange⟩ := mask_parts hb he hc hx
  rw [List.append_assoc, ← hmask]
  refine h _ _ ?_ hrange
  rw [Operand.elementShape, hsize, hshape]
  exact Shape.Extends.elementShape (List.rel_append hparts (Shape.Extends.refl _)) n

/-- One coordinate in the place of some others. -/
theorem splice {δ : Type} (a c t : List δ) (k : δ) {i j : ℕ} (hi : i = a.length)
    (hj : j = (a ++ c).length) :
    (a ++ (c ++ t)).take i ++ k :: (a ++ (c ++ t)).drop j = (a ++ [k]) ++ t := by
  have hdrop : (a ++ (c ++ t)).drop (a ++ c).length = t := by
    rw [← List.append_assoc, List.drop_left]
  rw [hi, hj, List.take_left, hdrop, List.append_assoc]
  rfl

/-! ## The sums over the inner dimension -/

/-- Operands that can be multiplied: of matrices with values of `n` scalars. -/
structure Matrices (left : Operand α) (right : Operand β) (n : ℕ) (s : Shape) : Prop where
  shape : matrixProductShape left.shape right.shape = some s
  /-- `static_assert(extent != placeholder_extent)` -/
  sum_extent : left.sumExtent ≠ 0
  left_vectorSize : left.vectorSize = n
  right_vectorSize : right.vectorSize = n

/-- A matrix and a vector that can be multiplied. -/
structure MatrixAndVector (matrix : Operand α) (vector : Operand β) (n : ℕ) (s : Shape) :
    Prop where
  shape : matrixVectorProductShape matrix.shape vector.shape = some s
  sum_extent : matrix.sumExtent ≠ 0
  matrix_vectorSize : matrix.vectorSize = n
  vector_vectorSize : vector.vectorSize = n

theorem MatrixAndVector.rank_vector {matrix : Operand α} {vector : Operand β} {s : Shape}
    (h : MatrixAndVector matrix vector n s) {b : List ℕ} (hb : b.length + 1 = s.length) :
    vector.rank = b.length + 1 := by
  obtain ⟨matrices, vectors, batch, u, k, -, hvector, rfl, -, hcommon⟩ :=
    matrixVectorProductShape_parts h.shape
  rw [Operand.rank, hvector, hb, List.length_append, List.length_append,
    (commonExtents_extends hcommon).2.length_eq]
  rfl

/-- The terms that are added up for an element of a product of matrices. -/
def matrixTerms (product : (List ℕ → α) → (List ℕ → β) → List ℕ → γ) (l : List ℕ → α)
    (r : List ℕ → β) (extent : ℕ) (b : List ℕ) (row column : ℕ) (x : List ℕ) : List γ :=
  (List.range extent).map fun k =>
    product (fun x => l (b ++ row :: k :: x)) (fun x => r (b ++ k :: column :: x)) x

/-- The terms that are added up for an element of a product with a vector. -/
def vectorTerms (product : (List ℕ → α) → (List ℕ → β) → List ℕ → γ) (l : List ℕ → α)
    (r : List ℕ → β) (extent : ℕ) (b : List ℕ) (row : ℕ) (x : List ℕ) : List γ :=
  (List.range extent).map fun k =>
    product (fun x => l (b ++ row :: k :: x)) (fun x => r (b ++ k :: x)) x

variable {left : Operand α} {right : Operand β} {s : Shape} {l : List ℕ → α} {r : List ℕ → β}
  {b : List ℕ} {row column : ℕ} {x : List ℕ}

/-- A sum of products whose operands are read at indices of their own. -/
theorem sum_eq (hm : Multiplies n multiply product) (hx : InVector n x) {extent : ℕ}
    {leftIndex rightIndex p q : ℕ → Index} {f : ℕ → List ℕ → α}
    {g : ℕ → List ℕ → β} (hleftIndex : ∀ k, leftIndex k = p k ++ x.map some)
    (hrightIndex : ∀ k, rightIndex k = q k ++ x.map some)
    (hleft : ∀ k < extent, ∀ x, InVector n x →
      left.evaluate (p k ++ x.map some) = some (f k x))
    (hright : ∀ k < extent, ∀ x, InVector n x →
      right.evaluate (q k ++ x.map some) = some (g k x)) :
    (do
      let terms ← (List.range extent).mapM fun k =>
        multiply left.evaluate (leftIndex k) right.evaluate (rightIndex k)
      foldRight add terms) =
      foldRight add ((List.range extent).map fun k => product (f k) (g k) x) := by
  have hterm (k : ℕ) (hk : k ∈ List.range extent) :
      multiply left.evaluate (leftIndex k) right.evaluate (rightIndex k) =
        some (product (f k) (g k) x) := by
    have hk : k < extent := List.mem_range.mp hk
    rw [hleftIndex, hrightIndex]
    exact hm _ _ _ _ _ _ (hleft k hk) (hright k hk) x hx
  rw [mapM_some hterm]
  rfl

theorem Operand.sumExtent_eq {matrices : Shape} {u : Extent} {extent : ℕ}
    (h : left.shape = matrices ++ [u, .static extent]) : left.sumExtent = extent := by
  rw [Operand.sumExtent, h]
  simp [Extent.count]

theorem matrixProduct_mask (hadmitted : Matrices left right n s) (hl : left.HasValue l)
    (hr : right.HasValue r) (hm : Multiplies n multiply product) (hb : b.length + 2 = s.length)
    (hrange : InRange s.counts (b ++ [row, column])) (hx : InVector n x) :
    matrixProduct multiply add left right
        (.multidimensional (mask (s.elementShape n) (b ++ row :: column :: x))) =
      foldRight add (matrixTerms product l r left.sumExtent b row column x) := by
  obtain ⟨lefts, rights, batch, u, v, extent, hleft, hright, rfl, hu, hv, hlefts, hrights⟩ :=
    matrixProductShape_parts hadmitted.shape
  have hextent : left.sumExtent = extent := Operand.sumExtent_eq hleft
  obtain ⟨hbatch, houter⟩ := inRange_append hrange (by simpa using hb)
  have hlen := length_mask (length_of_inRange hbatch)
  have hleftRank : left.rank = batch.length + 2 := by
    rw [Operand.rank, hleft, List.length_append, hlefts.length_eq]
    rfl
  have hrightRank : right.rank = batch.length + 2 := by
    rw [Operand.rank, hright, List.length_append, hrights.length_eq]
    rfl
  have hindex : mask ((batch ++ [u, v]).elementShape n) (b ++ row :: column :: x) =
      mask batch b ++ some row :: some column :: x.map some :=
    (mask_parts hbatch (by simp [hu, hv]) houter hx).1
  cases houter with
  | cons hrow hcolumn =>
  cases hcolumn with
  | cons hcolumn _ =>
  rw [hindex, matrixProduct, hextent]
  -- each operand has the inner coordinate in the place of the one that it does not have
  refine sum_eq (p := fun k => mask batch b ++ [row, k].map some)
    (q := fun k => mask batch b ++ [k, column].map some)
    (f := fun k x => l (b ++ row :: k :: x))
    (g := fun k x => r (b ++ k :: column :: x)) hm hx ?_ ?_ ?_ ?_
  · intro k
    have h := splice (mask batch b ++ [some row]) [some column] (x.map some) (some k)
      (i := left.rank - 1) (j := left.rank) (by simp [hleftRank, hlen]) (by simp [hleftRank, hlen])
    rw [List.append_assoc] at h
    exact h.trans (by simp)
  · intro k
    have h := splice (mask batch b) [some row] (some column :: x.map some) (some k)
      (i := right.rank - 2) (j := right.rank - 1) (by simp [hrightRank, hlen])
      (by simp [hrightRank, hlen])
    exact h.trans (by simp)
  · intro k hk x hx
    exact hl.read hleft hadmitted.left_vectorSize hlefts hbatch (by simp [hu])
      (.cons hrow (.cons hk .nil)) hx
  · intro k hk x hx
    exact hr.read hright hadmitted.right_vectorSize hrights hbatch (by simp [hv])
      (.cons hk (.cons hcolumn .nil)) hx

theorem matrixVectorProduct_mask (hadmitted : MatrixAndVector left right n s)
    (hl : left.HasValue l) (hr : right.HasValue r) (hm : Multiplies n multiply product)
    (hb : b.length + 1 = s.length) (hrange : InRange s.counts (b ++ [row])) (hx : InVector n x) :
    matrixVectorProduct multiply add left right
        (.multidimensional (mask (s.elementShape n) (b ++ row :: x))) =
      foldRight add (vectorTerms product l r left.sumExtent b row x) := by
  obtain ⟨matrices, vectors, batch, u, extent, hleft, hright, rfl, hu, hcommon⟩ :=
    matrixVectorProductShape_parts hadmitted.shape
  obtain ⟨hmatrices, hvectors⟩ := commonExtents_extends hcommon
  have hextent : left.sumExtent = extent := Operand.sumExtent_eq hleft
  obtain ⟨hbatch, houter⟩ := inRange_append hrange (by simpa using hb)
  have hlen := length_mask (length_of_inRange hbatch)
  have hleftRank : left.rank = batch.length + 2 := by
    rw [Operand.rank, hleft, List.length_append, hmatrices.length_eq]
    rfl
  have hrightRank : right.rank = batch.length + 1 := by
    rw [Operand.rank, hright, List.length_append, hvectors.length_eq]
    rfl
  have hindex : mask ((batch ++ [u]).elementShape n) (b ++ row :: x) =
      mask batch b ++ some row :: x.map some :=
    (mask_parts hbatch (by simp [hu]) houter hx).1
  cases houter with
  | cons hrow _ =>
  rw [hindex, matrixVectorProduct, hextent]
  -- the matrix has the inner coordinate as well, the vector instead of the row
  refine sum_eq (p := fun k => mask batch b ++ [row, k].map some)
    (q := fun k => mask batch b ++ [k].map some)
    (f := fun k x => l (b ++ row :: k :: x))
    (g := fun k x => r (b ++ k :: x)) hm hx ?_ ?_ ?_ ?_
  · intro k
    have h := splice (mask batch b ++ [some row]) [] (x.map some) (some k)
      (i := left.rank - 1) (j := left.rank - 1) (by simp [hleftRank, hlen])
      (by simp [hleftRank, hlen])
    rw [List.append_assoc] at h
    exact h.trans (by simp)
  · intro k
    have h := splice (mask batch b) [some row] (x.map some) (some k)
      (i := right.rank - 1) (j := right.rank) (by simp [hrightRank, hlen])
      (by simp [hrightRank, hlen])
    exact h.trans (by simp)
  · intro k hk x hx
    exact hl.read hleft hadmitted.matrix_vectorSize hmatrices hbatch (by simp [hu])
      (.cons hrow (.cons hk .nil)) hx
  · intro k hk x hx
    exact hr.read hright hadmitted.vector_vectorSize hvectors hbatch (by simp)
      (.cons hk .nil) hx

/-! ## Evaluation through the queue -/

/-- The sum of all terms, for everything that the sum of two elements means. -/
def IsSum (add : γ → γ → γ) (terms : List γ) (y : γ) : Prop :=
  foldRight add terms = some y ∧
    ∀ (R : Type) [AddCommMonoid R] (value : γ → R),
      (∀ a b, value (add a b) = value a + value b) → value y = (terms.map value).sum

theorem exists_isSum (add : γ → γ → γ) {terms : List γ} (h : terms ≠ []) :
    ∃ y, IsSum add terms y := by
  have hsum (R : Type) [AddCommMonoid R] (value : γ → R)
      (hadd : ∀ a b, value (add a b) = value a + value b) :
      (foldRight add terms).map value = some (terms.map value).sum := foldRight_sum hadd h
  obtain ⟨y, hy, -⟩ := Option.map_eq_some_iff.mp (hsum Unit (fun _ => ()) fun _ _ => rfl)
  refine ⟨y, hy, fun R _ value hadd => ?_⟩
  have h := hsum R value hadd
  rw [hy, Option.map_some] at h
  exact Option.some.inj h

/-- A work item that is not given a linear index. -/
theorem execute_offset {evaluate : Position → Option γ} {t : Shape}
    (hsame : sameElementShape left right t = false) {c : List ℕ} (hc : InRange t.counts c) :
    execute left right t evaluate (offset t.counts c) =
      evaluate (.multidimensional (mask t c)) := by
  rw [execute, if_neg (by rw [hsame]; exact Bool.false_ne_true), fromLinearIndex_eq,
    coordinates_offset hc]

/-- A vector has one dimension less than a matrix. -/
theorem sameElementShape_vector (hadmitted : MatrixAndVector left right n s) :
    sameElementShape left right (s.elementShape n) = false := by
  obtain ⟨matrices, vectors, batch, u, extent, hleft, -, rfl, -, hcommon⟩ :=
    matrixVectorProductShape_parts hadmitted.shape
  by_contra h
  rw [Bool.not_eq_false, sameElementShape, Bool.and_eq_true] at h
  have hlength := Shape.length_eq_of_sameType (left.same _ h.1)
  rw [hadmitted.matrix_vectorSize, length_elementShape, length_elementShape, hleft,
    List.length_append, List.length_append, (commonExtents_extends hcommon).1.length_eq] at hlength
  simp at hlength

theorem inRange_element {c : List ℕ} (hrange : InRange s.counts c) (hx : InVector n x) :
    InRange (s.elementShape n).counts (c ++ x) := by
  rw [elementShape_append, Shape.counts, List.map_append]
  exact List.rel_append hrange hx

theorem execute_matrixProduct (hadmitted : Matrices left right n s)
    (hsame : sameElementShape left right (s.elementShape n) = false) (hl : left.HasValue l)
    (hr : right.HasValue r) (hm : Multiplies n multiply product) (hb : b.length + 2 = s.length)
    (hrange : InRange s.counts (b ++ [row, column])) (hx : InVector n x) :
    execute left right (s.elementShape n) (matrixProduct multiply add left right)
        (offset (s.elementShape n).counts (b ++ row :: column :: x)) =
      foldRight add (matrixTerms product l r left.sumExtent b row column x) := by
  have hc := inRange_element hrange hx
  rw [List.append_assoc] at hc
  exact (execute_offset hsame hc).trans (matrixProduct_mask hadmitted hl hr hm hb hrange hx)

theorem execute_matrixVectorProduct (hadmitted : MatrixAndVector left right n s)
    (hl : left.HasValue l) (hr : right.HasValue r) (hm : Multiplies n multiply product)
    (hb : b.length + 1 = s.length) (hrange : InRange s.counts (b ++ [row])) (hx : InVector n x) :
    execute left right (s.elementShape n) (matrixVectorProduct multiply add left right)
        (offset (s.elementShape n).counts (b ++ row :: x)) =
      foldRight add (vectorTerms product l r left.sumExtent b row x) := by
  have hc := inRange_element hrange hx
  rw [List.append_assoc] at hc
  exact (execute_offset (sameElementShape_vector hadmitted) hc).trans
    (matrixVectorProduct_mask hadmitted hl hr hm hb hrange hx)

end

/-- The vector as a matrix of one column. -/
structure IsColumn {β : Type} (vector column : Operand β) (n : ℕ) (e : Extent)
    (v w : List ℕ → β) : Prop where
  shape : column.shape = vector.shape ++ [e]
  count : e.count = 1
  ne_placeholder : e ≠ .placeholder
  vectorSize : column.vectorSize = n
  hasValue : column.HasValue w
  value : ∀ c x, c.length = vector.rank → InVector n x → w (c ++ 0 :: x) = v (c ++ x)

/-- A dimension of extent one does not move the elements. -/
theorem offset_column {s : Shape} {c : List ℕ} (hc : c.length = s.length) (t : Shape)
    (x : List ℕ) :
    offset (Shape.counts (s ++ .static 1 :: t)) (project (s ++ .static 1 :: t) (c ++ 0 :: x)) =
      offset (Shape.counts (s ++ t)) (project (s ++ t) (c ++ x)) := by
  induction s generalizing c with
  | nil =>
      obtain rfl := List.length_eq_zero_iff.mp hc
      show 0 * _ + offset _ _ = _
      rw [Nat.zero_mul, Nat.zero_add]
      rfl
  | cons e s ih =>
      cases c with
      | nil => cases hc
      | cons v c =>
          have hprod : (Shape.counts (s ++ .static 1 :: t)).prod =
              (Shape.counts (s ++ t)).prod := by
            simp [Shape.counts, Extent.count]
          show _ * (Shape.counts (s ++ .static 1 :: t)).prod + offset _ _ =
            _ * (Shape.counts (s ++ t)).prod + offset _ _
          rw [hprod]
          exact congrArg _ (ih (Nat.succ.inj hc))

/-- The same elements in memory, under a shape with a last dimension of extent one. -/
theorem isColumn_tensor {β : Type} (data : ℕ → β) (n : ℕ) (s : Shape) :
    IsColumn (.tensor data n s) (.tensor data n (s ++ [Extent.static 1])) n (.static 1)
      (fun c => data (offset (s.elementShape n).counts (project (s.elementShape n) c)))
      (fun c => data (offset (Shape.elementShape n (s ++ [Extent.static 1])).counts
        (project (Shape.elementShape n (s ++ [Extent.static 1])) c))) where
  shape := rfl
  count := rfl
  ne_placeholder := by simp
  vectorSize := rfl
  hasValue := Operand.hasValue_tensor data n _
  value c x hc _ := by
    rw [elementShape_append, List.append_assoc, elementShape_append n s]
    exact congrArg data (offset_column hc _ x)

theorem IsColumn.matrices {α β : Type} {matrix : Operand α} {vector column : Operand β} {n : ℕ}
    {e : Extent} {v w : List ℕ → β} {s : Shape} (h : IsColumn vector column n e v w)
    (hadmitted : MatrixAndVector matrix vector n s) : Matrices matrix column n (s ++ [e]) where
  shape := by
    obtain ⟨matrices, vectors, batch, u, extent, hmatrix, hvector, rfl, hu, hcommon⟩ :=
      matrixVectorProductShape_parts hadmitted.shape
    rw [h.shape, hmatrix, hvector, matrixProductShape]
    simp [hu, h.ne_placeholder, hcommon]
  sum_extent := hadmitted.sum_extent
  left_vectorSize := hadmitted.matrix_vectorSize
  right_vectorSize := h.vectorSize

section

variable {α β γ : Type} {n : ℕ}
  {multiply : (Index → Option α) → Index → (Index → Option β) → Index → Option γ}
  {product : (List ℕ → α) → (List ℕ → β) → List ℕ → γ}

/-- **Batched products of matrices.** Each element that a kernel computes of a multidimensional
index is the sum over the inner dimension, and a product with a vector is the product with the
matrix of one column. -/
theorem matrixProducts (hm : Multiplies n multiply product) (add : γ → γ → γ) (left : Operand α)
    (l : List ℕ → α) (hl : left.HasValue l) :
    (∀ (right : Operand β) (r : List ℕ → β) (s : Shape), right.HasValue r →
      Matrices left right n s → sameElementShape left right (s.elementShape n) = false →
      ∀ b row column x, b.length + 2 = s.length → InRange s.counts (b ++ [row, column]) →
        InVector n x → ∃ y,
          execute left right (s.elementShape n) (matrixProduct multiply add left right)
            (offset (s.elementShape n).counts (b ++ row :: column :: x)) = some y ∧
          IsSum add (matrixTerms product l r left.sumExtent b row column x) y) ∧
    (∀ (vector : Operand β) (v : List ℕ → β) (s : Shape), vector.HasValue v →
      MatrixAndVector left vector n s →
      ∀ b row x, b.length + 1 = s.length → InRange s.counts (b ++ [row]) → InVector n x → ∃ y,
        execute left vector (s.elementShape n) (matrixVectorProduct multiply add left vector)
          (offset (s.elementShape n).counts (b ++ row :: x)) = some y ∧
        IsSum add (vectorTerms product l v left.sumExtent b row x) y) ∧
    ∀ (vector column : Operand β) (e : Extent) (v w : List ℕ → β) (s : Shape), vector.HasValue v →
      MatrixAndVector left vector n s → IsColumn vector column n e v w →
      Matrices left column n (s ++ [e]) ∧
      (sameElementShape left column ((s ++ [e]).elementShape n) = false →
        ∀ b row x, b.length + 1 = s.length → InRange s.counts (b ++ [row]) → InVector n x →
          execute left column ((s ++ [e]).elementShape n) (matrixProduct multiply add left column)
            (offset ((s ++ [e]).elementShape n).counts (b ++ row :: 0 :: x)) =
          execute left vector (s.elementShape n) (matrixVectorProduct multiply add left vector)
            (offset (s.elementShape n).counts (b ++ row :: x))) := by
  have hne {δ : Type} {f : ℕ → δ} {extent : ℕ} (h : extent ≠ 0) :
      (List.range extent).map f ≠ [] := by simpa using h
  refine ⟨?_, ?_, ?_⟩
  · intro right r s hr hadmitted hsame b row column x hb hrange hx
    obtain ⟨y, hy⟩ := exists_isSum add (hne hadmitted.sum_extent)
    exact ⟨y, (execute_matrixProduct hadmitted hsame hl hr hm hb hrange hx).trans hy.1, hy⟩
  · intro vector v s hv hadmitted b row x hb hrange hx
    obtain ⟨y, hy⟩ := exists_isSum add (hne hadmitted.sum_extent)
    exact ⟨y, (execute_matrixVectorProduct hadmitted hl hv hm hb hrange hx).trans hy.1, hy⟩
  · intro vector column e v w s hv hadmitted hcolumn
    have hmatrices := hcolumn.matrices hadmitted
    refine ⟨hmatrices, fun hsame b row x hb hrange hx => ?_⟩
    -- the only column of the matrix has index zero
    have hrange' : InRange (Shape.counts (s ++ [e])) (b ++ [row, 0]) := by
      have hzero : InRange (Shape.counts [e]) [0] := .cons (by simp [hcolumn.count]) .nil
      rw [Shape.counts, List.map_append, List.append_cons]
      exact List.rel_append hrange hzero
    rw [execute_matrixProduct hmatrices hsame hl hcolumn.hasValue hm (by simpa using hb) hrange' hx,
      execute_matrixVectorProduct hadmitted hl hv hm hb hrange hx]
    congr 1
    apply List.map_congr_left
    intro k _
    refine hm.congr (fun x hx => ?_) hx
    have h := hcolumn.value (b ++ [k]) x (by simp [hadmitted.rank_vector hb]) hx
    rwa [List.append_assoc, List.append_assoc] at h

/-- Two matrices times one matrix that is broadcast to both, and one matrix times a vector. -/
theorem matrixProducts_batch :
    (∃ y, execute (.tensor Int.ofNat 0 [.dynamic 2, .static 2, .static 3])
        (.tensor Int.ofNat 0 [.placeholder, .static 3, .static 2])
        [.dynamic 2, .static 2, .static 2] (matrixProduct (multiplyElements (· * ·)) (· + ·)
          (.tensor Int.ofNat 0 [.dynamic 2, .static 2, .static 3])
          (.tensor Int.ofNat 0 [.placeholder, .static 3, .static 2])) 6 = some y ∧
      IsSum (· + ·) [9 * 0, 10 * 2, 11 * 4] y) ∧
    ∃ y, execute (.tensor Int.ofNat 0 [.static 2, .static 3]) (.tensor Int.ofNat 0 [.static 3])
        [.static 2] (matrixVectorProduct (multiplyElements (· * ·)) (· + ·)
          (.tensor Int.ofNat 0 [.static 2, .static 3]) (.tensor Int.ofNat 0 [.static 3])) 1 =
        some y ∧
      IsSum (· + ·) [3 * 0, 4 * 1, 5 * 2] y :=
  ⟨(matrixProducts (multiplies_elements 0 (· * ·)) (· + ·) _ _
      (Operand.hasValue_tensor Int.ofNat 0 [.dynamic 2, .static 2, .static 3])).1 _ _
      [.dynamic 2, .static 2, .static 2]
      (Operand.hasValue_tensor Int.ofNat 0 [.placeholder, .static 3, .static 2])
      ⟨rfl, by decide, rfl, rfl⟩ rfl [1] 1 0 [] rfl
      (.cons (by decide) (.cons (by decide) (.cons (by decide) .nil))) .nil,
    (matrixProducts (multiplies_elements 0 (· * ·)) (· + ·) _ _
      (Operand.hasValue_tensor Int.ofNat 0 [.static 2, .static 3])).2.1 _ _ [.static 2]
      (Operand.hasValue_tensor Int.ofNat 0 [.static 3]) ⟨rfl, by decide, rfl, rfl⟩ [] 1 [] rfl
      (.cons (by decide) .nil) .nil⟩

/-- A placeholder is no extent of a column, and the product of square matrices is not evaluated at
a linear index. -/
theorem not_multiplies_square :
    (matrixVectorProductShape [.static 2, .static 3] [.static 3] = some [.static 2] ∧
      Shape.unsqueeze [.static 3] (-1) = some [.static 3, .placeholder] ∧
      matrixProductShape [.static 2, .static 3] [.static 3, .placeholder] = none) ∧
    matrixProductShape [.static 2, .static 2] [.static 2, .static 2] =
      some [.static 2, .static 2] ∧
    execute (.tensor Int.ofNat 0 [.static 2, .static 2])
      (.tensor Int.ofNat 0 [.static 2, .static 2]) [.static 2, .static 2]
      (matrixProduct (multiplyElements (· * ·)) (· + ·)
        (.tensor Int.ofNat 0 [.static 2, .static 2])
        (.tensor Int.ofNat 0 [.static 2, .static 2])) 0 = none := by
  decide

end

end Hmpc.Expr.MatrixProduct
