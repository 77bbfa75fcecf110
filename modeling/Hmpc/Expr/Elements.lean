/-
# Hmpc.Expr.Elements -- the elements of an expression of vectors

A kernel evaluates an expression of shape `s` at all linear indices of its element shape. What it
gets of a tensor, of an operator and of a vector that is broadcast is stated as one rule each, so
that the elements of a larger expression follow without looking at indices again.
-/
import Hmpc.Expr.Pointwise

namespace Hmpc.Expr

open Hmpc.Lib.MixedRadix

namespace ArrayExpression

variable {V : Type} {m : Interpretation V} {other : ArrayExpression → Position → Option V}
  {s : Shape} {n : ℕ}

/-- The elements of an expression of shape `s`, whose values are vectors of size `n`. -/
structure HasElements (m : Interpretation V) (other : ArrayExpression → Position → Option V)
    (e : ArrayExpression) (s : Shape) (n : ℕ) (data : ℕ → V) : Prop where
  shape : e.shape = some s
  vectorSize : e.vectorSize = n
  element : ∀ k < s.size * n,
    e.evaluate m other (.multidimensional (fromLinearIndex k (s.elementShape n))) = some (data k)

theorem commonExtents_self (s : Shape) : commonExtents s s = some s := by
  induction s with
  | nil => rfl
  | cons extent s ih =>
      have hextent : commonExtent extent extent = some extent := by
        cases extent <;> simp [commonExtent]
      simp [commonExtents, hextent, ih]

theorem commonShape_self (s : Shape) : commonShape s s = some s := by
  unfold commonShape
  split_ifs
  · rfl
  · exact commonExtents_self s

theorem commonShape_nil (s : Shape) : commonShape s [] = some s := by
  unfold commonShape
  split_ifs with hs
  · rw [List.eq_nil_of_length_eq_zero hs]
  · rfl
  · rename_i hnil
    exact absurd rfl hnil

theorem commonExtents_replicate (s : Shape) :
    commonExtents (List.replicate s.length .placeholder) s = some s := by
  induction s with
  | nil => rfl
  | cons extent s ih => simp [List.replicate_succ, commonExtents, commonExtent, ih]

theorem commonShape_replicate (s : Shape) :
    commonShape (List.replicate s.length .placeholder) s = some s := by
  unfold commonShape
  split_ifs with hplaceholders hs
  · rfl
  · rw [List.length_replicate] at hplaceholders
    exact absurd hs hplaceholders
  · exact commonExtents_replicate s

theorem elementShape_of_pos (hn : n ≠ 0) (s : Shape) : s.elementShape n = s ++ [.static n] :=
  if_neg hn

theorem prod_counts_elementShape (hn : n ≠ 0) (s : Shape) :
    (s.elementShape n).counts.prod = s.size * n := by
  rw [elementShape_of_pos hn, Shape.size_eq, Shape.counts, Shape.counts, List.map_append,
    List.prod_append, List.map_singleton, List.prod_singleton]
  rfl

/-- A tensor has its data. -/
theorem HasElements.tensor (hn : n ≠ 0) (type : ℕ) (tag : ℕ) :
    HasElements m other (.tensor ⟨type, n⟩ tag s) s n (m.tensor tag) where
  shape := rfl
  vectorSize := rfl
  element k hk := by
    have hprod := prod_counts_elementShape hn s
    have hrange := inRange_coordinates (hprod ▸ Nat.zero_lt_of_lt hk) k
    rw [fromLinearIndex_eq, ArrayExpression.evaluate,
      readTensor_mask (Or.inr (Shape.Extends.refl _)) hrange, project_coordinates,
      offset_coordinates (hprod ▸ hk)]

/-- Operators act elementwise. -/
theorem HasElements.binary {left right : ArrayExpression} {l r : ℕ → V}
    (hleft : HasElements m other left s n l) (hright : HasElements m other right s n r)
    (operation : BinaryOperation) :
    HasElements m other (.binary operation left right) s n
      (fun k => m.apply operation (l k) (r k)) where
  shape := by
    rw [ArrayExpression.shape, hleft.shape, hright.shape]
    exact commonShape_self s
  vectorSize := by
    rw [ArrayExpression.vectorSize, hleft.vectorSize, hright.vectorSize]
    exact ite_self n
  element k hk := by
    rw [ArrayExpression.evaluate, hleft.element k hk, hright.element k hk]
    rfl

/-- A scalar is an operand at each element. -/
theorem HasElements.binary_value {left : ArrayExpression} {l : ℕ → V}
    (hleft : HasElements m other left s n l) (operation : BinaryOperation) (type tag : ℕ) :
    HasElements m other (.binary operation left (.value ⟨type, 0⟩ tag)) s n
      (fun k => m.apply operation (l k) (m.value tag)) where
  shape := by
    rw [ArrayExpression.shape, hleft.shape]
    exact commonShape_nil s
  vectorSize := by
    rw [ArrayExpression.vectorSize, hleft.vectorSize]
    split_ifs with hzero
    · exact hzero.symm
    · rfl
  element k hk := by
    rw [ArrayExpression.evaluate, hleft.element k hk]
    rfl

/-- The scalar may also be the left operand. -/
theorem HasElements.value_binary {right : ArrayExpression} {r : ℕ → V}
    (hright : HasElements m other right s n r) (operation : BinaryOperation) (type tag : ℕ) :
    HasElements m other (.binary operation (.value ⟨type, 0⟩ tag) right) s n
      (fun k => m.apply operation (m.value tag) (r k)) where
  shape := by
    rw [ArrayExpression.shape, hright.shape]
    rfl
  vectorSize := by
    rw [ArrayExpression.vectorSize, hright.vectorSize]
    exact if_pos rfl
  element k hk := by
    rw [ArrayExpression.evaluate, hright.element k hk]
    rfl

/-! ## Vectors that are broadcast -/

/-- `scan_range<rank>` with `unsqueeze(e, minus_one)` -/
def unsqueezed (rank : ℕ) (e : ArrayExpression) : ArrayExpression :=
  (List.range rank).foldl (fun e _ => .unsqueeze (-1) e) e

theorem unsqueezed_succ (rank : ℕ) (e : ArrayExpression) :
    unsqueezed (rank + 1) e = .unsqueeze (-1) (unsqueezed rank e) := by
  rw [unsqueezed, List.range_succ, List.foldl_concat]
  rfl

theorem vectorSize_unsqueezed (rank : ℕ) (e : ArrayExpression) :
    (unsqueezed rank e).vectorSize = e.vectorSize := by
  induction rank with
  | zero => rfl
  | succ rank ih => rw [unsqueezed_succ, ArrayExpression.vectorSize, ih]

/-- The last of some dimensions. -/
theorem dimension_minus_one (rank : ℕ) : dimension (rank + 1) (-1) = some rank := by
  unfold dimension
  rw [if_pos (by omega), if_pos (by omega)]
  congr 1
  omega

theorem shape_unsqueezed {e : ArrayExpression} (he : e.shape = some []) (rank : ℕ) :
    (unsqueezed rank e).shape = some (List.replicate rank .placeholder) := by
  induction rank with
  | zero => exact he
  | succ rank ih =>
      rw [unsqueezed_succ, ArrayExpression.shape, ih, Option.bind_some, Shape.unsqueeze,
        List.length_replicate, dimension_minus_one]
      simp [List.replicate_succ']

/-- Each unsqueeze drops the coordinate before the one in the vector. -/
theorem evaluate_unsqueezed {e : ArrayExpression} (he : e.vectorSize ≠ 0) (rank : ℕ) :
    ∀ (index : Index) (j : Option ℕ), index.length = rank →
      (unsqueezed rank e).evaluate m other (.multidimensional (index ++ [j])) =
        e.evaluate m other (.multidimensional [j]) := by
  induction rank with
  | zero =>
      intro index j hlen
      rw [List.eq_nil_of_length_eq_zero hlen]
      rfl
  | succ rank ih =>
      intro index j hlen
      have hlength : (index ++ [j]).length =
          rank + 1 + if (unsqueezed rank e).vectorSize = 0 then 0 else 1 := by
        rw [vectorSize_unsqueezed, if_neg he, List.length_append, hlen, List.length_singleton]
      have herase : (index ++ [j]).eraseIdx rank = index.eraseIdx rank ++ [j] :=
        List.eraseIdx_append_of_lt_length (by omega) [j]
      rw [unsqueezed_succ, ArrayExpression.evaluate,
        unsqueezeForElementIndex_eq hlength (dimension_minus_one rank), Option.bind_eq_bind,
        Option.bind_some, herase]
      exact ih _ j (by rw [List.length_eraseIdx_of_lt (by omega), hlen, Nat.add_sub_cancel])

/-- The last coordinate is the one in the vector. -/
theorem fromLinearIndex_vector (hn : n ≠ 0) (k : ℕ) :
    ∃ index : Index, index.length = s.length ∧
      fromLinearIndex k (s.elementShape n) = index ++ [some (k % n)] := by
  have hcoordinates (counts : List ℕ) : ∃ c, c.length = counts.length ∧
      coordinates (counts ++ [n]) k = c ++ [k % n] := by
    induction counts with
    | nil => exact ⟨[], rfl, by simp [coordinates]⟩
    | cons count counts ih =>
        obtain ⟨c, hlen, hc⟩ := ih
        refine ⟨k / (counts ++ [n]).prod % count :: c, by simp [hlen], ?_⟩
        rw [List.cons_append, coordinates, hc, List.cons_append]
  obtain ⟨c, hlen, hc⟩ := hcoordinates s.counts
  have hlength : s.length = c.length := by rw [hlen, Shape.counts, List.length_map]
  refine ⟨mask s c, length_mask hlength.symm, ?_⟩
  rw [fromLinearIndex_eq, elementShape_of_pos hn, Shape.counts, List.map_append]
  show mask (s ++ [.static n]) (coordinates (s.counts ++ [n]) k) = _
  rw [hc, mask, List.zipWith_append hlength]
  rfl

/-- A vector without dimensions is the left operand at each vector of the right one. -/
theorem HasElements.broadcast (hn : 1 < n) {right : ArrayExpression} {r : ℕ → V}
    (hright : HasElements m other right s n r) (operation : BinaryOperation) (type tag : ℕ) :
    HasElements m other (.binary operation (unsqueezed s.length (.tensor ⟨type, n⟩ tag [])) right)
      s n (fun k => m.apply operation (m.tensor tag (k % n)) (r k)) where
  shape := by
    rw [ArrayExpression.shape, shape_unsqueezed rfl, hright.shape]
    exact commonShape_replicate s
  vectorSize := by
    rw [ArrayExpression.vectorSize, vectorSize_unsqueezed, hright.vectorSize]
    exact ite_self n
  element k hk := by
    obtain ⟨index, hlen, hindex⟩ := fromLinearIndex_vector (s := s) (n := n) (by omega) k
    have hvector : HasElements m other (.tensor ⟨type, n⟩ tag []) [] n (m.tensor tag) :=
      HasElements.tensor (by omega) type tag
    obtain ⟨head, hhead, hlast⟩ := fromLinearIndex_vector (s := []) (n := n) (by omega) (k % n)
    rw [List.eq_nil_of_length_eq_zero hhead, Nat.mod_mod, List.nil_append] at hlast
    have helement := hvector.element (k % n) (by
      show k % n < 1 * n
      rw [Nat.one_mul]
      exact Nat.mod_lt _ (by omega))
    rw [hlast] at helement
    rw [ArrayExpression.evaluate, hright.element k hk, hindex, evaluate_unsqueezed
      (show ArrayExpression.vectorSize (.tensor ⟨type, n⟩ tag []) ≠ 0 by
        show n ≠ 0
        omega) _ _ _ hlen, helement]
    rfl

end ArrayExpression

end Hmpc.Expr
