/-
# Hmpc.Expr.Pointwise -- evaluating an expression at an index

An expression that is built from tensors and values by casts, caches, unsqueezes and binary
operators is evaluated at one position at a time; the position goes down to the tensors, as an
index with coordinates or, where all shapes agree, as a linear index. `denote` is what is meant:
every tensor is extended along its placeholder dimensions, and operators act elementwise.
-/
import Hmpc.Expr.Syntax

namespace Hmpc.Expr

open Hmpc.Lib.MixedRadix

/-- What the elements of tensors and the values are, and what casts and operators do with them. -/
structure Interpretation (V : Type) where
  tensor : ℕ → ℕ → V
  value : ℕ → V
  cast : ValueType → V → V
  apply : BinaryOperation → V → V → V

/-- The index that an expression is evaluated at. -/
inductive Position
  | linear (k : ℕ)
  | multidimensional (index : Index)

/-- `accessor[index]`; a tensor with a single element by its shape ignores the index. -/
def readTensor {V : Type} (data : ℕ → V) (vectorSize : ℕ) (s : Shape) (position : Position) :
    Option V :=
  if s.length = 0 ∧ vectorSize ≤ 1 then some (data 0)
  else do
    let i ← match position with
      | .linear k => some k
      | .multidimensional index => toLinearIndex index (s.elementShape vectorSize)
    if i < (s.elementShape vectorSize).size then some (data i) else none

namespace ArrayExpression

variable {V : Type}

/-- `operator()`; `other` evaluates the expressions that are not evaluated elementwise. -/
def evaluate (m : Interpretation V) (other : ArrayExpression → Position → Option V) :
    ArrayExpression → Position → Option V
  | tensor type tag s, position => readTensor (m.tensor tag) type.vectorSize s position
  | value _ tag, _ => some (m.value tag)
  | cast type inner, position => (inner.evaluate m other position).map (m.cast type)
  | cache inner, position => inner.evaluate m other position
  | unsqueeze dim inner, .multidimensional index => do
      let index ← unsqueezeForElementIndex inner.vectorSize index dim
      inner.evaluate m other (.multidimensional index)
  | unsqueeze _ _, .linear _ => none
  | binary operation left right, position => do
      let l ← left.evaluate m other position
      let r ← right.evaluate m other position
      return m.apply operation l r
  | e@(random ..), position => other e position
  | e@(matrixProduct ..), position => other e position
  | e@(matrixVectorProduct ..), position => other e position
  | e@(reduce ..), position => other e position
  | e@(transform ..), position => other e position

/-- `same_element_shape` -/
def sameElementShape (s : Shape) : ArrayExpression → Bool
  | e@(tensor ..) => s.sameType e.elementShape
  | e@(value ..) => s.sameType e.elementShape
  | e@(random ..) => s.sameType e.elementShape
  | e@(cast _ inner) => inner.sameElementShape s && s.sameType e.elementShape
  | e@(cache inner) => inner.sameElementShape s && s.sameType e.elementShape
  | e@(unsqueeze _ inner) => inner.sameElementShape s && s.sameType e.elementShape
  | e@(binary _ left right) =>
      left.sameElementShape s && right.sameElementShape s && s.sameType e.elementShape
  | e@(matrixProduct left right) =>
      left.sameElementShape s && right.sameElementShape s && s.sameType e.elementShape
  | e@(matrixVectorProduct matrix vector) =>
      matrix.sameElementShape s && vector.sameElementShape s && s.sameType e.elementShape
  | e@(reduce _ inner) => inner.sameElementShape s && s.sameType e.elementShape
  | e@(transform _ inner) => inner.sameElementShape s && s.sameType e.elementShape

/-- `mdindex_for`: the indices of a shape can be used with this expression. -/
def Accepts (e : ArrayExpression) (s : Shape) : Prop :=
  e.elementShape.length = 0 ∨ s.length = e.elementShape.length

/-- Built from tensors, values, casts, caches, unsqueezes and binary operators, as the templates
require it: values are scalars, a cast keeps the vector size, an operator has operands of one
vector size, or a vector and a scalar, which both accept its indices. -/
def Elementwise : ArrayExpression → Prop
  | tensor .. => True
  | value type _ => type.vectorSize = 0
  | cast type inner => type.vectorSize = inner.vectorSize ∧ inner.Elementwise
  | cache inner => inner.Elementwise
  | unsqueeze _ inner => inner.Elementwise
  | e@(binary _ left right) =>
      (left.vectorSize = 0 ∨ right.vectorSize = 0 ∨ left.vectorSize = right.vectorSize) ∧
        left.Accepts e.elementShape ∧ right.Accepts e.elementShape ∧
        left.Elementwise ∧ right.Elementwise
  | random .. => False
  | matrixProduct .. => False
  | matrixVectorProduct .. => False
  | reduce .. => False
  | transform .. => False

/-- The element at some coordinates: a tensor is extended along its placeholder dimensions, and
lies in memory in row-major order. -/
def denote (m : Interpretation V) (other : ArrayExpression → List ℕ → V) :
    ArrayExpression → List ℕ → V
  | e@(tensor _ tag _), c => m.tensor tag (offset e.elementShape.counts (project e.elementShape c))
  | value _ tag, _ => m.value tag
  | cast type inner, c => m.cast type (inner.denote m other c)
  | cache inner, c => inner.denote m other c
  | unsqueeze dim inner, c =>
      inner.denote m other (c.eraseIdx ((dimension ((inner.shape.getD []).length + 1) dim).getD 0))
  | binary operation left right, c =>
      m.apply operation (left.denote m other c) (right.denote m other c)
  | e@(random ..), c => other e c
  | e@(matrixProduct ..), c => other e c
  | e@(matrixVectorProduct ..), c => other e c
  | e@(reduce ..), c => other e c
  | e@(transform ..), c => other e c

/-! ## Shapes of operands -/

theorem elementShape_of_shape {e : ArrayExpression} {s : Shape} (h : e.shape = some s) :
    e.elementShape = s.elementShape e.vectorSize := by
  unfold elementShape
  rw [h]
  rfl

/-- An operand has no dimensions, or its shape is extended to the common one. -/
theorem commonShape_extends {left right s : Shape} (h : commonShape left right = some s) :
    (left = [] ∨ left.Extends s) ∧ (right = [] ∨ right.Extends s) := by
  unfold commonShape at h
  split_ifs at h with hleft hright
  · injection h with h
    subst h
    exact ⟨Or.inl (List.eq_nil_of_length_eq_zero hleft), Or.inr (Shape.Extends.refl _)⟩
  · injection h with h
    subst h
    exact ⟨Or.inr (Shape.Extends.refl _), Or.inl (List.eq_nil_of_length_eq_zero hright)⟩
  · have hextends := commonExtents_extends h
    exact ⟨Or.inr hextends.1, Or.inr hextends.2⟩

/-- An operand that accepts the indices of an expression looks at its coordinates. -/
theorem Accepts.extends {e : ArrayExpression} {s t : Shape} {vectorSize : ℕ}
    (hs : e.shape = some s) (hst : s = [] ∨ s.Extends t)
    (hsize : e.vectorSize = 0 ∨ e.vectorSize = vectorSize)
    (haccepts : e.Accepts (t.elementShape vectorSize)) :
    e.elementShape = [] ∨ e.elementShape.Extends (t.elementShape vectorSize) := by
  rcases haccepts with hzero | hlength
  · exact Or.inl (List.eq_nil_of_length_eq_zero hzero)
  · right
    rw [elementShape_of_shape hs] at hlength ⊢
    rw [length_elementShape, length_elementShape] at hlength
    have hvector : e.vectorSize = vectorSize := by
      rcases hsize with hzero | heq
      · -- a scalar has as many dimensions as its shape, so the expression is one of scalars too
        rcases hst with rfl | hst
        · rw [List.length_nil, hzero, if_pos rfl] at hlength
          split at hlength <;> omega
        · rw [hst.length_eq, hzero, if_pos rfl] at hlength
          split at hlength <;> omega
      · exact heq
    rw [hvector]
    rcases hst with rfl | hst
    · rw [hvector, List.length_nil] at hlength
      rw [List.eq_nil_of_length_eq_zero (show t.length = 0 by omega)]
      exact Shape.Extends.refl _
    · exact hst.elementShape vectorSize

/-- Operands that accept the indices of an operator look at its coordinates. -/
theorem extends_of_accepts {operation : BinaryOperation} {left right : ArrayExpression} {s : Shape}
    (hs : (binary operation left right).shape = some s)
    (hsizes : left.vectorSize = 0 ∨ right.vectorSize = 0 ∨ left.vectorSize = right.vectorSize)
    (hleft : left.Accepts (binary operation left right).elementShape)
    (hright : right.Accepts (binary operation left right).elementShape) :
    (∃ l, left.shape = some l) ∧ (∃ r, right.shape = some r) ∧
      (left.elementShape = [] ∨
        left.elementShape.Extends (binary operation left right).elementShape) ∧
      (right.elementShape = [] ∨
        right.elementShape.Extends (binary operation left right).elementShape) := by
  rw [elementShape_of_shape hs] at hleft hright ⊢
  obtain ⟨l, hl, hs⟩ := Option.bind_eq_some_iff.mp hs
  obtain ⟨r, hr, hs⟩ := Option.bind_eq_some_iff.mp hs
  obtain ⟨hls, hrs⟩ := commonShape_extends hs
  refine ⟨⟨l, hl⟩, ⟨r, hr⟩, Accepts.extends hl hls ?_ hleft, Accepts.extends hr hrs ?_ hright⟩
  · rw [vectorSize]
    split
    · exact Or.inl ‹_›
    · exact Or.inr rfl
  · rw [vectorSize]
    split
    · exact Or.inr rfl
    · rcases hsizes with h | h | h
      · contradiction
      · exact Or.inl h
      · exact Or.inr h.symm

theorem Elementwise.extends {operation : BinaryOperation} {left right : ArrayExpression}
    {s : Shape} (h : (binary operation left right).Elementwise)
    (hs : (binary operation left right).shape = some s) :
    (∃ l, left.shape = some l) ∧ (∃ r, right.shape = some r) ∧
      (left.elementShape = [] ∨
        left.elementShape.Extends (binary operation left right).elementShape) ∧
      (right.elementShape = [] ∨
        right.elementShape.Extends (binary operation left right).elementShape) := by
  obtain ⟨hsizes, hleft, hright, -, -⟩ := h
  exact extends_of_accepts hs hsizes hleft hright

/-! ## Indices with coordinates -/

/-- A single element is the first one. -/
theorem eq_zero_of_lt_single {vectorSize k : ℕ} (hsize : vectorSize ≤ 1)
    (h : k < (Shape.counts (Shape.elementShape vectorSize [])).prod) : k = 0 := by
  unfold Shape.elementShape at h
  split at h
  · simpa [Shape.counts] using h
  · simp only [Shape.counts, List.nil_append, List.map_cons, List.map_nil, Extent.count,
      List.prod_singleton] at h
    omega

theorem readTensor_mask {data : ℕ → V} {vectorSize : ℕ} {s r : Shape} {c : List ℕ}
    (hextends : s.elementShape vectorSize = [] ∨ (s.elementShape vectorSize).Extends r)
    (hc : InRange r.counts c) :
    readTensor data vectorSize s (.multidimensional (mask r c)) =
      some (data (offset (s.elementShape vectorSize).counts
        (project (s.elementShape vectorSize) c))) := by
  unfold readTensor
  split
  · -- a single element
    rename_i hsingle
    have hnil := List.eq_nil_of_length_eq_zero hsingle.1
    subst hnil
    rcases hextends with hempty | hextends
    · rw [hempty]
      rfl
    · rw [eq_zero_of_lt_single hsingle.2 (offset_lt (inRange_project hextends hc))]
  · rename_i hmany
    rcases hextends with hempty | hextends
    · exfalso
      apply hmany
      have hlength := length_elementShape s vectorSize
      rw [hempty, List.length_nil] at hlength
      split at hlength <;> omega
    · have hlt := offset_lt (inRange_project hextends hc)
      simp only [toLinearIndex_mask hextends hc, Option.bind_eq_bind, Option.bind_some,
        Shape.size_eq, if_pos hlt]

/-- An index with coordinates leads to the element that is meant. -/
theorem evaluate_mask (m : Interpretation V) (other : ArrayExpression → Position → Option V)
    (other' : ArrayExpression → List ℕ → V) (e : ArrayExpression) :
    ∀ s r c, e.Elementwise → e.shape = some s → InRange r.counts c →
      (e.elementShape = [] ∨ e.elementShape.Extends r) →
      e.evaluate m other (.multidimensional (mask r c)) = some (e.denote m other' c) := by
  induction e with
  | tensor type tag t =>
      intro s r c _ _ hc hextends
      exact readTensor_mask hextends hc
  | value type tag =>
      intro s r c _ _ _ _
      rfl
  | cast type inner ih =>
      intro s r c helementwise hs hc hextends
      have hsame : (cast type inner).elementShape = inner.elementShape := by
        show Shape.elementShape type.vectorSize (inner.shape.getD []) = _
        rw [helementwise.1]
        rfl
      rw [hsame] at hextends
      rw [evaluate, ih s r c helementwise.2 hs hc hextends]
      rfl
  | cache inner ih =>
      intro s r c helementwise hs hc hextends
      exact ih s r c helementwise hs hc hextends
  | unsqueeze dim inner ih =>
      intro s r c helementwise hs hc hextends
      obtain ⟨t, ht, hs'⟩ := Option.bind_eq_some_iff.mp hs
      obtain ⟨pos, hpos, hlength, herase⟩ := unsqueeze_eq hs'
      have hinner := herase inner.vectorSize
      rw [← elementShape_of_shape ht] at hinner
      have hlen := length_elementShape s inner.vectorSize
      rw [elementShape_of_shape hs] at hextends
      have hextends : (s.elementShape inner.vectorSize).Extends r := by
        rcases hextends with hempty | hextends
        · have hzero := congrArg List.length hempty
          rw [List.length_nil] at hzero
          have hlen' : (s.elementShape (unsqueeze dim inner).vectorSize).length = _ := hlen
          omega
        · exact hextends
      have hrank : (mask r c).length = t.length + 1 + if inner.vectorSize = 0 then 0 else 1 := by
        rw [length_mask (length_of_inRange hc), ← hextends.length_eq, hlen, hlength]
      -- removing the coordinate of the inserted dimension leaves an index of the operand
      have hindex : (mask r c).eraseIdx pos = mask (r.eraseIdx pos) (c.eraseIdx pos) :=
        zipWith_eraseIdx _ r c pos
      have hcounts : InRange (Shape.counts (r.eraseIdx pos)) (c.eraseIdx pos) := by
        rw [Shape.counts, ← List.eraseIdx_map]
        exact forall₂_eraseIdx hc pos
      have hih := ih t (r.eraseIdx pos) (c.eraseIdx pos) helementwise ht hcounts
        (Or.inr (by rw [← hinner]; exact forall₂_eraseIdx hextends pos))
      rw [evaluate, unsqueezeForElementIndex_eq hrank hpos]
      simp only [Option.bind_eq_bind, Option.bind_some]
      rw [hindex, hih, denote, ht, Option.getD_some, hpos, Option.getD_some]
  | binary operation left right ihl ihr =>
      intro s r c helementwise hs hc hextends
      obtain ⟨⟨sl, hl⟩, ⟨sr, hr⟩, hleft, hright⟩ := helementwise.extends hs
      obtain ⟨-, -, -, hel, her⟩ := helementwise
      -- the operands broadcast to the operator, which broadcasts to the shape of the index
      have htrans {child : ArrayExpression} (h : child.elementShape = [] ∨
          child.elementShape.Extends (binary operation left right).elementShape) :
          child.elementShape = [] ∨ child.elementShape.Extends r := by
        rcases h with h | h
        · exact Or.inl h
        · rcases hextends with hempty | hextends
          · rw [hempty] at h
            cases hshape : child.elementShape with
            | nil => exact Or.inl rfl
            | cons => rw [hshape] at h; cases h
          · exact Or.inr (h.trans hextends)
      rw [evaluate, ihl sl r c hel hl hc (htrans hleft), ihr sr r c her hr hc (htrans hright)]
      rfl
  | random => exact fun _ _ _ h => h.elim
  | matrixProduct => exact fun _ _ _ h => h.elim
  | matrixVectorProduct => exact fun _ _ _ h => h.elim
  | reduce => exact fun _ _ _ h => h.elim
  | transform => exact fun _ _ _ h => h.elim

/-! ## Linear indices -/

theorem readTensor_linear {data : ℕ → V} {vectorSize : ℕ} {s : Shape} {k : ℕ}
    (hk : k < (s.elementShape vectorSize).size) :
    readTensor data vectorSize s (.linear k) = some (data k) := by
  unfold readTensor
  split
  · rename_i hsingle
    have hnil := List.eq_nil_of_length_eq_zero hsingle.1
    subst hnil
    rw [Shape.size_eq] at hk
    rw [eq_zero_of_lt_single hsingle.2 hk]
  · simp only [Option.bind_eq_bind, Option.bind_some, if_pos hk]

theorem sameType_of_sameElementShape {e : ArrayExpression} {t : Shape}
    (h : e.sameElementShape t = true) : t.sameType e.elementShape = true := by
  cases e <;> simp only [sameElementShape, Bool.and_eq_true] at h <;> grind

/-- Operands of one type and with equal extents at run time have one shape. -/
theorem eq_of_sameElementShape {e : ArrayExpression} {t : Shape}
    (h : e.elementShape = [] ∨ e.elementShape.Extends t) (hsame : e.sameElementShape t = true) :
    e.elementShape = t := by
  have htype := sameType_of_sameElementShape hsame
  rcases h with hempty | hextends
  · have hlength := Shape.length_eq_of_sameType htype
    rw [hempty] at hlength ⊢
    exact (List.eq_nil_of_length_eq_zero hlength).symm
  · exact hextends.eq_of_sameType htype

/-- Where all element shapes agree, so do the positions. -/
theorem evaluate_linear (m : Interpretation V) (other : ArrayExpression → Position → Option V)
    (other' : ArrayExpression → List ℕ → V) (e : ArrayExpression) :
    ∀ s t k, e.Elementwise → e.shape = some s → e.elementShape = t →
      e.sameElementShape t = true → k < t.size →
      e.evaluate m other (.linear k) = some (e.denote m other' (coordinates t.counts k)) := by
  induction e with
  | tensor type tag s =>
      rintro - _ k - - rfl - hk
      have hk' := hk
      rw [Shape.size_eq] at hk'
      rw [evaluate, denote, project_coordinates, offset_coordinates hk']
      exact readTensor_linear hk
  | value type tag =>
      intro s t k _ _ _ _ _
      rfl
  | cast type inner ih =>
      intro s t k helementwise hs ht hsame hk
      simp only [sameElementShape, Bool.and_eq_true] at hsame
      have hinner : inner.elementShape = t := by
        rw [← ht]
        show _ = Shape.elementShape type.vectorSize (inner.shape.getD [])
        rw [helementwise.1]
        rfl
      rw [evaluate, ih s t k helementwise.2 hs hinner hsame.1 hk]
      rfl
  | cache inner ih =>
      intro s t k helementwise hs ht hsame hk
      simp only [sameElementShape, Bool.and_eq_true] at hsame
      exact ih s t k helementwise hs ht hsame.1 hk
  | unsqueeze dim inner ih =>
      intro s t k helementwise hs ht hsame hk
      -- the inner expression has a dimension less
      exfalso
      obtain ⟨u, hu, hs'⟩ := Option.bind_eq_some_iff.mp hs
      obtain ⟨pos, hpos, hlength, -⟩ := unsqueeze_eq hs'
      simp only [sameElementShape, Bool.and_eq_true] at hsame
      have hinner := Shape.length_eq_of_sameType (sameType_of_sameElementShape hsame.1)
      rw [← ht, elementShape_of_shape hs, elementShape_of_shape hu, length_elementShape,
        length_elementShape, hlength] at hinner
      have hvector : (unsqueeze dim inner).vectorSize = inner.vectorSize := rfl
      rw [hvector] at hinner
      omega
  | binary operation left right ihl ihr =>
      intro s t k helementwise hs ht hsame hk
      simp only [sameElementShape, Bool.and_eq_true] at hsame
      obtain ⟨⟨hsl, hsr⟩, -⟩ := hsame
      obtain ⟨⟨sl, hl⟩, ⟨sr, hr⟩, hleft, hright⟩ := helementwise.extends hs
      obtain ⟨-, -, -, hel, her⟩ := helementwise
      rw [ht] at hleft hright
      rw [evaluate, ihl sl t k hel hl (eq_of_sameElementShape hleft hsl) hsl hk,
        ihr sr t k her hr (eq_of_sameElementShape hright hsr) hsr hk]
      rfl
  | random => exact fun _ _ _ h => h.elim
  | matrixProduct => exact fun _ _ _ h => h.elim
  | matrixVectorProduct => exact fun _ _ _ h => h.elim
  | reduce => exact fun _ _ _ h => h.elim
  | transform => exact fun _ _ _ h => h.elim

/-- Both ways to evaluate an element give what is meant. -/
theorem evaluate_eq_denote (m : Interpretation V)
    (other : ArrayExpression → Position → Option V) (other' : ArrayExpression → List ℕ → V)
    (e : ArrayExpression) (helementwise : e.Elementwise) (hshape : e.shape.isSome)
    (k : ℕ) (hk : k < e.elementShape.size) :
    e.evaluate m other (.multidimensional (fromLinearIndex k e.elementShape)) =
        some (e.denote m other' (coordinates e.elementShape.counts k)) ∧
      (e.sameElementShape e.elementShape = true →
        e.evaluate m other (.linear k) =
          e.evaluate m other (.multidimensional (fromLinearIndex k e.elementShape))) := by
  obtain ⟨s, hs⟩ := Option.isSome_iff_exists.mp hshape
  have hprod : k < e.elementShape.counts.prod := by
    rw [← Shape.size_eq]
    exact hk
  have hmask : e.evaluate m other (.multidimensional (fromLinearIndex k e.elementShape)) =
      some (e.denote m other' (coordinates e.elementShape.counts k)) := by
    rw [fromLinearIndex_eq]
    exact evaluate_mask m other other' e s e.elementShape _ helementwise hs
      (inRange_coordinates (by omega) k) (Or.inr (Shape.Extends.refl _))
  refine ⟨hmask, ?_⟩
  intro hsame
  rw [hmask]
  exact evaluate_linear m other other' e s _ k helementwise hs rfl hsame hk

/-- A tensor of two rows and a row that is added to both of them. -/
theorem evaluate_eq_denote_rows :
    let m : Interpretation ℕ := ⟨fun tag k => 10 * tag + k, id, fun _ v => v, fun _ l r => l + r⟩
    let e : ArrayExpression := .binary .add (.tensor ⟨0, 0⟩ 1 [.static 2, .dynamic 3])
      (.unsqueeze (-2) (.tensor ⟨0, 0⟩ 2 [.dynamic 3]))
    e.evaluate m (fun _ _ => none) (.multidimensional (fromLinearIndex 4 e.elementShape)) =
      some 35 := by
  intro m e
  exact (evaluate_eq_denote m (fun _ _ => none) (fun _ _ => 0) e
    (by simp [e, Elementwise, Accepts, vectorSize]; decide) (by decide) 4 (by decide)).1

end ArrayExpression

end Hmpc.Expr
