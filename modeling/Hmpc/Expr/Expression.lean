/-
# Hmpc.Expr.Expression -- expressions as far as the plan of an execution sees them

An expression has children, an access pattern for each of them, and may be cacheable or complex.
Children are smaller than their parents, so that recursion over an expression ends; an expression
that two others share is the same value in both. `Inside` is being a part, at any depth.
-/
import Mathlib.Data.List.FinRange
import Hmpc.Lib.Map

namespace Hmpc.Expr

/-- `access::pattern` -/
inductive Pattern
  | none
  | once
  | multiple
  deriving DecidableEq

/-- `expression` -/
class Expression (E : Type) where
  arity : E → ℕ
  get : (e : E) → Fin (arity e) → E
  access : (e : E) → Fin (arity e) → Pattern
  isCacheable : E → Bool
  isComplex : E → Bool
  /-- `cache_expression` -/
  cacheExpression : E → E
  isCacheable_cacheExpression : ∀ e, isCacheable (cacheExpression e) = true
  size : E → ℕ
  size_get : ∀ e i, size (get e i) < size e

open Expression

variable {E : Type} [Expression E]

/-- `cache` -/
def cache (e : E) : E := if isCacheable e then e else cacheExpression e

theorem isCacheable_cache (e : E) : isCacheable (cache e) = true := by
  unfold cache
  split
  · assumption
  · exact isCacheable_cacheExpression e

/-- What holds of an expression as soon as it holds of its children. -/
theorem induction_on {P : E → Prop} (e : E) (step : ∀ e, (∀ i, P (get e i)) → P e) : P e :=
  step e fun i => induction_on (get e i) step
termination_by size e
decreasing_by exact size_get e i

/-- The first expression is a child of the second, or inside of one. -/
inductive Inside : E → E → Prop
  | child (e : E) (i : Fin (arity e)) : Inside (get e i) e
  | deeper {y e : E} (i : Fin (arity e)) (h : Inside y (get e i)) : Inside y e

/-- The expression itself and what is inside of it. -/
def PartOf (y e : E) : Prop := y = e ∨ Inside y e

theorem PartOf.refl (e : E) : PartOf e e := Or.inl rfl

theorem Inside.partOf {y e : E} (h : Inside y e) : PartOf y e := Or.inr h

theorem inside_iff {y e : E} : Inside y e ↔ ∃ i, PartOf y (get e i) := by
  constructor
  · intro h
    cases h with
    | child _ i => exact ⟨i, Or.inl rfl⟩
    | deeper i h => exact ⟨i, Or.inr h⟩
  · rintro ⟨i, rfl | h⟩
    · exact Inside.child e i
    · exact Inside.deeper i h

theorem PartOf.inside {y e : E} {i : Fin (arity e)} (h : PartOf y (get e i)) : Inside y e :=
  inside_iff.mpr ⟨i, h⟩

theorem Inside.trans {x y z : E} (hxy : Inside x y) (hyz : Inside y z) : Inside x z := by
  induction hyz with
  | child e i => exact Inside.deeper i hxy
  | deeper i _ ih => exact Inside.deeper i (ih hxy)

theorem PartOf.trans_inside {x y z : E} (hxy : PartOf x y) (hyz : Inside y z) : Inside x z := by
  rcases hxy with rfl | hxy
  · exact hyz
  · exact hxy.trans hyz

theorem Inside.trans_partOf {x y z : E} (hxy : Inside x y) (hyz : PartOf y z) : Inside x z := by
  rcases hyz with rfl | hyz
  · exact hxy
  · exact hxy.trans hyz

theorem PartOf.trans {x y z : E} (hxy : PartOf x y) (hyz : PartOf y z) : PartOf x z := by
  rcases hyz with rfl | hyz
  · exact hxy
  · exact (hxy.trans_inside hyz).partOf

theorem Inside.size_lt {y e : E} (h : Inside y e) : size y < size e := by
  induction h with
  | child e i => exact size_get e i
  | deeper i _ ih => exact ih.trans (size_get _ i)

theorem Inside.ne {y e : E} (h : Inside y e) : y ≠ e := by
  rintro rfl
  exact Nat.lt_irrefl _ h.size_lt

end Hmpc.Expr
