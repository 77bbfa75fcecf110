/-
# Hmpc.Expr.Syntax -- the expressions of the library

An expression here is its type, with the extents that are only known at run time: a tensor, a
value or a random expression has a tag of its own. Shapes, access patterns and what is cacheable
or complex are those of the expression templates; a shape is missing where the source does not
compile or an assertion about extents fails.
-/
import Hmpc.Expr.Expression
import Hmpc.Index

namespace Hmpc.Expr

/-- `HMPC_BINARY_EXPRESSION` -/
inductive BinaryOperation
  | add | subtract | multiply | bitAnd | bitOr | bitXor
  | equalTo | notEqualTo | less | greater | lessEqual | greaterEqual
  deriving DecidableEq

/-- `reduction` -/
inductive Reduction
  | add | multiply | logicalAnd | logicalOr | bitAnd | bitOr | bitXor | min | max
  deriving DecidableEq

inductive ArrayExpression
  | tensor (type : ValueType) (tag : ℕ) (shape : Shape)
  | value (type : ValueType) (tag : ℕ)
  | random (type : ValueType) (tag : ℕ) (shape : Shape)
  | cast (type : ValueType) (inner : ArrayExpression)
  | cache (inner : ArrayExpression)
  | unsqueeze (dim : ℤ) (inner : ArrayExpression)
  | binary (operation : BinaryOperation) (left right : ArrayExpression)
  | matrixProduct (left right : ArrayExpression)
  | matrixVectorProduct (matrix vector : ArrayExpression)
  | reduce (operation : Reduction) (inner : ArrayExpression)
  | transform (isInverse : Bool) (inner : ArrayExpression)
  deriving DecidableEq

/-- `matrix_product_shape`, with the extents that are summed over. -/
def matrixProductShape (left right : Shape) : Option Shape :=
  match left.reverse, right.reverse with
  | .static k :: u :: lefts, v :: .static l :: rights =>
      if k = l ∧ u ≠ .placeholder ∧ v ≠ .placeholder then
        (commonExtents lefts.reverse rights.reverse).map (· ++ [u, v])
      else none
  | _, _ => none

/-- `matrix_vector_product_shape`, with the extents that are summed over. -/
def matrixVectorProductShape (matrix vector : Shape) : Option Shape :=
  match matrix.reverse, vector.reverse with
  | .static k :: u :: matrices, .static l :: vectors =>
      if k = l ∧ u ≠ .placeholder then
        (commonExtents matrices.reverse vectors.reverse).map (· ++ [u])
      else none
  | _, _ => none

/-- `access` of an operand of a binary operator. -/
def binaryAccess (own other : Shape) : Pattern :=
  if own.length ≠ other.length then Pattern.multiple
  else if own.length = 0 then Pattern.once
  else (own.zip other).foldl (fun pattern (extent, otherExtent) =>
    if extent = .placeholder ∧ otherExtent ≠ extent then Pattern.multiple else pattern)
    Pattern.once

namespace ArrayExpression

/-- `vector_size_v<value_type>` -/
def vectorSize : ArrayExpression → ℕ
  | tensor type _ _ => type.vectorSize
  | value type _ => type.vectorSize
  | random type _ _ => type.vectorSize
  | cast type _ => type.vectorSize
  | cache inner => inner.vectorSize
  | unsqueeze _ inner => inner.vectorSize
  | binary _ left right => if left.vectorSize = 0 then right.vectorSize else left.vectorSize
  | matrixProduct left right =>
      if left.vectorSize = 0 then right.vectorSize else left.vectorSize
  | matrixVectorProduct matrix vector =>
      if matrix.vectorSize = 0 then vector.vectorSize else matrix.vectorSize
  | reduce _ _ => 0
  | transform _ inner => inner.vectorSize

/-- `shape` -/
def shape : ArrayExpression → Option Shape
  | tensor _ _ s => some s
  | value _ _ => some []
  | random _ _ s => some s
  | cast _ inner => inner.shape
  | cache inner => inner.shape
  | unsqueeze dim inner => inner.shape.bind fun s => s.unsqueeze dim
  | binary _ left right => do commonShape (← left.shape) (← right.shape)
  | matrixProduct left right => do matrixProductShape (← left.shape) (← right.shape)
  | matrixVectorProduct matrix vector => do
      matrixVectorProductShape (← matrix.shape) (← vector.shape)
  | reduce _ inner => inner.shape.map fun _ => []
  | transform _ inner => inner.shape

/-- `element_shape` -/
def elementShape (e : ArrayExpression) : Shape := (e.shape.getD []).elementShape e.vectorSize

def arity : ArrayExpression → ℕ
  | tensor .. => 0
  | value .. => 0
  | random .. => 0
  | cast .. => 1
  | cache .. => 1
  | unsqueeze .. => 1
  | binary .. => 2
  | matrixProduct .. => 2
  | matrixVectorProduct .. => 2
  | reduce .. => 1
  | transform .. => 1

def get : (e : ArrayExpression) → Fin e.arity → ArrayExpression
  | cast _ inner, _ => inner
  | cache inner, _ => inner
  | unsqueeze _ inner, _ => inner
  | binary _ left right, i => if i.val = 0 then left else right
  | matrixProduct left right, i => if i.val = 0 then left else right
  | matrixVectorProduct matrix vector, i => if i.val = 0 then matrix else vector
  | reduce _ inner, _ => inner
  | transform _ inner, _ => inner

def access : (e : ArrayExpression) → Fin e.arity → Pattern
  | cast .., _ => Pattern.once
  | cache .., _ => Pattern.once
  | unsqueeze .., _ => Pattern.multiple
  | binary _ left right, i =>
      if i.val = 0 then binaryAccess (left.shape.getD []) (right.shape.getD [])
      else binaryAccess (right.shape.getD []) (left.shape.getD [])
  | matrixProduct .., _ => Pattern.multiple
  | matrixVectorProduct .., i => if i.val = 0 then Pattern.once else Pattern.multiple
  | reduce .., _ => Pattern.once
  | transform .., _ => Pattern.once

/-- `is_cacheable` -/
def isCacheable : ArrayExpression → Bool
  | random .. => true
  | cache .. => true
  | reduce .. => true
  | transform .. => true
  | _ => false

/-- `is_complex` -/
def isComplex : ArrayExpression → Bool
  | reduce .. => true
  | transform .. => true
  | _ => false

/-- How many expressions there are in the tree. -/
def nodes : ArrayExpression → ℕ
  | tensor .. => 1
  | value .. => 1
  | random .. => 1
  | cast _ inner => inner.nodes + 1
  | cache inner => inner.nodes + 1
  | unsqueeze _ inner => inner.nodes + 1
  | binary _ left right => left.nodes + right.nodes + 1
  | matrixProduct left right => left.nodes + right.nodes + 1
  | matrixVectorProduct matrix vector => matrix.nodes + vector.nodes + 1
  | reduce _ inner => inner.nodes + 1
  | transform _ inner => inner.nodes + 1

theorem nodes_ite_lt {p : Prop} [Decidable p] (left right : ArrayExpression) :
    (if p then left else right).nodes < left.nodes + right.nodes + 1 := by
  split <;> omega

theorem nodes_get : ∀ (e : ArrayExpression) (i : Fin e.arity), (e.get i).nodes < e.nodes
  | cast _ inner, _ => Nat.lt_succ_self inner.nodes
  | cache inner, _ => Nat.lt_succ_self inner.nodes
  | unsqueeze _ inner, _ => Nat.lt_succ_self inner.nodes
  | binary _ left right, _ => nodes_ite_lt left right
  | matrixProduct left right, _ => nodes_ite_lt left right
  | matrixVectorProduct matrix vector, _ => nodes_ite_lt matrix vector
  | reduce _ inner, _ => Nat.lt_succ_self inner.nodes
  | transform _ inner, _ => Nat.lt_succ_self inner.nodes

instance : Expression ArrayExpression where
  arity := arity
  get := get
  access := access
  isCacheable := isCacheable
  isComplex := isComplex
  cacheExpression := cache
  isCacheable_cacheExpression _ := rfl
  size := nodes
  size_get := nodes_get

end ArrayExpression

end Hmpc.Expr
