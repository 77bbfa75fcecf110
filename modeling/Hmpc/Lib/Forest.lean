/-
# Hmpc.Lib.Forest -- trees with values at their leaves

A node has at least one subtree, and each of its subtrees has a label. The leaves of a tree, from
left to right, are what a recursion over its positions is compared with. Induction on a forest goes
into its first tree as well, if that is a node, so that a function that descends there and one that
goes on to the right have one induction principle.
-/
import Mathlib.Data.List.Basic

namespace Hmpc.Lib

universe u v

mutual

/-- A leaf, or a node above a forest. -/
inductive OrderedTree (ε : Type u) (α : Type v)
  | leaf (a : α)
  | node (elements : OrderedForest ε α)

/-- At least one tree, each with its label. -/
inductive OrderedForest (ε : Type u) (α : Type v)
  | one (label : ε) (t : OrderedTree ε α)
  | cons (label : ε) (t : OrderedTree ε α) (rest : OrderedForest ε α)

end

variable {ε α β γ : Type*}

mutual

def OrderedTree.leaves : OrderedTree ε α → List α
  | .leaf a => [a]
  | .node elements => elements.leaves

def OrderedForest.leaves : OrderedForest ε α → List α
  | .one _ t => t.leaves
  | .cons _ t rest => t.leaves ++ rest.leaves

end

mutual

def OrderedTree.map (f : α → β) : OrderedTree ε α → OrderedTree ε β
  | .leaf a => .leaf (f a)
  | .node elements => .node (elements.map f)

def OrderedForest.map (f : α → β) : OrderedForest ε α → OrderedForest ε β
  | .one label t => .one label (t.map f)
  | .cons label t rest => .cons label (t.map f) (rest.map f)

end

namespace OrderedForest

/-- The labels of all subtrees. -/
def labels : OrderedForest ε α → List ε
  | .one label (.leaf _) => [label]
  | .one label (.node elements) => label :: elements.labels
  | .cons label (.leaf _) rest => label :: rest.labels
  | .cons label (.node elements) rest => label :: (elements.labels ++ rest.labels)

/-- The labels of the subtrees that are nodes. -/
def nodeLabels : OrderedForest ε α → List ε
  | .one _ (.leaf _) => []
  | .one label (.node elements) => label :: elements.nodeLabels
  | .cons _ (.leaf _) rest => rest.nodeLabels
  | .cons label (.node elements) rest => label :: (elements.nodeLabels ++ rest.nodeLabels)

/-- Induction over the first tree and what is right of it. -/
@[elab_as_elim, induction_eliminator]
theorem induction {P : OrderedForest ε α → Prop} (oneLeaf : ∀ label a, P (.one label (.leaf a)))
    (oneNode : ∀ label elements, P elements → P (.one label (.node elements)))
    (consLeaf : ∀ label a rest, P rest → P (.cons label (.leaf a) rest))
    (consNode : ∀ label elements rest, P elements → P rest →
      P (.cons label (.node elements) rest)) :
    ∀ f, P f
  | .one label (.leaf a) => oneLeaf label a
  | .one label (.node elements) =>
      oneNode label elements (induction oneLeaf oneNode consLeaf consNode elements)
  | .cons label (.leaf a) rest =>
      consLeaf label a rest (induction oneLeaf oneNode consLeaf consNode rest)
  | .cons label (.node elements) rest =>
      consNode label elements rest (induction oneLeaf oneNode consLeaf consNode elements)
        (induction oneLeaf oneNode consLeaf consNode rest)

theorem leaves_map (g : α → β) (f : OrderedForest ε α) : (f.map g).leaves = f.leaves.map g := by
  induction f with
  | oneLeaf label a => rfl
  | oneNode label elements ih => exact ih
  | consLeaf label a rest ih => exact congrArg (g a :: ·) ih
  | consNode label elements rest ih ihrest =>
      show (elements.map g).leaves ++ (rest.map g).leaves = (elements.leaves ++ rest.leaves).map g
      rw [ih, ihrest, List.map_append]

theorem leaves_ne_nil (f : OrderedForest ε α) : f.leaves ≠ [] := by
  induction f with
  | oneLeaf label a => exact List.cons_ne_nil a []
  | oneNode label elements ih => exact ih
  | consLeaf label a rest ih => exact List.cons_ne_nil a _
  | consNode label elements rest ih ihrest => exact List.append_ne_nil_of_left_ne_nil ih _

theorem labels_map (g : α → β) (f : OrderedForest ε α) : (f.map g).labels = f.labels := by
  induction f with
  | oneLeaf label a => rfl
  | oneNode label elements ih => exact congrArg (label :: ·) ih
  | consLeaf label a rest ih => exact congrArg (label :: ·) ih
  | consNode label elements rest ih ihrest => exact congrArg (label :: ·) (congrArg₂ _ ih ihrest)

end OrderedForest

namespace OrderedTree

theorem leaves_map (g : α → β) (t : OrderedTree ε α) : (t.map g).leaves = t.leaves.map g := by
  cases t with
  | leaf a => rfl
  | node elements => exact elements.leaves_map g

/-- The labels of all subtrees, of which a leaf has none. -/
def labels : OrderedTree ε α → List ε
  | .leaf _ => []
  | .node elements => elements.labels

/-- The labels of the subtrees that are nodes. -/
def nodeLabels : OrderedTree ε α → List ε
  | .leaf _ => []
  | .node elements => elements.nodeLabels

theorem labels_map (g : α → β) (t : OrderedTree ε α) : (t.map g).labels = t.labels := by
  cases t with
  | leaf a => rfl
  | node elements => exact elements.labels_map g

end OrderedTree

end Hmpc.Lib
