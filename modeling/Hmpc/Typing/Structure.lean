/-
# Hmpc.Typing.Structure -- structures, and the fields they are made of

Values are given as a pack. Each is a leaf or a structure, whose elements may again be structures.
The fields of a pack are its leaves, from left to right. The source finds them by several
recursions, over types and over values: they step over an element by taking the number of its
fields off the index, and go down into the element that has the field. All of them count the leaves
in the same order.

A structure gives its elements by `get`, as references or as copies. A copy ends with the expression
it is made in, so that a reference into one does not survive the return of `at`, and it does not
bind to the parameter of `enumerate_element`. So the recursions over types always find a field, and
those over values find it as long as every element that is a structure is given as a reference.
-/
import Hmpc.Lib.Domain
import Hmpc.Lib.FoldExpression
import Hmpc.Lib.Forest
import Mathlib.Algebra.Ring.Nat

namespace Hmpc.Typing

open Hmpc.Lib

/-- What `get` returns: a reference to the element, or a copy of it. -/
inductive Access
  | reference
  | copy
  deriving DecidableEq

/-- A value, or its type: a structure has at least one element. -/
abbrev Structured (α : Type) := OrderedTree Access α

/-- The elements of a structure, all or those from some index on. -/
abbrev Elements (α : Type) := OrderedForest Access α

/-- What `at` returns: a reference to a leaf, a copy of it, or a reference to a leaf of a copy that
has ended. -/
inductive Found (α : Type)
  | reference (a : α)
  | copy (a : α)
  | dangling

variable {α β τ : Type}

/-- What a function reads that takes `T&&`, or a value. -/
def Found.read : Found α → Option α
  | .reference a | .copy a => some a
  | .dangling => none

/-- What binds to `T&`. -/
def Found.lvalue : Found α → Option α
  | .reference a => some a
  | .copy _ | .dangling => none

/-- An element that is a leaf. -/
def Access.leaf : Access → α → Found α
  | .reference, a => .reference a
  | .copy, a => .copy a

/-- What is found in an element that is a structure. -/
def Access.inside : Access → Found α → Found α
  | .reference, found => found
  | .copy, .reference _ => .dangling
  | .copy, found => found

/-! ## Counting fields -/

mutual

/-- `structure_fields<T>` -/
def Structured.fields : Structured α → ℕ
  | .leaf _ => 1
  | .node elements => Elements.fields elements

def Elements.fields : Elements α → ℕ
  | .one _ t => Structured.fields t
  | .cons _ t rest => Structured.fields t + Elements.fields rest

end

/-- `structure_fields<T...>` -/
def structureFields (values : List (Structured α)) : ℕ := (values.map Structured.fields).sum

/-! ## Finding a field -/

/-- `at(structure, i, element_index)`, on the elements from the index on -/
def atElements : Elements α → ℕ → Option (Found α)
  | .one access (.leaf a), i => if i = 0 then some (access.leaf a) else none
  | .one access (.node elements), i =>
      if Elements.fields elements ≤ i then none else (atElements elements i).map access.inside
  | .cons access (.leaf a) rest, i =>
      if i = 0 then some (access.leaf a) else atElements rest (i - 1)
  | .cons access (.node elements) rest, i =>
      if Elements.fields elements ≤ i then atElements rest (i - Elements.fields elements)
      else (atElements elements i).map access.inside

/-- `at(i, first, rest...)` -/
def atValues : List (Structured α) → ℕ → Option (Found α)
  | [], _ => none
  | first :: rest, i =>
      if i < Structured.fields first then
        match first with
        | .leaf a => if i = 0 then some (.reference a) else none
        | .node elements => atElements elements i
      else atValues rest (i - Structured.fields first)

/-! ## Visiting all fields -/

/-- `collect(f, values...)` -/
def collect (f : Found α → Option β) (values : List (Structured α)) : Option (List β) :=
  (List.range (structureFields values)).mapM fun i => (atValues values i).bind f

/-! ## The order of the leaves -/

/-- The leaves of a pack, from left to right. -/
def leaves (values : List (Structured α)) : List α := values.flatMap OrderedTree.leaves

/-- What there is to find in a structure, from left to right. -/
def Elements.found : Elements α → List (Found α)
  | .one access (.leaf a) => [access.leaf a]
  | .one access (.node elements) => (Elements.found elements).map access.inside
  | .cons access (.leaf a) rest => access.leaf a :: Elements.found rest
  | .cons access (.node elements) rest =>
      (Elements.found elements).map access.inside ++ Elements.found rest

def Structured.found : Structured α → List (Found α)
  | .leaf a => [.reference a]
  | .node elements => Elements.found elements

/-- What there is to find in a pack. -/
def found (values : List (Structured α)) : List (Found α) := values.flatMap Structured.found

theorem leaves_cons (t : Structured α) (rest : List (Structured α)) :
    leaves (t :: rest) = t.leaves ++ leaves rest := List.flatMap_cons

theorem found_cons (t : Structured α) (rest : List (Structured α)) :
    found (t :: rest) = Structured.found t ++ found rest := List.flatMap_cons

theorem leaves_map (type : α → τ) (values : List (Structured α)) :
    leaves (values.map (OrderedTree.map type)) = (leaves values).map type := by
  induction values with
  | nil => rfl
  | cons t rest ih =>
      rw [List.map_cons, leaves_cons, leaves_cons, ih, OrderedTree.leaves_map, List.map_append]

/-- There is one thing to find for each leaf. -/
theorem length_elementsFound (elements : Elements α) :
    (Elements.found elements).length = elements.leaves.length := by
  induction elements using OrderedForest.induction with
  | oneLeaf access a => rfl
  | oneNode access elements ih => exact (List.length_map _).trans ih
  | consLeaf access a rest ih => exact congrArg (· + 1) ih
  | consNode access elements rest ih ihrest =>
      show ((Elements.found elements).map access.inside ++ Elements.found rest).length =
        (elements.leaves ++ rest.leaves).length
      rw [List.length_append, List.length_map, ih, ihrest, List.length_append]

theorem length_structuredFound (t : Structured α) :
    (Structured.found t).length = t.leaves.length := by
  cases t with
  | leaf a => rfl
  | node elements => exact length_elementsFound elements

theorem elementsFields_eq (elements : Elements α) :
    Elements.fields elements = elements.leaves.length := by
  induction elements using OrderedForest.induction with
  | oneLeaf access a => rfl
  | oneNode access elements ih => exact ih
  | consLeaf access a rest ih =>
      show 1 + Elements.fields rest = (a :: rest.leaves).length
      rw [ih, List.length_cons, Nat.add_comm]
  | consNode access elements rest ih ihrest =>
      show Elements.fields elements + Elements.fields rest =
        (elements.leaves ++ rest.leaves).length
      rw [ih, ihrest, List.length_append]

theorem structuredFields_eq (t : Structured α) : Structured.fields t = t.leaves.length := by
  cases t with
  | leaf a => rfl
  | node elements => exact elementsFields_eq elements

theorem structureFields_eq (values : List (Structured α)) :
    structureFields values = (leaves values).length := by
  induction values with
  | nil => rfl
  | cons t rest ih =>
      have hrest : structureFields (t :: rest) = Structured.fields t + structureFields rest :=
        List.sum_cons
      rw [hrest, ih, structuredFields_eq, leaves_cons, List.length_append]

theorem getElem?_cons_pred (a : α) (l : List α) {i : ℕ} (hi : ¬i = 0) :
    (a :: l)[i]? = l[i - 1]? := by
  obtain ⟨j, rfl⟩ := Nat.exists_eq_succ_of_ne_zero hi
  rfl

theorem atElements_eq (elements : Elements α) (i : ℕ) :
    atElements elements i = (Elements.found elements)[i]? := by
  induction elements using OrderedForest.induction generalizing i with
  -- the cases are those of the overloads: a last leaf or structure, or one before others
  | oneLeaf access a =>
      show (if i = 0 then some (access.leaf a) else none) = [access.leaf a][i]?
      split_ifs with hi
      · rw [hi]
        rfl
      · rw [getElem?_cons_pred _ [] hi]
        rfl
  | oneNode access elements ih =>
      show (if Elements.fields elements ≤ i then none
        else (atElements elements i).map access.inside) =
          ((Elements.found elements).map access.inside)[i]?
      rw [elementsFields_eq, ih, List.getElem?_map]
      split_ifs with hi
      · rw [List.getElem?_eq_none (length_elementsFound elements ▸ hi)]
        rfl
      · rfl
  | consLeaf access a rest ih =>
      show (if i = 0 then some (access.leaf a) else atElements rest (i - 1)) =
        (access.leaf a :: Elements.found rest)[i]?
      split_ifs with hi
      · rw [hi]
        rfl
      · rw [getElem?_cons_pred _ _ hi, ih]
  | consNode access elements rest ih ihrest =>
      have hlength : ((Elements.found elements).map access.inside).length =
          Elements.fields elements := by
        rw [List.length_map, length_elementsFound, elementsFields_eq]
      show (if Elements.fields elements ≤ i then atElements rest (i - Elements.fields elements)
        else (atElements elements i).map access.inside) =
          ((Elements.found elements).map access.inside ++ Elements.found rest)[i]?
      rw [ih, ihrest, ← hlength]
      split_ifs with hi
      · exact (List.getElem?_append_right hi).symm
      · rw [List.getElem?_append_left (Nat.lt_of_not_le hi), List.getElem?_map]

theorem atValues_eq (values : List (Structured α)) (i : ℕ) :
    atValues values i = (found values)[i]? := by
  induction values generalizing i with
  | nil => rfl
  | cons t rest ih =>
      rw [atValues.eq_def]
      dsimp only
      rw [structuredFields_eq, ← length_structuredFound, found_cons]
      by_cases hi : i < (Structured.found t).length
      · rw [if_pos hi, List.getElem?_append_left hi]
        cases t with
        | leaf a =>
            obtain rfl : i = 0 := Nat.lt_one_iff.mp hi
            rfl
        | node elements => exact atElements_eq elements i
      · rw [if_neg hi, List.getElem?_append_right (Nat.le_of_not_lt hi)]
        exact ih _

/-- All of some elements are given as references. -/
def AllReferences (labels : List Access) : Prop := ∀ access ∈ labels, access = .reference

instance decidableAllReferences (labels : List Access) : Decidable (AllReferences labels) :=
  inferInstanceAs (Decidable (∀ access ∈ labels, access = .reference))

@[simp]
theorem allReferences_nil : AllReferences [] := fun _ h => absurd h List.not_mem_nil

@[simp]
theorem allReferences_cons {access : Access} {labels : List Access} :
    AllReferences (access :: labels) ↔ access = .reference ∧ AllReferences labels :=
  List.forall_mem_cons

@[simp]
theorem allReferences_append {labels others : List Access} :
    AllReferences (labels ++ others) ↔ AllReferences labels ∧ AllReferences others :=
  List.forall_mem_append

theorem inside_reference : Access.inside (α := α) .reference = id := funext fun _ => rfl

theorem map_inside_reference (l : List (Found α)) : l.map (Access.inside .reference) = l := by
  rw [inside_reference, List.map_id]

/-- If all elements are given as references, that is what is found. -/
theorem elementsFound_eq {elements : Elements α} (h : AllReferences elements.labels) :
    Elements.found elements = elements.leaves.map .reference := by
  induction elements using OrderedForest.induction with
  | oneLeaf access a =>
      obtain ⟨rfl, -⟩ := allReferences_cons.mp h
      rfl
  | oneNode access elements ih =>
      obtain ⟨rfl, helements⟩ := allReferences_cons.mp h
      exact (map_inside_reference _).trans (ih helements)
  | consLeaf access a rest ih =>
      obtain ⟨rfl, hrest⟩ := allReferences_cons.mp h
      exact congrArg (Found.reference a :: ·) (ih hrest)
  | consNode access elements rest ih ihrest =>
      obtain ⟨rfl, hparts⟩ := allReferences_cons.mp h
      obtain ⟨helements, hrest⟩ := allReferences_append.mp hparts
      show (Elements.found elements).map (Access.inside .reference) ++ Elements.found rest =
        (elements.leaves ++ rest.leaves).map .reference
      rw [map_inside_reference, ih helements, ihrest hrest, List.map_append]

/-- No reference to a leaf of a copy is left. -/
theorem lvalue_inside_copy (found : Found α) : (Access.inside .copy found).lvalue = none := by
  cases found <;> rfl

theorem eq_reference_of_inside {access : Access} {elements : Elements α}
    (h : ∀ found ∈ (Elements.found elements).map access.inside, found.lvalue ≠ none) :
    access = .reference := by
  cases access with
  | reference => rfl
  | copy =>
      have hne : Elements.found elements ≠ [] := fun hnil =>
        elements.leaves_ne_nil (List.length_eq_zero_iff.mp
          ((length_elementsFound elements).symm.trans (congrArg List.length hnil)))
      obtain ⟨found, hfound⟩ := List.exists_mem_of_ne_nil _ hne
      exact absurd (lvalue_inside_copy found) (h _ (List.mem_map_of_mem hfound))

theorem eq_reference_of_leaf {access : Access} {a : α} (h : (access.leaf a).lvalue ≠ none) :
    access = .reference := by
  cases access with
  | reference => rfl
  | copy => exact absurd rfl h

/-- Every element on the way to a reference is given as one. -/
theorem allReferences_of_lvalue {elements : Elements α}
    (h : ∀ found ∈ Elements.found elements, found.lvalue ≠ none) :
    AllReferences elements.labels := by
  induction elements using OrderedForest.induction with
  | oneLeaf access a =>
      exact allReferences_cons.mpr
        ⟨eq_reference_of_leaf (h _ List.mem_cons_self), allReferences_nil⟩
  | oneNode access elements ih =>
      obtain rfl := eq_reference_of_inside h
      exact allReferences_cons.mpr ⟨rfl, ih (map_inside_reference (Elements.found elements) ▸ h)⟩
  | consLeaf access a rest ih =>
      exact allReferences_cons.mpr ⟨eq_reference_of_leaf (h _ List.mem_cons_self),
        ih fun found hfound => h found (List.mem_cons_of_mem _ hfound)⟩
  | consNode access elements rest ih ihrest =>
      obtain ⟨helements, hrest⟩ := List.forall_mem_append.mp h
      obtain rfl := eq_reference_of_inside helements
      exact allReferences_cons.mpr ⟨rfl, allReferences_append.mpr
        ⟨ih (map_inside_reference (Elements.found elements) ▸ helements), ihrest hrest⟩⟩

/-- The calls for some values, numbered from an index on. -/
def calls (i : ℕ) (l : List α) : List (ℕ × α) := (l.zipIdx i).map Prod.swap

/-- Something is found at an index where the leaf is. -/
theorem getElem?_bind {l : List (Found α)} {leaves : List α} {read : Found α → Option α}
    (h : l.map read = leaves.map some) (i : ℕ) : l[i]?.bind read = leaves[i]? := by
  have hi := congrArg (·[i]?) h
  simp only [List.getElem?_map] at hi
  cases hfound : l[i]? <;> cases hleaf : leaves[i]? <;> simp_all

/-- A function on what `at` finds, that reads it. -/
theorem bind_map {l : List (Found α)} {leaves : List α} {read : Found α → Option α}
    (h : l.map read = leaves.map some) (f : α → β) (i : ℕ) :
    (l[i]?.bind fun found => (read found).map f) = leaves[i]?.map f := by
  rw [← getElem?_bind h, Option.map_bind]
  rfl

section

variable {values : List (Structured α)} {elements : Elements α} {read : Found α → Option α}

theorem collect_eq (h : (found values).map read = (leaves values).map some) (f : α → β) :
    collect (fun found => (read found).map f) values = some ((leaves values).map f) := by
  simp only [collect, structureFields_eq, atValues_eq, bind_map h, mapM_range_getElem?_map]

end

/-! ## One order -/

end Hmpc.Typing
