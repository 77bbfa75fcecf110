/-
# Hmpc.Net.Structure -- messages that are structures

A message may be a structure, and several messages may be sent at once. For each field there is one
metadata entry, and one row of data with what every party has of that field. The rows are made by a
recursion of their own over the results of all messages, which looks at the first party only: so all
parties need results of one type, and then the entry and the row of an index are about the same
leaf.

An accessor stays after the expression that makes it. So there is none for a value that is only a
copy, unless it is a tensor: the copies of a tensor have one buffer.
-/
import Hmpc.Net.Message
import Hmpc.Typing.Structure

namespace Hmpc.Net.Structure

open Hmpc.Lib Hmpc.Typing

variable {α μ τ δ : Type} {n : ℕ}

/-! ## Collections -/

/-- The values of all parties are a `std::array`, or a structure of the parties that has its own
`get`: that of `shares` returns copies. -/
inductive Storage
  | array
  | owner (access : Access)
  deriving DecidableEq

/-- What `get<i>(values)` returns. -/
def Storage.access : Storage → Access
  | .array => .reference
  | .owner access => access

/-- What all parties have of a message. -/
structure Collection (α : Type) (n : ℕ) where
  storage : Storage
  values : Fin (n + 1) → Structured α

/-- The party from whose values the types of the messages are taken. -/
abbrev firstParty : Fin (n + 1) := 0

/-- `std::get<i>(values)` -/
def Collection.stdGet (values : Collection α n) (i : Fin (n + 1)) : Option (Structured α) :=
  if values.storage = .array then some (values.values i) else none

/-! ## Accessors -/

/-- What is read or written by the network. -/
structure Accessor (α : Type) where
  target : α
  isRead : Bool

/-- `make_accessor` -/
def makeAccessor (id party : PartyID) (target : α) : Accessor α := ⟨target, id == party⟩

/-- A tuple with one accessor for each party; one is missing where the source does not compile, or
where it would access a value that has ended. -/
abbrev Row (α : Type) (n : ℕ) := Fin (n + 1) → Option (Accessor α)

/-- One accessor for each party, or a multi accessor: a tuple of these. -/
inductive Accessors (α : Type) (n : ℕ)
  | single (row : Row α n)
  | multi (rows : List (Row α n))

def Accessors.row : Accessors α n → Option (Row α n)
  | single row => some row
  | multi _ => none

section

variable (isTensor : α → Bool) (id : PartyID) (communicator : Fin (n + 1) → PartyID)

/-- What `make_accessor` accesses of a field that is found in an element of a collection. -/
def target : Access → Found α → Option α
  | .reference, found => found.lvalue
  | .copy, found => found.lvalue.filter isTensor

/-- The accessors of values that are leaves. -/
def leafAccessors (values : Collection α n) : Row α n := fun i =>
  match values.stdGet i with
  | some (.leaf a) => some (makeAccessor id (communicator i) a)
  | _ => none

/-- The accessors of a field, `at(get<i>(values), j)`. -/
def fieldAccessors (values : Collection α n) (j : ℕ) : Row α n := fun i =>
  match values.values i with
  | .leaf _ => none
  | .node elements => ((atElements elements j).bind (target isTensor values.storage.access)).map
      (makeAccessor id (communicator i))

/-- `make_accessors` -/
def makeAccessors (values : Collection α n) : Accessors α n :=
  match values.values 0 with
  | .leaf _ => .single (leafAccessors id communicator values)
  | .node elements => .multi ((List.range (Elements.fields elements)).map
      (fieldAccessors isTensor id communicator values))

/-- `make_accessors_for_parties(j, tuple_index)`, on the values from the index on. -/
def makeAccessorsForParties : List (Collection α n) → ℕ → Option (Row α n)
  | [], _ => none
  | values :: rest, j =>
      match values.values 0 with
      | .leaf _ =>
          if j = 0 then (makeAccessors isTensor id communicator values).row
          else makeAccessorsForParties rest (j - 1)
      | .node elements =>
          if Elements.fields elements ≤ j then
            makeAccessorsForParties rest (j - Elements.fields elements)
          else some (fieldAccessors isTensor id communicator values j)

/-- `structure` -/
def isStructure : Structured α → Bool
  | .leaf _ => false
  | .node _ => true

/-- `make_multi_accessors` -/
def makeMultiAccessors (values : List (Collection α n)) : Option (List (Row α n)) :=
  if values.any fun part => isStructure (part.values 0) then
    (List.range (structureFields (values.map fun part => part.values 0))).mapM
      (makeAccessorsForParties isTensor id communicator values)
  else values.mapM fun part => (makeAccessors isTensor id communicator part).row

end

/-! ## What the rows access -/

/-- All parties have values of one type. -/
def OfType (type : α → τ) (T : Structured τ) (values : Collection α n) : Prop :=
  ∀ i, (values.values i).map type = T

/-- The messages of all parties have these types. -/
def OfTypes (type : α → τ) (types : List (Structured τ)) (parts : List (Collection α n)) : Prop :=
  List.Forall₂ (OfType type) types parts

/-- What a party has of some messages. -/
def column (parts : List (Collection α n)) (i : Fin (n + 1)) : List (Structured α) :=
  parts.map fun part => part.values i

/-- The values of all parties are accessed where they are. -/
def InPlace (isTensor : α → Bool) (storage : Storage) : Structured α → Prop
  | .leaf _ => storage = .array
  | .node elements => AllReferences elements.labels ∧
      (storage.access = .copy → ∀ a ∈ elements.leaves, isTensor a)

/-- The values of all messages are, by their types. -/
def AllInPlace (kind : τ → Bool) (types : List (Structured τ)) (parts : List (Collection α n)) :
    Prop :=
  List.Forall₂ (fun T part => InPlace kind part.storage T) types parts

/-- What the accessors of a party access of a message, from left to right. -/
def Collection.accessed (isTensor : α → Bool) (values : Collection α n) (i : Fin (n + 1)) :
    List (Option α) :=
  match values.values i with
  | .leaf a => [if values.storage = .array then some a else none]
  | .node elements => (Elements.found elements).map (target isTensor values.storage.access)

/-- What they access of some messages. -/
def accessed (isTensor : α → Bool) (parts : List (Collection α n)) (i : Fin (n + 1)) :
    List (Option α) :=
  parts.flatMap fun part => part.accessed isTensor i

section

variable {isTensor : α → Bool} {kind : τ → Bool} {type : α → τ} {T : Structured τ}
  {values : Collection α n} {types : List (Structured τ)} {parts : List (Collection α n)}
  {id : PartyID} {communicator : Fin (n + 1) → PartyID}

theorem inPlace_map (kind : τ → Bool) (storage : Storage) (t : Structured α) :
    InPlace kind storage (t.map type) ↔ InPlace (kind ∘ type) storage t := by
  cases t with
  | leaf a => exact Iff.rfl
  | node elements =>
      show AllReferences (elements.map type).labels ∧ (_ → ∀ a ∈ (elements.map type).leaves, _) ↔ _
      rw [OrderedForest.labels_map, OrderedForest.leaves_map, List.forall_mem_map]
      rfl

theorem inPlace_of_accessed {i : Fin (n + 1)} (h : none ∉ values.accessed isTensor i) :
    InPlace isTensor values.storage (values.values i) := by
  unfold Collection.accessed at h
  cases hvalue : values.values i with
  | leaf a =>
      rw [hvalue] at h
      by_contra hstorage
      exact h (List.mem_singleton.mpr (if_neg hstorage).symm)
  | node elements =>
      rw [hvalue] at h
      have htarget (found : Found α) (hfound : found ∈ Elements.found elements) :
          target isTensor values.storage.access found ≠ none := fun heq =>
        h (List.mem_map.mpr ⟨found, hfound, heq⟩)
      have hreferences : AllReferences elements.labels :=
        allReferences_of_lvalue fun found hfound hnone => htarget found hfound (by
          cases haccess : values.storage.access <;> simp [target, hnone])
      refine ⟨hreferences, fun haccess a ha => ?_⟩
      have hfound : Found.reference a ∈ Elements.found elements :=
        elementsFound_eq hreferences ▸ List.mem_map_of_mem ha
      by_contra hvalue
      refine htarget _ hfound ?_
      rw [haccess]
      exact Option.filter_some_eq_none.mpr hvalue

theorem OfType.leaves_eq (h : OfType type T values) (i : Fin (n + 1)) :
    (values.values i).leaves.map type = T.leaves := by
  rw [← OrderedTree.leaves_map, h i]

theorem OfType.length_eq (h : OfType type T values) (i : Fin (n + 1)) :
    (values.values i).leaves.length = T.leaves.length := by
  rw [← h.leaves_eq i, List.length_map]

theorem OfTypes.column_eq (h : OfTypes type types parts) (i : Fin (n + 1)) :
    (column parts i).map (OrderedTree.map type) = types := by
  induction h with
  | nil => rfl
  | cons hpart _ ih => exact congrArg₂ List.cons (hpart i) ih

theorem OfTypes.leaves_eq (h : OfTypes type types parts) (i : Fin (n + 1)) :
    (leaves (column parts i)).map type = leaves types := by
  rw [← leaves_map, h.column_eq]

theorem OfTypes.length_eq (h : OfTypes type types parts) (i : Fin (n + 1)) :
    (leaves (column parts i)).length = (leaves types).length := by
  rw [← h.leaves_eq i, List.length_map]

theorem OfType.inPlace_iff (h : OfType type T values) (i : Fin (n + 1)) :
    InPlace (kind ∘ type) values.storage (values.values i) ↔ InPlace kind values.storage T := by
  rw [← inPlace_map, h i]

/-- There is one place for each leaf. -/
theorem length_accessed (isTensor : α → Bool) (values : Collection α n) (i : Fin (n + 1)) :
    (values.accessed isTensor i).length = (values.values i).leaves.length := by
  unfold Collection.accessed
  cases values.values i with
  | leaf a => rfl
  | node elements => exact (List.length_map _).trans (length_elementsFound elements)

theorem accessed_cons (values : Collection α n) (i : Fin (n + 1)) :
    accessed isTensor (values :: parts) i =
      values.accessed isTensor i ++ accessed isTensor parts i := List.flatMap_cons

theorem OfTypes.length_accessed (h : OfTypes type types parts) (i : Fin (n + 1)) :
    (accessed isTensor parts i).length = (leaves types).length := by
  induction h with
  | nil => rfl
  | cons hpart _ ih =>
      rw [accessed_cons, leaves_cons, List.length_append, List.length_append, ih,
        Structure.length_accessed, hpart.length_eq]

theorem OfTypes.allInPlace (h : OfTypes type types parts)
    (haccessed : ∀ i, none ∉ accessed (kind ∘ type) parts i) : AllInPlace kind types parts := by
  induction h with
  | nil => exact .nil
  | cons hpart _ ih =>
      refine .cons ((hpart.inPlace_iff 0).mp (inPlace_of_accessed fun hnone => ?_))
        (ih fun i hnone => ?_)
      · exact haccessed 0 (accessed_cons _ 0 ▸ List.mem_append_left _ hnone)
      · exact haccessed i (accessed_cons _ i ▸ List.mem_append_right _ hnone)

/-- An accessor of what is accessed at an index. -/
def accessorAt (id party : PartyID) (targets : List (Option α)) (j : ℕ) : Option (Accessor α) :=
  (targets[j]?.bind fun target => target).map (makeAccessor id party)

/-- Rows over some messages: row `j` has what every party accesses of leaf `j`. -/
def fieldRows (isTensor : α → Bool) (id : PartyID) (communicator : Fin (n + 1) → PartyID) (m : ℕ)
    (parts : List (Collection α n)) : List (Row α n) :=
  (List.range m).map fun j i => accessorAt id (communicator i) (accessed isTensor parts i) j

theorem getElem?_fieldRows {m j : ℕ} (hj : j < m) :
    (fieldRows isTensor id communicator m parts)[j]? = some fun i =>
      accessorAt id (communicator i) (accessed isTensor parts i) j := by
  rw [fieldRows, List.getElem?_map, List.getElem?_range hj]
  rfl

/-- Where every row has an accessor of every party, the values are in place. -/
theorem OfTypes.allInPlace_of_rows (h : OfTypes type types parts)
    (hrows : ∀ j < (leaves types).length, ∀ i,
      accessorAt id (communicator i) (accessed (kind ∘ type) parts i) j ≠ none) :
    AllInPlace kind types parts := by
  refine h.allInPlace fun i hnone => ?_
  obtain ⟨j, hj, hget⟩ := List.getElem_of_mem hnone
  refine hrows j (h.length_accessed i ▸ hj) i ?_
  rw [accessorAt, List.getElem?_eq_getElem hj, hget]
  rfl

end

end Hmpc.Net.Structure
