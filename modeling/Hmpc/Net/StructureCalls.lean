/-
# Hmpc.Net.StructureCalls -- operations with several messages

An operation describes the fields of its messages, makes the rows of data of its results and hands
both to the network. The metadata are collected from the own messages, or from those of the first
party where nothing is sent, and name the receiver of a field where there are several.
-/
import Hmpc.Net.Structure

namespace Hmpc.Net.Structure

open Hmpc.Lib Hmpc.Typing

variable {α μ τ δ : Type} {n : ℕ}

/-! ## The operations -/

/-- A tensor, or a value: what a message says of it, and where its data are. -/
structure Tensor (τ δ : Type) where
  type : τ
  data : δ

/-- `make_data_ptrs` -/
def makeDataPtrs (row : Row (Tensor τ δ) n) : Fin (n + 1) → Option δ := fun i =>
  (row i).map fun accessor => accessor.target.data

/-- `make_multi_data_ptrs` -/
def makeMultiDataPtrs (rows : List (Row (Tensor τ δ) n)) : List (Fin (n + 1) → Option δ) :=
  rows.map makeDataPtrs

/-- What is handed to the network. -/
structure Call (μ δ : Type) (n : ℕ) where
  metadata : List μ
  data : List (Fin (n + 1) → Option δ)

section

variable (kind : τ → Bool) (id : PartyID) (communicator : Fin (n + 1) → PartyID) (describe : τ → μ)

/-- The metadata of a field that is found. -/
def describeFound (found : Found (Tensor τ δ)) : Option μ :=
  found.read.map fun tensor => describe tensor.type

/-- `all_gather` of one message, as sender and receiver -/
def allGather (value : Structured (Tensor τ δ)) (result : Collection (Tensor τ δ) n) :
    Option (Call μ δ n) := do
  let metadata ← Typing.collect (describeFound describe) [value]
  match makeAccessors (kind ∘ Tensor.type) id communicator result with
  | .multi accessors => return ⟨metadata, makeMultiDataPtrs accessors⟩
  | .single accessors => return ⟨metadata, [makeDataPtrs accessors]⟩

/-- `all_gather`, as sender and receiver -/
def multiAllGather (values : List (Structured (Tensor τ δ)))
    (result : List (Collection (Tensor τ δ) n)) : Option (Call μ δ n) := do
  let metadata ← Typing.collect (describeFound describe) values
  let accessors ← makeMultiAccessors (kind ∘ Tensor.type) id communicator result
  return ⟨metadata, makeMultiDataPtrs accessors⟩

/-- `all_to_all`: what is sent, and what is received -/
def multiAllToAll (tensors result : List (Collection (Tensor τ δ) n)) :
    Option (Call μ δ n × Call μ δ n) := do
  let own ← tensors.mapM fun part => part.stdGet firstParty
  let metadata ← Typing.collect (describeFound describe) own
  let sendAccessors ← makeMultiAccessors (kind ∘ Tensor.type) id (fun _ => id) tensors
  let receiveAccessors ← makeMultiAccessors (kind ∘ Tensor.type) id communicator result
  return (⟨metadata, makeMultiDataPtrs sendAccessors⟩,
    ⟨metadata, makeMultiDataPtrs receiveAccessors⟩)

end

/-- An entry and a row for each leaf: the entry describes it, and the row has it for all parties. -/
structure OneEach (describe : τ → μ) (parts : List (Collection (Tensor τ δ) n))
    (m : ℕ) (metadata : List μ) (data : List (Fin (n + 1) → Option δ)) : Prop where
  metadata_length : metadata.length = m
  data_length : data.length = m
  leaf : ∀ j < m, ∀ i, ∃ tensor row, (leaves (column parts i))[j]? = some tensor ∧
    metadata[j]? = some (describe tensor.type) ∧ data[j]? = some row ∧ row i = some tensor.data

/-! ## One entry and one row for each leaf -/

section

variable {kind : τ → Bool} {id : PartyID} {communicator : Fin (n + 1) → PartyID} {describe : τ → μ}
  {types : List (Structured τ)} {parts : List (Collection (Tensor τ δ) n)}
  {values : List (Structured (Tensor τ δ))}

/-- One row for each field of the types. -/
def fieldData (kind : τ → Bool) (id : PartyID) (communicator : Fin (n + 1) → PartyID)
    (types : List (Structured τ)) (parts : List (Collection (Tensor τ δ) n)) :
    List (Fin (n + 1) → Option δ) :=
  makeMultiDataPtrs
    (fieldRows (kind ∘ Tensor.type) id communicator (leaves types).length parts)

theorem getElem?_fieldData {j : ℕ} (hj : j < (leaves types).length) :
    (fieldData kind id communicator types parts)[j]? = some (makeDataPtrs fun i =>
      accessorAt id (communicator i) (accessed (kind ∘ Tensor.type) parts i) j) := by
  rw [fieldData, makeMultiDataPtrs, List.getElem?_map, getElem?_fieldRows hj]
  rfl

theorem OneEach.allInPlace {metadata : List μ} (h : OfTypes Tensor.type types parts)
    (hone : OneEach describe parts (leaves types).length metadata
      (fieldData kind id communicator types parts)) : AllInPlace kind types parts := by
  have haccess (j : ℕ) (hj : j < (leaves types).length) (i : Fin (n + 1)) :
      accessorAt id (communicator i) (accessed (kind ∘ Tensor.type) parts i) j ≠ none := by
    intro hnone
    obtain ⟨tensor, row, -, -, hrow, hdata⟩ := hone.leaf j hj i
    obtain rfl := Option.some.inj ((getElem?_fieldData hj).symm.trans hrow)
    rw [makeDataPtrs, hnone] at hdata
    cases hdata
  exact h.allInPlace_of_rows haccess

/-- What a sender accesses are its own values. -/
def own (values : List (Structured α)) : List (Collection α 0) :=
  values.map fun value => ⟨.array, fun _ => value⟩

end

/-- `shares` of two parties: its elements are copies, and give their values as references. -/
def shares (a b : α) : Structured α :=
  .node (.cons .copy (.node (.one .reference (.leaf a)))
    (.one .copy (.node (.one .reference (.leaf b)))))

end Hmpc.Net.Structure
