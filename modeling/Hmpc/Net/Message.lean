/-
# Hmpc.Net.Message -- message kinds, metadata and the integers on the wire

The data model shared by all networking modules: the `MessageKind` enumeration with its `u8` codes
and the maps between a collective operation and the kind of its consistency checks, the metadata of
a message, fixed-size byte arrays, and the little-endian encoding of fixed-width integers (`u8`,
`u16`, `u64` and `u128` are bit vectors of these widths).
-/
import Mathlib.Data.List.Sort
import Hmpc.Lib.Limbs

namespace Hmpc.Net

open Hmpc.Lib

/-! ## Bytes -/

abbrev Byte := BitVec 8

/-- A byte array of fixed size, `[u8; n]`. -/
abbrev Chunk (n : ℕ) := {bytes : List Byte // bytes.length = n}

/-- `to_le_bytes` of an unsigned integer of `n` bytes. -/
def toLeBytes (n : ℕ) (x : BitVec (8 * n)) : List Byte := Limbs.ofValue n x.toNat

/-- `from_le_bytes` of an unsigned integer of `n` bytes. -/
def fromLeBytes (n : ℕ) (bytes : Chunk n) : BitVec (8 * n) :=
  BitVec.ofNat (8 * n) (Limbs.value bytes.1)

@[simp] theorem length_toLeBytes (n : ℕ) (x : BitVec (8 * n)) : (toLeBytes n x).length = n :=
  Limbs.length_ofValue n _

@[simp] theorem fromLeBytes_toLeBytes (n : ℕ) (x : BitVec (8 * n)) (h) :
    fromLeBytes n ⟨toLeBytes n x, h⟩ = x := by
  have hx : x.toNat < (2 ^ 8) ^ n := by
    rw [← pow_mul]
    exact x.isLt
  simp only [fromLeBytes, toLeBytes]
  rw [Limbs.value_ofValue_of_lt hx, BitVec.ofNat_toNat, BitVec.setWidth_eq]

@[simp] theorem toLeBytes_fromLeBytes (n : ℕ) (bytes : Chunk n) :
    toLeBytes n (fromLeBytes n bytes) = bytes.1 := by
  obtain ⟨bytes, rfl⟩ := bytes
  have hlt : Limbs.value bytes < 2 ^ (8 * bytes.length) := by
    rw [pow_mul]
    exact Limbs.value_lt bytes
  rw [toLeBytes, fromLeBytes, BitVec.toNat_ofNat, Nat.mod_eq_of_lt hlt, Limbs.ofValue_value]

theorem toLeBytes_injective (n : ℕ) : Function.Injective (toLeBytes n) := by
  intro x y h
  have hx := fromLeBytes_toLeBytes n x (length_toLeBytes n x)
  have hy := fromLeBytes_toLeBytes n y (length_toLeBytes n y)
  rw [← hx, ← hy]
  exact congrArg (fromLeBytes n) (Subtype.ext h)

/-- `split_first_chunk::<n>`. -/
def splitFirstChunk (n : ℕ) (bytes : List Byte) : Option (Chunk n × List Byte) :=
  if h : n ≤ bytes.length then some (⟨bytes.take n, by simp [h]⟩, bytes.drop n) else none

/-- `split_last_chunk::<n>`. -/
def splitLastChunk (n : ℕ) (bytes : List Byte) : Option (List Byte × Chunk n) :=
  if h : n ≤ bytes.length then
    some (bytes.take (bytes.length - n), ⟨bytes.drop (bytes.length - n), by simp; omega⟩)
  else none

theorem splitFirstChunk_append {n : ℕ} (chunk : Chunk n) (rest : List Byte) :
    splitFirstChunk n (chunk.1 ++ rest) = some (chunk, rest) := by
  obtain ⟨chunk, rfl⟩ := chunk
  simp [splitFirstChunk]

theorem splitFirstChunk_eq_some {n : ℕ} {bytes rest : List Byte} {chunk : Chunk n}
    (h : splitFirstChunk n bytes = some (chunk, rest)) : bytes = chunk.1 ++ rest := by
  unfold splitFirstChunk at h
  split at h
  · obtain ⟨rfl, rfl⟩ := Prod.mk.inj (Option.some.inj h)
    exact (List.take_append_drop n bytes).symm
  · cases h

theorem splitLastChunk_append {n : ℕ} (front : List Byte) (chunk : Chunk n) :
    splitLastChunk n (front ++ chunk.1) = some (front, chunk) := by
  obtain ⟨chunk, rfl⟩ := chunk
  simp [splitLastChunk]

theorem splitLastChunk_eq_some {n : ℕ} {bytes front : List Byte} {chunk : Chunk n}
    (h : splitLastChunk n bytes = some (front, chunk)) : bytes = front ++ chunk.1 := by
  unfold splitLastChunk at h
  split at h
  · obtain ⟨rfl, rfl⟩ := Prod.mk.inj (Option.some.inj h)
    exact (List.take_append_drop _ bytes).symm
  · cases h

/-! ## Message kinds -/

abbrev PartyID := BitVec 16
abbrev MessageFormat := BitVec 8
abbrev MessageFlags := BitVec 8
abbrev MessageDatatype := BitVec 8
abbrev MessageID := BitVec 64
abbrev MessageSize := BitVec 64
abbrev SessionID := BitVec 128
abbrev OwnedData := List Byte

instance : LawfulBEq PartyID := inferInstance

inductive MessageKind where
  | send
  | broadcast
  | scatter
  | gather
  | allGather
  | allToAll
  | consistencyCheckBroadcast
  | consistencyCheckAllGather
  deriving DecidableEq, Repr

namespace MessageKind

/-- The discriminant, `kind as u8`. -/
def toUnderlying : MessageKind → BitVec 8
  | send => 1
  | broadcast => 2
  | scatter => 3
  | gather => 4
  | allGather => 5
  | allToAll => 6
  | consistencyCheckBroadcast => 18
  | consistencyCheckAllGather => 21

/-- `TryFrom<u8>`: the first discriminant that matches. -/
def tryFrom (value : BitVec 8) : Option MessageKind :=
  [send, broadcast, scatter, gather, allGather, allToAll, consistencyCheckBroadcast,
    consistencyCheckAllGather].find? fun kind => value == kind.toUnderlying

def toLeBytes (kind : MessageKind) : List Byte := Net.toLeBytes 1 kind.toUnderlying

def tryFromLeBytes (bytes : Chunk 1) : Option MessageKind := tryFrom (fromLeBytes 1 bytes)

def needsCheck : MessageKind → Bool
  | broadcast | allGather => true
  | _ => false

def isConsistencyCheck : MessageKind → Bool
  | consistencyCheckBroadcast | consistencyCheckAllGather => true
  | _ => false

def tryToCheck : MessageKind → Option MessageKind
  | broadcast => some consistencyCheckBroadcast
  | allGather => some consistencyCheckAllGather
  | _ => none

def tryFromCheck : MessageKind → Option MessageKind
  | consistencyCheckBroadcast => some broadcast
  | consistencyCheckAllGather => some allGather
  | _ => none

@[simp] theorem length_toLeBytes (kind : MessageKind) : kind.toLeBytes.length = 1 := rfl

@[simp] theorem tryFrom_toUnderlying (kind : MessageKind) :
    tryFrom kind.toUnderlying = some kind := by
  cases kind <;> rfl

theorem tryFrom_eq_some {value : BitVec 8} {kind : MessageKind} (h : tryFrom value = some kind) :
    kind.toUnderlying = value := by
  have := List.find?_some h
  exact (beq_iff_eq.mp this).symm

theorem toUnderlying_injective : Function.Injective toUnderlying := by
  intro k l h
  have := tryFrom_toUnderlying k
  rw [h, tryFrom_toUnderlying] at this
  exact (Option.some.inj this).symm

theorem toLeBytes_injective : Function.Injective toLeBytes := fun _ _ h =>
  toUnderlying_injective (Net.toLeBytes_injective 1 h)

theorem tryToCheck_isSome {kind : MessageKind} :
    kind.tryToCheck.isSome = kind.needsCheck := by
  cases kind <;> rfl

theorem tryFromCheck_isSome {kind : MessageKind} :
    kind.tryFromCheck.isSome = kind.isConsistencyCheck := by
  cases kind <;> rfl

theorem tryFromCheck_eq_some_iff {kind check : MessageKind} :
    check.tryFromCheck = some kind ↔ kind.tryToCheck = some check := by
  cases kind <;> cases check <;> simp [tryFromCheck, tryToCheck]

theorem isConsistencyCheck_of_tryToCheck {kind check : MessageKind}
    (h : kind.tryToCheck = some check) : check.isConsistencyCheck = true := by
  rw [← tryFromCheck_isSome, tryFromCheck_eq_some_iff.mpr h]
  rfl

theorem needsCheck_of_tryFromCheck {kind check : MessageKind}
    (h : check.tryFromCheck = some kind) : kind.needsCheck = true := by
  rw [← tryToCheck_isSome, tryFromCheck_eq_some_iff.mp h]
  rfl

theorem not_isConsistencyCheck_of_needsCheck {kind : MessageKind} (h : kind.needsCheck = true) :
    kind.isConsistencyCheck = false := by
  cases kind <;> simp_all [needsCheck, isConsistencyCheck]

end MessageKind

/-! ## Metadata -/

/-- `metadata::Message`. -/
structure Message where
  kind : MessageKind
  datatype : MessageDatatype
  sender : PartyID
  receiver : PartyID
  id : MessageID
  size : MessageSize
  deriving DecidableEq, Repr

/-- A communicator is a `BTreeSet<PartyID>`: the parties in increasing order. -/
structure Communicator where
  toList : List PartyID
  sorted : toList.Pairwise (· < ·)
  deriving DecidableEq

namespace Communicator

instance : Membership PartyID Communicator := ⟨fun c party => party ∈ c.toList⟩

theorem mem_def {party : PartyID} {c : Communicator} : party ∈ c ↔ party ∈ c.toList := Iff.rfl

instance (party : PartyID) (c : Communicator) : Decidable (party ∈ c) :=
  inferInstanceAs (Decidable (party ∈ c.toList))

theorem nodup (c : Communicator) : c.toList.Nodup :=
  c.sorted.imp fun h => BitVec.ne_of_lt h

/-- A communicator is determined by its members. -/
theorem ext_mem {c d : Communicator} (h : ∀ party, party ∈ c ↔ party ∈ d) : c = d := by
  have hperm : c.toList.Perm d.toList := (List.perm_ext_iff_of_nodup c.nodup d.nodup).mpr h
  have hlist : c.toList = d.toList :=
    hperm.eq_of_pairwise (fun _ _ _ _ hab hba => absurd hba (BitVec.lt_asymm hab)) c.sorted d.sorted
  cases c
  cases d
  simpa using hlist

/-- `iter().filter(p).copied().collect()`. -/
def filter (p : PartyID → Bool) (c : Communicator) : Communicator :=
  ⟨c.toList.filter p, c.sorted.filter p⟩

@[simp] theorem mem_filter {p : PartyID → Bool} {c : Communicator} {party : PartyID} :
    party ∈ c.filter p ↔ party ∈ c ∧ p party := List.mem_filter

/-- `is_subset`. -/
def isSubset (c d : Communicator) : Bool := c.toList.all fun party => decide (party ∈ d)

theorem isSubset_iff {c d : Communicator} : c.isSubset d ↔ ∀ party ∈ c, party ∈ d := by
  simp [isSubset, mem_def]

end Communicator

end Hmpc.Net
