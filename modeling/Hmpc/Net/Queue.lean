/-
# Hmpc.Net.Queue -- the collective operations: `QueueState`

Each of the four operations builds the metadata of the messages it sends and of the messages it
wants to receive, separately, from the operation and the own id. The ID of a message is the start
of a hash of the operation plus a counter that is kept under this hash, so that it is the same at
all parties if their counters are.

A call that panics (an assertion, an overflow in a build that checks for it) or that returns an
error of `ensure_consistency` has no state after it. Everything a call does to the outside is an
`Action`, in the order in which the tasks are spawned; `δ` is the type of the data pointers.
-/
import Hmpc.Net.Consistency

namespace Hmpc.Net

open Hmpc.Lib

/-! ## `vec::Vec2d` -/

structure Vec2d (α : Type) where
  data : List α
  outerExtent : ℕ
  innerExtent : ℕ
  length_eq : data.length = outerExtent * innerExtent

namespace Vec2d

variable {α : Type}

/-- The chunks of the iterator, `chunks_exact`, which panics on chunks of size zero. -/
def rows (v : Vec2d α) : Option (List (List α)) :=
  if v.innerExtent = 0 then none
  else some ((List.range v.outerExtent).map fun i =>
    (v.data.drop (i * v.innerExtent)).take v.innerExtent)

theorem rows_length {v : Vec2d α} {rows : List (List α)} (h : v.rows = some rows) :
    rows.length = v.outerExtent ∧ ∀ row ∈ rows, row.length = v.innerExtent := by
  unfold Vec2d.rows at h
  split at h
  · cases h
  · rw [← Option.some.inj h]
    refine ⟨by simp, fun row hrow => ?_⟩
    obtain ⟨i, hi, rfl⟩ := List.mem_map.mp hrow
    have hlt : (i + 1) * v.innerExtent ≤ v.outerExtent * v.innerExtent :=
      Nat.mul_le_mul_right _ (List.mem_range.mp hi)
    rw [Nat.add_mul, Nat.one_mul] at hlt
    rw [List.length_take, List.length_drop, v.length_eq]
    omega

end Vec2d

/-! ## The messages of operations -/

structure Broadcast where
  datatype : MessageDatatype
  sender : PartyID
  size : MessageSize
  deriving DecidableEq

structure Gather where
  datatype : MessageDatatype
  receiver : PartyID
  size : MessageSize
  deriving DecidableEq

structure AllGather where
  datatype : MessageDatatype
  size : MessageSize
  deriving DecidableEq

structure AllToAll where
  datatype : MessageDatatype
  size : MessageSize
  deriving DecidableEq

/-- `BaseMessageID` and `ToMessage`, as the macro `message!` implements them from the kind and the
members of a message. -/
class BaseMessageID (μ : Type) where
  kind : MessageKind
  datatype : μ → MessageDatatype
  members : μ → List PartyID
  size : μ → MessageSize

instance : BaseMessageID Broadcast :=
  ⟨.broadcast, Broadcast.datatype, fun m => [m.sender], Broadcast.size⟩

instance : BaseMessageID Gather :=
  ⟨.gather, Gather.datatype, fun m => [m.receiver], Gather.size⟩

instance : BaseMessageID AllGather :=
  ⟨.allGather, AllGather.datatype, fun _ => [], AllGather.size⟩

instance : BaseMessageID AllToAll :=
  ⟨.allToAll, AllToAll.datatype, fun _ => [], AllToAll.size⟩

namespace BaseMessageID

variable {μ : Type} [BaseMessageID μ]

def hashMetadata (self : μ) : List Byte :=
  (kind μ).toLeBytes ++ toLeBytes 1 (datatype self) ++ (members self).flatMap (toLeBytes 2)

def hashCommunicator (communicator : Communicator) : List Byte :=
  toLeBytes 8 (BitVec.ofNat 64 communicator.toList.length) ++
    communicator.toList.flatMap (toLeBytes 2)

/-- What `hash` feeds to SHA-256. -/
def digestInput (self : μ) (senders receivers : Communicator) : List Byte :=
  hashCommunicator senders ++ hashMetadata self ++ hashCommunicator receivers

def toMessage (self : μ) (sender receiver : PartyID) (id : MessageID) : Message :=
  ⟨kind μ, datatype self, sender, receiver, id, size self⟩

def toConsistencyCheck (self : μ) (hkind : (kind μ).needsCheck = true) (sender : PartyID)
    (receivers : Communicator) (id : MessageID) : ConsistencyCheck :=
  ⟨⟨kind μ, hkind⟩, datatype self, sender, receivers, id⟩

end BaseMessageID

open BaseMessageID

/-! ## The state of a queue -/

/-- The build: two features, and whether overflows are checked for (they wrap otherwise). -/
structure QueueBuild where
  collectiveConsistency : Bool
  statistics : Bool
  overflowChecks : Bool

/-- `x + y` on `u64`. -/
def QueueBuild.add (build : QueueBuild) (x y : BitVec 64) : Option (BitVec 64) :=
  if build.overflowChecks && decide (2 ^ 64 ≤ x.toNat + y.toNat) then none else some (x + y)

theorem QueueBuild.add_eq_some {build : QueueBuild} {x y z : BitVec 64}
    (h : build.add x y = some z) : z = x + y := by
  unfold QueueBuild.add at h
  split at h
  · cases h
  · exact (Option.some.inj h).symm

structure NetworkStatistics where
  sent : MessageSize
  received : MessageSize
  rounds : MessageSize

def NetworkStatistics.new : NetworkStatistics := ⟨0, 0, 0⟩

/-- What a queue does: it waits for the consistency task, requests a check, or spawns a task that
sends or receives a message. -/
inductive Action (δ : Type) where
  | ensureConsistency
  | checkConsistency (check : ConsistencyCheck)
  | send (message : Message) (data : δ)
  | receive (message : Message) (data : δ)

structure QueueState (δ : Type) where
  id : PartyID
  counters : Map (MessageKind × MessageDatatype × Hash) MessageID
  networkStatistics : NetworkStatistics
  /-- what was done so far -/
  log : List (Action δ)

/-- The queue of a party at the start. -/
def QueueState.initial (δ : Type) (id : PartyID) : QueueState δ := ⟨id, ∅, .new, []⟩

/-- The first bytes of a counter key. -/
def idOfKey (key : Hash) : MessageID :=
  fromLeBytes 8 ⟨key.1.take 8, by rw [List.length_take, key.2]; rfl⟩

namespace QueueState

variable {δ : Type} (build : QueueBuild) (hash : List Byte → Hash)

/-- `entry(key).and_modify(|c| *c += 1).or_insert(1)` -/
def nextCounter (self : QueueState δ) (key : MessageKind × MessageDatatype × Hash) :
    Option MessageID :=
  match self.counters.lookup key with
  | some c => build.add c 1
  | none => some 1

def updateCounter (self : QueueState δ) (kind : MessageKind) (datatype : MessageDatatype)
    (key : Hash) : Option (MessageID × QueueState δ) := do
  let counter ← self.nextCounter build (kind, datatype, key)
  let id ← build.add (idOfKey key) counter
  some (id, { self with counters := self.counters.insert (kind, datatype, key) counter })

def extendedNextMessageID {μ : Type} [BaseMessageID μ] (self : QueueState δ) (message : μ)
    (senders receivers : Communicator) : Option (MessageID × QueueState δ) :=
  self.updateCounter build (kind μ) (datatype message)
    (hash (digestInput message senders receivers))

def nextMessageID {μ : Type} [BaseMessageID μ] (self : QueueState δ) (message : μ)
    (communicator : Communicator) : Option (MessageID × QueueState δ) :=
  self.extendedNextMessageID build hash message communicator communicator

def act (self : QueueState δ) (action : Action δ) : QueueState δ :=
  { self with log := self.log ++ [action] }

/-- Under the feature; without it there is nothing to check. -/
def checkConsistency (self : QueueState δ) (check : ConsistencyCheck) : QueueState δ :=
  if build.collectiveConsistency then self.act (.checkConsistency check) else self

/-- `ensure_consistency().await?`, when the operation needs it; `ensured` says if the answer is
`Ok`. -/
def ensureConsistency (self : QueueState δ) (needed ensured : Bool) : Option (QueueState δ) :=
  if build.collectiveConsistency && needed then
    if ensured then some (self.act .ensureConsistency) else none
  else some self

/-- `rounds += 1` -/
def nextRound (self : QueueState δ) : Option (QueueState δ) :=
  if build.statistics then do
    let rounds ← build.add self.networkStatistics.rounds 1
    some { self with networkStatistics := { self.networkStatistics with rounds := rounds } }
  else some self

def sendOn (self : QueueState δ) (message : Message) (data : δ) : Option (QueueState δ) :=
  if build.statistics then do
    let sent ← build.add self.networkStatistics.sent message.size
    some { self with
      networkStatistics := { self.networkStatistics with sent := sent }
      log := self.log ++ [.send message data] }
  else some (self.act (.send message data))

def receiveOn (self : QueueState δ) (message : Message) (data : δ) : Option (QueueState δ) :=
  if build.statistics then do
    let received ← build.add self.networkStatistics.received message.size
    some { self with
      networkStatistics := { self.networkStatistics with received := received }
      log := self.log ++ [.receive message data] }
  else some (self.act (.receive message data))

/-! ## The operations -/

/-- The loop body of `multi_broadcast`. -/
def broadcastOne (communicator : Communicator) (self : QueueState δ) :
    Broadcast × δ → Option (QueueState δ)
  | (message, data) => do
    let (messageID, self) ← self.nextMessageID build hash message communicator
    if message.sender = self.id then
      (communicator.toList.filter fun party => decide (party ≠ self.id)).foldlM
        (fun s receiver => s.sendOn build (toMessage message self.id receiver messageID) data) self
    else
      let receivers := communicator.filter fun party =>
        decide (party ≠ self.id ∧ party ≠ message.sender)
      let check := toConsistencyCheck message rfl message.sender receivers messageID
      (self.checkConsistency build check).receiveOn build
        (toMessage message message.sender self.id messageID) data

def multiBroadcast (self : QueueState δ) (messages : List Broadcast) (communicator : Communicator)
    (data : List δ) (ensured : Bool) : Option (QueueState δ) := do
  guard (messages.length = data.length)
  let self ← self.ensureConsistency build
    (messages.any fun message => decide (message.sender = self.id)) ensured
  let self ← self.nextRound build
  (messages.zip data).foldlM (broadcastOne build hash communicator) self

/-- The loop body of `multi_gather`. -/
def gatherOne (communicator : Communicator) (self : QueueState δ) :
    Gather × List δ → Option (QueueState δ)
  | (message, data) => do
    let (messageID, self) ← self.nextMessageID build hash message communicator
    if message.receiver = self.id then
      guard (communicator.toList.length = data.length)
      ((communicator.toList.zip data).filter fun e => decide (e.1 ≠ self.id)).foldlM
        (fun s (party, data) => s.receiveOn build (toMessage message party self.id messageID) data)
        self
    else
      match data with
      | [data] =>
          self.sendOn build (toMessage message self.id message.receiver messageID) data
      | _ => none

def multiGather (self : QueueState δ) (messages : List Gather) (communicator : Communicator)
    (data : Vec2d δ) (ensured : Bool) : Option (QueueState δ) := do
  guard (messages.length = data.outerExtent)
  let self ← self.ensureConsistency build
    (messages.any fun message => decide (message.receiver ≠ self.id)) ensured
  let self ← self.nextRound build
  let rows ← data.rows
  (messages.zip rows).foldlM (gatherOne build hash communicator) self

/-- The inner loop body of `extended_multi_all_gather`, for one sender. -/
def allGatherFrom (message : AllGather) (receivers : Communicator) (messageID : MessageID)
    (self : QueueState δ) : PartyID × δ → Option (QueueState δ)
  | (sender, data) =>
    if sender = self.id then
      (receivers.toList.filter fun party => decide (party ≠ self.id)).foldlM
        (fun s receiver => s.sendOn build (toMessage message sender receiver messageID) data) self
    else
      let others := receivers.filter fun party => decide (party ≠ self.id ∧ party ≠ sender)
      let check := toConsistencyCheck message rfl sender others messageID
      (self.checkConsistency build check).receiveOn build
        (toMessage message sender self.id messageID) data

/-- The loop body of `extended_multi_all_gather`. -/
def allGatherOne (senders receivers : Communicator) (self : QueueState δ) :
    AllGather × List δ → Option (QueueState δ)
  | (message, data) => do
    let (messageID, self) ← self.extendedNextMessageID build hash message senders receivers
    (senders.toList.zip data).foldlM (allGatherFrom build message receivers messageID) self

def extendedMultiAllGather (self : QueueState δ) (messages : List AllGather)
    (senders receivers : Communicator) (data : Vec2d δ) (ensured : Bool) :
    Option (QueueState δ) := do
  guard (senders.toList.length = data.innerExtent)
  guard (messages.length = data.outerExtent)
  guard (senders.isSubset receivers)
  guard (self.id ∈ receivers)
  let self ← self.ensureConsistency build (decide (self.id ∈ senders)) ensured
  let self ← self.nextRound build
  let rows ← data.rows
  (messages.zip rows).foldlM (allGatherOne build hash senders receivers) self

/-- The inner loop body of `multi_all_to_all`, for one other party. -/
def allToAllWith (message : AllToAll) (messageID : MessageID) (self : QueueState δ) :
    PartyID × δ × δ → Option (QueueState δ)
  | (party, sendData, receiveData) =>
    if party ≠ self.id then do
      let self ← self.sendOn build (toMessage message self.id party messageID) sendData
      self.receiveOn build (toMessage message party self.id messageID) receiveData
    else some self

/-- The loop body of `multi_all_to_all`. -/
def allToAllOne (communicator : Communicator) (self : QueueState δ) :
    AllToAll × List δ × List δ → Option (QueueState δ)
  | (message, sendData, receiveData) => do
    let (messageID, self) ← self.nextMessageID build hash message communicator
    (communicator.toList.zip (sendData.zip receiveData)).foldlM
      (allToAllWith build message messageID) self

def multiAllToAll (self : QueueState δ) (messages : List AllToAll) (communicator : Communicator)
    (sendData receiveData : Vec2d δ) (ensured : Bool) : Option (QueueState δ) := do
  guard (communicator.toList.length = sendData.innerExtent)
  guard (communicator.toList.length = receiveData.innerExtent)
  guard (messages.length = sendData.outerExtent)
  guard (messages.length = receiveData.outerExtent)
  guard (self.id ∈ communicator)
  let self ← self.ensureConsistency build true ensured
  let self ← self.nextRound build
  let sendRows ← sendData.rows
  let receiveRows ← receiveData.rows
  (messages.zip (sendRows.zip receiveRows)).foldlM (allToAllOne build hash communicator) self

end QueueState

/-! ## Calls -/

/-- An operation, as its parties agree on it. -/
inductive Operation where
  | broadcast (messages : List Broadcast) (communicator : Communicator)
  | gather (messages : List Gather) (communicator : Communicator)
  | allGather (messages : List AllGather) (senders receivers : Communicator)
  | allToAll (messages : List AllToAll) (communicator : Communicator)
  deriving DecidableEq

/-- An operation as one party calls it, with its own data. -/
inductive Call (δ : Type) where
  | multiBroadcast (messages : List Broadcast) (communicator : Communicator) (data : List δ)
  | multiGather (messages : List Gather) (communicator : Communicator) (data : Vec2d δ)
  | extendedMultiAllGather (messages : List AllGather) (senders receivers : Communicator)
      (data : Vec2d δ)
  | multiAllToAll (messages : List AllToAll) (communicator : Communicator)
      (sendData receiveData : Vec2d δ)

variable {δ : Type}

def Call.operation : Call δ → Operation
  | .multiBroadcast messages communicator _ => .broadcast messages communicator
  | .multiGather messages communicator _ => .gather messages communicator
  | .extendedMultiAllGather messages senders receivers _ => .allGather messages senders receivers
  | .multiAllToAll messages communicator _ _ => .allToAll messages communicator

def QueueState.call (build : QueueBuild) (hash : List Byte → Hash) (self : QueueState δ) :
    Call δ × Bool → Option (QueueState δ)
  | (.multiBroadcast messages communicator data, ensured) =>
      self.multiBroadcast build hash messages communicator data ensured
  | (.multiGather messages communicator data, ensured) =>
      self.multiGather build hash messages communicator data ensured
  | (.extendedMultiAllGather messages senders receivers data, ensured) =>
      self.extendedMultiAllGather build hash messages senders receivers data ensured
  | (.multiAllToAll messages communicator sendData receiveData, ensured) =>
      self.multiAllToAll build hash messages communicator sendData receiveData ensured

/-- The calls of a party, one after the other; each comes with the answer of the consistency task
it waits for. -/
def QueueState.calls (build : QueueBuild) (hash : List Byte → Hash) (self : QueueState δ)
    (program : List (Call δ × Bool)) : Option (QueueState δ) :=
  program.foldlM (QueueState.call build hash) self

/-! ## What a queue sends and requests -/

/-- The message an action sends to a party. -/
def Action.sentTo (receiver : PartyID) : Action δ → List Message
  | .send message _ => if message.receiver = receiver then [message] else []
  | _ => []

/-- The message an action requests from a party. -/
def Action.requestedFrom (sender : PartyID) : Action δ → List Message
  | .receive message _ => if message.sender = sender then [message] else []
  | _ => []

def Action.bytesSent : Action δ → ℕ
  | .send message _ => message.size.toNat
  | _ => 0

def Action.bytesReceived : Action δ → ℕ
  | .receive message _ => message.size.toNat
  | _ => 0

def QueueState.sentTo (self : QueueState δ) (receiver : PartyID) : List Message :=
  self.log.flatMap (Action.sentTo receiver)

def QueueState.requestedFrom (self : QueueState δ) (sender : PartyID) : List Message :=
  self.log.flatMap (Action.requestedFrom sender)

def QueueState.bytesSent (self : QueueState δ) : ℕ := (self.log.map Action.bytesSent).sum

def QueueState.bytesReceived (self : QueueState δ) : ℕ := (self.log.map Action.bytesReceived).sum

end Hmpc.Net
