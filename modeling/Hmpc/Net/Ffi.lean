/-
# Hmpc.Net.Ffi -- the entry points of a queue

The C++ library calls a queue through ten functions. Each converts its pointers, checks what the
operation asserts, and returns a code when a check fails. The checks leave out that the party
takes part in an all-gather or all-to-all, and that there is something to iterate over when a
communicator is empty; there the operation panics (`validated_iff`).
-/
import Hmpc.Net.QueueTotal
import Hmpc.Net.Tasks

namespace Hmpc.Net

/-- `collect()` of some parties: in increasing order, without duplicates. -/
def Communicator.ofList (parties : List PartyID) : Communicator where
  toList := parties.dedup.mergeSort fun p q => decide (p ≤ q)
  sorted := by
    have hnodup : (parties.dedup.mergeSort fun p q => decide (p ≤ q)).Nodup :=
      (List.mergeSort_perm _ _).nodup_iff.mpr (List.nodup_dedup _)
    have htrans (a b c : PartyID) (hab : decide (a ≤ b) = true) (hbc : decide (b ≤ c) = true) :
        decide (a ≤ c) = true := by
      rw [decide_eq_true_eq] at hab hbc ⊢
      exact BitVec.le_trans hab hbc
    have htotal (a b : PartyID) : (decide (a ≤ b) || decide (b ≤ a)) = true := by
      simpa using BitVec.le_total a b
    have hsorted := List.pairwise_mergeSort htrans htotal parties.dedup
    refine (hsorted.and hnodup).imp ?_
    rintro a b ⟨hle, hne⟩
    rw [decide_eq_true_eq] at hle
    exact BitVec.lt_of_le_ne hle hne

namespace Vec2d

/-- `Vec2d::new()` -/
def new (α : Type) : Vec2d α := ⟨[], 0, 0, rfl⟩

def fromInner {α : Type} (data : List α) : Vec2d α := ⟨data, 1, data.length, by rw [Nat.one_mul]⟩

end Vec2d

namespace Ffi

variable {α δ : Type}

/-! ## Spans -/

/-- A pointer is null or points to `len` objects. -/
structure Span (α : Type) where
  len : ℕ
  data : Option { objects : List α // objects.length = len }

structure Span2d (α : Type) where
  outerExtent : ℕ
  innerExtent : ℕ
  data : Option { objects : List α // objects.length = outerExtent * innerExtent }

namespace Span

/-- `try_to_vec`. The pointer of an empty span is ignored. -/
def tryToVec (span : Span α) : Option (List α) :=
  if span.len = 0 then some [] else span.data.map Subtype.val

/-- `try_to_set` -/
def tryToSet (span : Span PartyID) : Option Communicator := span.tryToVec.map Communicator.ofList

/-- `try_to_non_null_vec` -/
def tryToNonNullVec (span : Span (Option α)) : Option (List α) := do
  let v ← span.tryToVec
  if h : ∀ pointer ∈ v, pointer.isSome = true then some (v.pmap Option.get h) else none

end Span

/-- `try_to_non_null_vec` of a 2d span. The pointer is ignored if an extent is zero. -/
def Span2d.tryToNonNullVec (span : Span2d (Option α)) : Option (Vec2d α) :=
  if span.innerExtent = 0 ∨ span.outerExtent = 0 then some (Vec2d.new α)
  else do
    let v ← span.data
    if h : ∀ pointer ∈ v.val, pointer.isSome = true then
      some ⟨v.val.pmap Option.get h, span.outerExtent, span.innerExtent, by
        rw [List.length_pmap, v.property]⟩
    else none

/-! ## Checks -/

/-- `check_mut_pointer!(queue, SendReceiveErrc::InvalidHandle)` -/
def checkHandle (queue : Option (QueueState δ)) : Except SendReceiveErrc (QueueState δ) :=
  queue.elim (.error .invalidHandle) .ok

/-- `check_pointer!` and `check_span!`, for a pointer or the result of a conversion. -/
def checkPointer (pointer : Option α) : Except SendReceiveErrc α :=
  pointer.elim (.error .invalidPointer) .ok

def checkSizeEq (left right : ℕ) : Except SendReceiveErrc Unit :=
  if left = right then .ok () else .error .invalidSize

/-! ## Entry points

What an entry point asks of its queue, or the code it returns. -/

def queueBroadcast (queue : Option (QueueState δ)) (message : Broadcast)
    (communicator : Span PartyID) (data : Option δ) :
    Except SendReceiveErrc (QueueState δ × Call δ) := do
  let queue ← checkHandle queue
  let data ← checkPointer data
  let communicator ← checkPointer communicator.tryToSet
  return (queue, .multiBroadcast [message] communicator [data])

def queueMultiBroadcast (queue : Option (QueueState δ)) (messages : Span Broadcast)
    (communicator : Span PartyID) (data : Span (Option δ)) :
    Except SendReceiveErrc (QueueState δ × Call δ) := do
  let queue ← checkHandle queue
  let messages ← checkPointer messages.tryToVec
  let communicator ← checkPointer communicator.tryToSet
  let data ← checkPointer data.tryToNonNullVec
  checkSizeEq messages.length data.length
  return (queue, .multiBroadcast messages communicator data)

def queueGather (queue : Option (QueueState δ)) (message : Gather)
    (communicator : Span PartyID) (data : Span (Option δ)) :
    Except SendReceiveErrc (QueueState δ × Call δ) := do
  let queue ← checkHandle queue
  let communicator ← checkPointer communicator.tryToSet
  let data ← checkPointer data.tryToNonNullVec
  if queue.id = message.receiver then
    checkSizeEq communicator.toList.length data.length
  if queue.id ≠ message.receiver then
    checkSizeEq data.length 1
  return (queue, .multiGather [message] communicator (.fromInner data))

def queueMultiGather (queue : Option (QueueState δ)) (messages : Span Gather)
    (communicator : Span PartyID) (data : Span2d (Option δ)) :
    Except SendReceiveErrc (QueueState δ × Call δ) := do
  let queue ← checkHandle queue
  let messages ← checkPointer messages.tryToVec
  let communicator ← checkPointer communicator.tryToSet
  let data ← checkPointer data.tryToNonNullVec
  checkSizeEq messages.length data.outerExtent
  let isAlwaysReceiver := messages.all fun message => decide (message.receiver = queue.id)
  let isNeverReceiver := messages.all fun message => decide (message.receiver ≠ queue.id)
  if !(isAlwaysReceiver || isNeverReceiver) then
    throw .invalidMetadata
  if isAlwaysReceiver then
    checkSizeEq data.innerExtent communicator.toList.length
  if isNeverReceiver then
    checkSizeEq data.innerExtent 1
  return (queue, .multiGather messages communicator data)

/-- `is_subset`, in the extended entry points. -/
def checkSubset (senders receivers : Communicator) : Except SendReceiveErrc Unit :=
  if senders.isSubset receivers then .ok () else .error .invalidCommunicator

def queueAllGather (queue : Option (QueueState δ)) (message : AllGather)
    (communicator : Span PartyID) (data : Span (Option δ)) :
    Except SendReceiveErrc (QueueState δ × Call δ) := do
  let queue ← checkHandle queue
  let communicator ← checkPointer communicator.tryToSet
  let data ← checkPointer data.tryToNonNullVec
  checkSizeEq communicator.toList.length data.length
  return (queue, .extendedMultiAllGather [message] communicator communicator (.fromInner data))

def queueMultiAllGather (queue : Option (QueueState δ)) (messages : Span AllGather)
    (communicator : Span PartyID) (data : Span2d (Option δ)) :
    Except SendReceiveErrc (QueueState δ × Call δ) := do
  let queue ← checkHandle queue
  let messages ← checkPointer messages.tryToVec
  let communicator ← checkPointer communicator.tryToSet
  let data ← checkPointer data.tryToNonNullVec
  checkSizeEq communicator.toList.length data.innerExtent
  checkSizeEq messages.length data.outerExtent
  return (queue, .extendedMultiAllGather messages communicator communicator data)

def queueExtendedAllGather (queue : Option (QueueState δ)) (message : AllGather)
    (senders receivers : Span PartyID) (data : Span (Option δ)) :
    Except SendReceiveErrc (QueueState δ × Call δ) := do
  let queue ← checkHandle queue
  let senders ← checkPointer senders.tryToSet
  let receivers ← checkPointer receivers.tryToSet
  let data ← checkPointer data.tryToNonNullVec
  checkSizeEq senders.toList.length data.length
  checkSubset senders receivers
  return (queue, .extendedMultiAllGather [message] senders receivers (.fromInner data))

def queueExtendedMultiAllGather (queue : Option (QueueState δ)) (messages : Span AllGather)
    (senders receivers : Span PartyID) (data : Span2d (Option δ)) :
    Except SendReceiveErrc (QueueState δ × Call δ) := do
  let queue ← checkHandle queue
  let messages ← checkPointer messages.tryToVec
  let senders ← checkPointer senders.tryToSet
  let receivers ← checkPointer receivers.tryToSet
  let data ← checkPointer data.tryToNonNullVec
  checkSizeEq senders.toList.length data.innerExtent
  checkSizeEq messages.length data.outerExtent
  checkSubset senders receivers
  return (queue, .extendedMultiAllGather messages senders receivers data)

def queueAllToAll (queue : Option (QueueState δ)) (message : AllToAll)
    (communicator : Span PartyID) (sendData receiveData : Span (Option δ)) :
    Except SendReceiveErrc (QueueState δ × Call δ) := do
  let queue ← checkHandle queue
  let communicator ← checkPointer communicator.tryToSet
  let sendData ← checkPointer sendData.tryToNonNullVec
  let receiveData ← checkPointer receiveData.tryToNonNullVec
  checkSizeEq communicator.toList.length sendData.length
  checkSizeEq communicator.toList.length receiveData.length
  return (queue, .multiAllToAll [message] communicator (.fromInner sendData)
    (.fromInner receiveData))

def queueMultiAllToAll (queue : Option (QueueState δ)) (messages : Span AllToAll)
    (communicator : Span PartyID) (sendData receiveData : Span2d (Option δ)) :
    Except SendReceiveErrc (QueueState δ × Call δ) := do
  let queue ← checkHandle queue
  let messages ← checkPointer messages.tryToVec
  let communicator ← checkPointer communicator.tryToSet
  let sendData ← checkPointer sendData.tryToNonNullVec
  let receiveData ← checkPointer receiveData.tryToNonNullVec
  checkSizeEq communicator.toList.length sendData.innerExtent
  checkSizeEq communicator.toList.length receiveData.innerExtent
  checkSizeEq messages.length sendData.outerExtent
  checkSizeEq messages.length receiveData.outerExtent
  return (queue, .multiAllToAll messages communicator sendData receiveData)

/-- A call of an entry point. -/
inductive Entry (δ : Type) where
  | broadcast (message : Broadcast) (communicator : Span PartyID) (data : Option δ)
  | multiBroadcast (messages : Span Broadcast) (communicator : Span PartyID)
      (data : Span (Option δ))
  | gather (message : Gather) (communicator : Span PartyID) (data : Span (Option δ))
  | multiGather (messages : Span Gather) (communicator : Span PartyID) (data : Span2d (Option δ))
  | allGather (message : AllGather) (communicator : Span PartyID) (data : Span (Option δ))
  | multiAllGather (messages : Span AllGather) (communicator : Span PartyID)
      (data : Span2d (Option δ))
  | extendedAllGather (message : AllGather) (senders receivers : Span PartyID)
      (data : Span (Option δ))
  | extendedMultiAllGather (messages : Span AllGather) (senders receivers : Span PartyID)
      (data : Span2d (Option δ))
  | allToAll (message : AllToAll) (communicator : Span PartyID)
      (sendData receiveData : Span (Option δ))
  | multiAllToAll (messages : Span AllToAll) (communicator : Span PartyID)
      (sendData receiveData : Span2d (Option δ))

namespace Entry

def validate (queue : Option (QueueState δ)) :
    Entry δ → Except SendReceiveErrc (QueueState δ × Call δ)
  | broadcast message communicator data => queueBroadcast queue message communicator data
  | multiBroadcast messages communicator data =>
      queueMultiBroadcast queue messages communicator data
  | gather message communicator data => queueGather queue message communicator data
  | multiGather messages communicator data => queueMultiGather queue messages communicator data
  | allGather message communicator data => queueAllGather queue message communicator data
  | multiAllGather messages communicator data =>
      queueMultiAllGather queue messages communicator data
  | extendedAllGather message senders receivers data =>
      queueExtendedAllGather queue message senders receivers data
  | extendedMultiAllGather messages senders receivers data =>
      queueExtendedMultiAllGather queue messages senders receivers data
  | allToAll message communicator sendData receiveData =>
      queueAllToAll queue message communicator sendData receiveData
  | multiAllToAll messages communicator sendData receiveData =>
      queueMultiAllToAll queue messages communicator sendData receiveData

/-- The code that an entry point returns for the results of its tasks, and the queue after it, when
the consistency task answers `Ok`; it is `none` when the operation panics. -/
def run (build : QueueBuild) (hash : List Byte → Hash) (queue : Option (QueueState δ))
    (entry : Entry δ) (tasks : List (TaskResult TransferError)) :
    Option (SendReceiveErrc × Option (QueueState δ)) :=
  match entry.validate queue with
  | .error errc => some (errc, queue)
  | .ok (self, call) => do
    let self ← self.call build hash (call, true)
    let errc := match collect tasks with
      | .ok () => .ok
      | .error e => e.toErrc
    return (errc, some self)

/-- A call whose checks fail returns an error code and leaves the queue as it is, and one whose
checks pass does not panic in its operation, overflows apart. -/
structure Validated (queue : Option (QueueState δ)) (entry : Entry δ) : Prop where
  rejects : ∀ errc, entry.validate queue = .error errc →
    errc ≠ .ok ∧ ∀ build hash tasks, entry.run build hash queue tasks = some (errc, queue)
  accepts : ∀ self call, entry.validate queue = .ok (self, call) →
    ∀ (build : QueueBuild) hash tasks, build.overflowChecks = false →
      (entry.run build hash queue tasks).isSome = true

/-- The party is in a communicator that the checks could read. -/
def HasParty (party : PartyID) (communicator : Span PartyID) : Prop :=
  ∃ c, communicator.tryToSet = some c ∧ party ∈ c

/-- What the checks leave out. -/
def Ready (party : PartyID) : Entry δ → Prop
  | gather message communicator _ => message.receiver = party → communicator.len ≠ 0
  | allGather _ communicator _ => HasParty party communicator
  | multiAllGather _ communicator _ => HasParty party communicator
  | extendedAllGather _ senders receivers _ => HasParty party receivers ∧ senders.len ≠ 0
  | extendedMultiAllGather _ senders receivers _ => HasParty party receivers ∧ senders.len ≠ 0
  | allToAll _ communicator _ _ => HasParty party communicator
  | multiAllToAll _ communicator _ _ => HasParty party communicator
  | _ => True

/-! ## What the checks ensure -/

theorem checkHandle_eq_ok {queue : Option (QueueState δ)} {self : QueueState δ} :
    checkHandle queue = .ok self ↔ queue = some self := by
  cases queue <;> simp [checkHandle]

theorem checkPointer_eq_ok {pointer : Option α} {a : α} :
    checkPointer pointer = .ok a ↔ pointer = some a := by
  cases pointer <;> simp [checkPointer]

theorem checkSizeEq_eq_ok {left right : ℕ} {u : Unit} :
    checkSizeEq left right = .ok u ↔ left = right := by
  unfold checkSizeEq
  split <;> simp_all

theorem checkSubset_eq_ok {senders receivers : Communicator} {u : Unit} :
    checkSubset senders receivers = .ok u ↔ senders.isSubset receivers = true := by
  unfold checkSubset
  split <;> simp_all

/-- A check returns an error code when it fails. -/
def Rejects (x : Except SendReceiveErrc α) : Prop := ∀ errc, x = .error errc → errc ≠ .ok

theorem Rejects.bind {β : Type} {x : Except SendReceiveErrc α}
    {f : α → Except SendReceiveErrc β} (hx : Rejects x) (hf : ∀ a, Rejects (f a)) :
    Rejects (x >>= f) := by
  cases x with
  | error e =>
      intro errc h
      cases h
      exact hx e rfl
  | ok a => exact hf a

theorem rejects_pure (a : α) : Rejects (pure a : Except SendReceiveErrc α) := nofun

theorem rejects_checkHandle (queue : Option (QueueState δ)) : Rejects (checkHandle queue) := by
  cases queue with
  | none =>
      rintro errc h rfl
      cases h
  | some self => exact nofun

theorem rejects_checkPointer (pointer : Option α) : Rejects (checkPointer pointer) := by
  cases pointer with
  | none =>
      rintro errc h rfl
      cases h
  | some a => exact nofun

theorem rejects_checkSizeEq (left right : ℕ) : Rejects (checkSizeEq left right) := by
  unfold checkSizeEq
  split
  · exact nofun
  · rintro errc h rfl
    cases h

theorem rejects_checkSubset (senders receivers : Communicator) :
    Rejects (checkSubset senders receivers) := by
  unfold checkSubset
  split
  · exact nofun
  · rintro errc h rfl
    cases h

theorem rejects_throw {errc : SendReceiveErrc} (h : errc ≠ .ok) :
    Rejects (throw errc : Except SendReceiveErrc α) := by
  rintro errc' h' rfl
  cases h'
  exact h rfl

theorem rejects_validate (queue : Option (QueueState δ)) (entry : Entry δ) :
    Rejects (entry.validate queue) := by
  cases entry
  all_goals
    refine (rejects_checkHandle _).bind fun self => ?_
    -- one check after the other, and both sides of each condition
    repeat'
      first
        | exact rejects_pure _
        | refine (rejects_checkPointer _).bind fun _ => ?_
        | refine (rejects_checkSizeEq _ _).bind fun _ => ?_
        | refine (rejects_checkSubset _ _).bind fun _ => ?_
        | refine (rejects_throw (by decide)).bind fun _ => ?_
        | split
        | (dsimp only; split)

/-! ## What passes the checks -/

theorem toList_ofList_eq_nil {parties : List PartyID} :
    (Communicator.ofList parties).toList.length = 0 ↔ parties.length = 0 := by
  show (parties.dedup.mergeSort _).length = 0 ↔ _
  rw [List.length_mergeSort, List.length_eq_zero_iff, List.dedup_eq_nil, List.length_eq_zero_iff]

theorem length_of_tryToSet {communicator : Span PartyID} {c : Communicator}
    (h : communicator.tryToSet = some c) : c.toList.length = 0 ↔ communicator.len = 0 := by
  obtain ⟨parties, hparties, rfl⟩ := Option.map_eq_some_iff.mp h
  rw [toList_ofList_eq_nil]
  unfold Span.tryToVec at hparties
  split at hparties
  · rename_i hzero
    rw [← Option.some.inj hparties]
    exact iff_of_true rfl hzero
  · obtain ⟨objects, -, rfl⟩ := Option.map_eq_some_iff.mp hparties
    rw [objects.property]

theorem hasParty_iff {party : PartyID} {communicator : Span PartyID} {c : Communicator}
    (h : communicator.tryToSet = some c) : HasParty party communicator ↔ party ∈ c := by
  constructor
  · rintro ⟨c', hc', hmember⟩
    rwa [Option.some.inj (h.symm.trans hc')]
  · exact fun hmember => ⟨c, h, hmember⟩

/-- A 2d vector whose rows are empty has none. -/
theorem outerExtent_of_tryToNonNullVec {data : Span2d (Option δ)} {v : Vec2d δ}
    (h : data.tryToNonNullVec = some v) (hinner : v.innerExtent = 0) : v.outerExtent = 0 := by
  unfold Span2d.tryToNonNullVec at h
  split at h
  · rw [← Option.some.inj h]
    rfl
  · rename_i hextents
    obtain ⟨objects, -, h⟩ := Option.bind_eq_some_iff.mp h
    split at h
    · rw [← Option.some.inj h] at hinner
      exact absurd (Or.inl hinner) hextents
    · cases h

theorem isSubset_self (c : Communicator) : c.isSubset c = true :=
  Communicator.isSubset_iff.mpr fun _ h => h

theorem ne_zero_of_mem {party : PartyID} {c : Communicator} {n : ℕ} (h : party ∈ c)
    (hlength : c.toList.length = n) : n ≠ 0 := by
  rintro rfl
  exact List.ne_nil_of_mem h (List.length_eq_zero_iff.mp hlength)

/-- What the extended all-gathers leave out. -/
theorem allGather_ready {party : PartyID} {senders receivers : Span PartyID}
    {sendersSet receiversSet : Communicator} (hsenders : senders.tryToSet = some sendersSet)
    (hreceivers : receivers.tryToSet = some receiversSet) {n : ℕ}
    (hlength : sendersSet.toList.length = n) :
    party ∈ receiversSet ∧ n ≠ 0 ↔ HasParty party receivers ∧ senders.len ≠ 0 := by
  rw [hasParty_iff hreceivers, ← hlength, ne_eq, ne_eq, length_of_tryToSet hsenders]

/-- The receiver has a row for each party, and the others have their own data only. -/
theorem queueGather_eq_ok {queue : Option (QueueState δ)} {message : Gather}
    {communicator : Span PartyID} {data : Span (Option δ)} {self : QueueState δ} {call : Call δ}
    (h : queueGather queue message communicator data = .ok (self, call)) :
    ∃ c d, call = .multiGather [message] c (.fromInner d) ∧
      (c.toList.length = 0 ↔ communicator.len = 0) ∧
      (message.receiver = self.id → c.toList.length = d.length) ∧
      (message.receiver ≠ self.id → d.length = 1) := by
  simp only [queueGather, bind_eq_ok_iff, checkHandle_eq_ok, checkPointer_eq_ok] at h
  obtain ⟨queue', -, c, hc, d, -, h⟩ := h
  by_cases hreceiver : queue'.id = message.receiver
  · rw [if_pos hreceiver, if_neg (not_not_intro hreceiver)] at h
    obtain ⟨_, hlength, h⟩ := bind_eq_ok_iff.mp h
    cases h
    exact ⟨c, d, rfl, length_of_tryToSet hc, fun _ => checkSizeEq_eq_ok.mp hlength,
      fun hne => absurd hreceiver.symm hne⟩
  · rw [if_neg hreceiver, if_pos hreceiver] at h
    obtain ⟨_, hlength, h⟩ := bind_eq_ok_iff.mp h
    cases h
    exact ⟨c, d, rfl, length_of_tryToSet hc, fun heq => absurd heq.symm hreceiver,
      fun _ => checkSizeEq_eq_ok.mp hlength⟩

/-- The party receives all messages or none of them, and the rows have the right length. -/
theorem queueMultiGather_eq_ok {queue : Option (QueueState δ)} {messages : Span Gather}
    {communicator : Span PartyID} {data : Span2d (Option δ)} {self : QueueState δ} {call : Call δ}
    (h : queueMultiGather queue messages communicator data = .ok (self, call)) :
    ∃ m c d, call = .multiGather m c d ∧ data.tryToNonNullVec = some d ∧
      m.length = d.outerExtent ∧
      (∀ message ∈ m, message.receiver = self.id → c.toList.length = d.innerExtent) ∧
      (∀ message ∈ m, message.receiver ≠ self.id → d.innerExtent = 1) ∧
      (m = [] → d.innerExtent = 1) := by
  simp only [queueMultiGather, bind_eq_ok_iff, checkHandle_eq_ok, checkPointer_eq_ok,
    checkSizeEq_eq_ok] at h
  obtain ⟨queue', -, m, -, c, -, d, hd, _, houter, h⟩ := h
  have halways : (m.all fun m => decide (m.receiver = queue'.id)) = true ↔
      ∀ message ∈ m, message.receiver = queue'.id := by
    simp
  have hnever : (m.all fun m => decide (m.receiver ≠ queue'.id)) = true ↔
      ∀ message ∈ m, message.receiver ≠ queue'.id := by
    simp
  generalize (m.all fun m => decide (m.receiver = queue'.id)) = isAlwaysReceiver at h halways
  generalize (m.all fun m => decide (m.receiver ≠ queue'.id)) = isNeverReceiver at h hnever
  obtain ⟨hcall, hsome, hinner, hinner'⟩ : (queue', Call.multiGather m c d) = (self, call) ∧
      (isAlwaysReceiver = true ∨ isNeverReceiver = true) ∧
      (isAlwaysReceiver = true → d.innerExtent = c.toList.length) ∧
      (isNeverReceiver = true → d.innerExtent = 1) := by
    -- a queue that receives some messages but not all of them is refused
    cases isAlwaysReceiver <;> cases isNeverReceiver
    · cases h
    · obtain ⟨_, hsize, h⟩ := bind_eq_ok_iff.mp h
      exact ⟨Except.ok.inj h, Or.inr rfl, nofun, fun _ => checkSizeEq_eq_ok.mp hsize⟩
    · obtain ⟨_, hsize, h⟩ := bind_eq_ok_iff.mp h
      exact ⟨Except.ok.inj h, Or.inl rfl, fun _ => checkSizeEq_eq_ok.mp hsize, nofun⟩
    · obtain ⟨_, hsize, h⟩ := bind_eq_ok_iff.mp h
      obtain ⟨_, hsize', h⟩ := bind_eq_ok_iff.mp h
      exact ⟨Except.ok.inj h, Or.inl rfl, fun _ => checkSizeEq_eq_ok.mp hsize,
        fun _ => checkSizeEq_eq_ok.mp hsize'⟩
  obtain ⟨rfl, rfl⟩ := Prod.mk.inj hcall
  refine ⟨m, c, d, rfl, hd, houter, fun message hmessage heq => ?_, fun message hmessage hne => ?_,
    fun hnil => ?_⟩
  · rcases hsome with ha | hn
    · exact (hinner ha).symm
    · exact absurd heq (hnever.mp hn message hmessage)
  · rcases hsome with ha | hn
    · exact absurd (halways.mp ha message hmessage) hne
    · exact hinner' hn
  · exact hinner' (hnever.mpr (by simp [hnil]))

/-- **An operation whose checks passed** returns exactly when what they leave out holds. -/
theorem call_isSome_iff {queue : Option (QueueState δ)} {entry : Entry δ} {self : QueueState δ}
    {call : Call δ} (h : entry.validate queue = .ok (self, call)) {build : QueueBuild}
    (hchecks : build.overflowChecks = false) (hash : List Byte → Hash) :
    (self.call build hash (call, true)).isSome = true ↔ entry.Ready self.id := by
  cases entry with
  | broadcast message communicator data =>
      simp only [validate, queueBroadcast, bind_eq_ok_iff, checkHandle_eq_ok,
        checkPointer_eq_ok] at h
      obtain ⟨_, -, d, -, c, -, h⟩ := h
      cases h
      exact iff_of_true (multiBroadcast_isSome hchecks rfl) trivial
  | multiBroadcast messages communicator data =>
      simp only [validate, queueMultiBroadcast, bind_eq_ok_iff, checkHandle_eq_ok,
        checkPointer_eq_ok, checkSizeEq_eq_ok] at h
      obtain ⟨_, -, m, -, c, -, d, -, _, hlength, h⟩ := h
      cases h
      exact iff_of_true (multiBroadcast_isSome hchecks hlength) trivial
  | gather message communicator data =>
      obtain ⟨c, d, rfl, hlen, hreceiver, hsender⟩ := queueGather_eq_ok h
      refine (multiGather_isSome_iff hchecks rfl ?_ ?_).trans ?_
      · intro m hm heq
        rw [List.mem_singleton.mp hm] at heq
        exact hreceiver heq
      · intro m hm hne
        rw [List.mem_singleton.mp hm] at hne
        exact hsender hne
      · show d.length ≠ 0 ↔ (message.receiver = self.id → communicator.len ≠ 0)
        by_cases heq : message.receiver = self.id
        · rw [← hreceiver heq, ne_eq, hlen]
          exact ⟨fun hne _ => hne, fun hne => hne heq⟩
        · rw [hsender heq]
          exact iff_of_true one_ne_zero fun hcon => absurd hcon heq
  | multiGather messages communicator data =>
      obtain ⟨m, c, d, rfl, hd, houter, hreceiver, hsender, hempty⟩ := queueMultiGather_eq_ok h
      refine (multiGather_isSome_iff hchecks houter hreceiver hsender).trans
        (iff_of_true (fun hzero => ?_) trivial)
      have hnil := outerExtent_of_tryToNonNullVec hd hzero
      rw [← houter, List.length_eq_zero_iff] at hnil
      rw [hempty hnil] at hzero
      cases hzero
  | allGather message communicator data =>
      simp only [validate, queueAllGather, bind_eq_ok_iff, checkHandle_eq_ok,
        checkPointer_eq_ok, checkSizeEq_eq_ok] at h
      obtain ⟨_, -, c, hc, d, -, _, hlength, h⟩ := h
      cases h
      refine (extendedMultiAllGather_isSome_iff hchecks hlength rfl (isSubset_self c)).trans ?_
      rw [Ready, hasParty_iff hc]
      exact and_iff_left_of_imp fun hmember => ne_zero_of_mem hmember hlength
  | multiAllGather messages communicator data =>
      simp only [validate, queueMultiAllGather, bind_eq_ok_iff, checkHandle_eq_ok,
        checkPointer_eq_ok, checkSizeEq_eq_ok] at h
      obtain ⟨_, -, m, -, c, hc, d, -, _, hinner, _, houter, h⟩ := h
      cases h
      refine (extendedMultiAllGather_isSome_iff hchecks hinner houter (isSubset_self c)).trans ?_
      rw [Ready, hasParty_iff hc]
      exact and_iff_left_of_imp fun hmember => ne_zero_of_mem hmember hinner
  | extendedAllGather message senders receivers data =>
      simp only [validate, queueExtendedAllGather, bind_eq_ok_iff, checkHandle_eq_ok,
        checkPointer_eq_ok, checkSizeEq_eq_ok, checkSubset_eq_ok] at h
      obtain ⟨_, -, c, hc, c', hc', d, -, _, hlength, _, hsubset, h⟩ := h
      cases h
      exact (extendedMultiAllGather_isSome_iff hchecks hlength rfl hsubset).trans
        (allGather_ready hc hc' hlength)
  | extendedMultiAllGather messages senders receivers data =>
      simp only [validate, queueExtendedMultiAllGather, bind_eq_ok_iff, checkHandle_eq_ok,
        checkPointer_eq_ok, checkSizeEq_eq_ok, checkSubset_eq_ok] at h
      obtain ⟨_, -, m, -, c, hc, c', hc', d, -, _, hinner, _, houter, _, hsubset, h⟩ := h
      cases h
      exact (extendedMultiAllGather_isSome_iff hchecks hinner houter hsubset).trans
        (allGather_ready hc hc' hinner)
  | allToAll message communicator sendData receiveData =>
      simp only [validate, queueAllToAll, bind_eq_ok_iff, checkHandle_eq_ok,
        checkPointer_eq_ok, checkSizeEq_eq_ok] at h
      obtain ⟨_, -, c, hc, d, -, d', -, _, hsend, _, hreceive, h⟩ := h
      cases h
      exact (multiAllToAll_isSome_iff hchecks hsend hreceive rfl rfl).trans (hasParty_iff hc).symm
  | multiAllToAll messages communicator sendData receiveData =>
      simp only [validate, queueMultiAllToAll, bind_eq_ok_iff, checkHandle_eq_ok,
        checkPointer_eq_ok, checkSizeEq_eq_ok] at h
      obtain ⟨_, -, m, -, c, hc, d, -, d', -, _, hsend, _, hreceive, _, hsend', _, hreceive',
        h⟩ := h
      cases h
      exact (multiAllToAll_isSome_iff hchecks hsend hreceive hsend' hreceive').trans
        (hasParty_iff hc).symm

/-- **The checks of the entry points.** A failed check is reported and changes nothing. Passed
checks rule out the panics of the operation except where the party is not in the communicator of an
all-gather or all-to-all, and where there are no parties to gather from. -/
theorem validated_iff (queue : Option (QueueState δ)) (entry : Entry δ) :
    Validated queue entry ↔
      ∀ self call, entry.validate queue = .ok (self, call) → entry.Ready self.id := by
  have hrun {self : QueueState δ} {call : Call δ} (h : entry.validate queue = .ok (self, call))
      (build : QueueBuild) (hash : List Byte → Hash) (tasks : List (TaskResult TransferError)) :
      (entry.run build hash queue tasks).isSome = (self.call build hash (call, true)).isSome := by
    rw [run, h]
    dsimp only
    cases self.call build hash (call, true) <;> rfl
  constructor
  · intro h self call hok
    have hreturns := h.accepts self call hok ⟨true, true, false⟩
      (fun _ => ⟨List.replicate 32 0, rfl⟩)
      [] rfl
    rw [hrun hok] at hreturns
    exact (call_isSome_iff hok rfl _).mp hreturns
  · intro h
    refine ⟨fun errc herror =>
        ⟨rejects_validate queue entry errc herror, fun build hash tasks => ?_⟩,
      fun self call hok build hash tasks hchecks => ?_⟩
    · rw [run, herror]
    · rw [hrun hok]
      exact (call_isSome_iff hok hchecks hash).mpr (h self call hok)

def onlyParty (party : PartyID) : Span PartyID := ⟨1, some ⟨[party], rfl⟩⟩

def oneUnit : Span (Option Unit) := ⟨1, some ⟨[some ()], rfl⟩⟩

/-- Party 0 calls an all-gather of a communicator that contains only party 1. -/
def allGatherOfOthers : Entry Unit := .allGather ⟨6, 8⟩ (onlyParty 1) oneUnit

theorem all_gather_of_others_panics :
    (allGatherOfOthers.validate (some (QueueState.initial Unit 0))).toOption.isSome = true ∧
      (allGatherOfOthers.run ⟨true, true, false⟩ (fun _ => ⟨List.replicate 32 0, rfl⟩)
        (some (QueueState.initial Unit 0)) []).isNone = true ∧
      ¬ Validated (some (QueueState.initial Unit 0)) allGatherOfOthers := by
  have hok : (allGatherOfOthers.validate
      (some (QueueState.initial Unit 0))).toOption.isSome = true := by decide +kernel
  have hpanics : (allGatherOfOthers.run ⟨true, true, false⟩ (fun _ => ⟨List.replicate 32 0, rfl⟩)
      (some (QueueState.initial Unit 0)) []).isNone = true := by decide +kernel
  refine ⟨hok, hpanics, fun h => ?_⟩
  cases hvalidate : allGatherOfOthers.validate (some (QueueState.initial Unit 0)) with
  | error errc =>
      rw [hvalidate] at hok
      cases hok
  | ok r =>
      have hreturns := h.accepts r.1 r.2 hvalidate ⟨true, true, false⟩
        (fun _ => ⟨List.replicate 32 0, rfl⟩) [] rfl
      rw [Option.isNone_iff_eq_none] at hpanics
      rw [hpanics] at hreturns
      cases hreturns

end Entry

end Ffi

end Hmpc.Net
