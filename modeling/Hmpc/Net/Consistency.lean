/-
# Hmpc.Net.Consistency -- the collective consistency check: `consistency::run`

The task that cross-checks broadcasts and all-gathers. For every operation (its key) it collects
the hash and signature of the message this party received, the checks other parties sent about the
message they received, and the local request to compare them; the three may come in any order. An
operation that is `registered` and not yet fully checked holds back every `Wait`.

The definitions follow the source method by method: the three `new_*` constructors, `register`,
`receive`, `receive_data`, `check` of one entry, then `notify_parties`, `is_consistent` and the
command loop. After each method stands the one lemma about it that later modules use.
-/
import Hmpc.Lib.Machine
import Hmpc.Lib.Map
import Hmpc.Net.Buffer

namespace Hmpc.Net

open Hmpc.Lib

/-! ## Check messages -/

inductive ConsistencyCheckError where
  | multipleChecks
  | multipleRequests
  | multipleMessages
  | unknownSender
  | unknownCheck
  | inconsistentSignatureVerification
  | inconsistentCollectiveCommunication
  deriving DecidableEq, Repr

structure ConsistencyCheckMessage where
  metadata : Message
  hash : Hash
  signature : Signature
  deriving DecidableEq

/-- A message whose kind is that of a check. -/
abbrev CheckMessage := {m : ConsistencyCheckMessage // m.metadata.kind.isConsistencyCheck = true}

/-- The hash and signature of a message whose kind needs a check. -/
abbrev DataMessage := {m : ConsistencyCheckMessage // m.metadata.kind.needsCheck = true}

/-- `TryFrom<ReceiveMessage>`: the payload of a check is a hash and a signature. -/
def ReceiveMessage.tryIntoCheck (value : ReceiveMessage) : Except ServerError CheckMessage :=
  if hkind : value.metadata.kind.isConsistencyCheck = true then
    match splitFirstChunk hashSize value.data with
    | none => .error (.finishedEarly value.data.length)
    | some (hash, data) =>
        if hdata : data.length = signatureSize then
          .ok ⟨⟨value.metadata, hash, ⟨data, hdata⟩⟩, hkind⟩
        else .error (.finishedEarly data.length)
  else .error (.fromU8 value.metadata.kind.toUnderlying)

/-- `TryFrom<(&ReceiveMessage, Signature)>`: a message to be checked, by its hash. -/
def ReceiveMessage.tryIntoData (c : Crypto) (value : ReceiveMessage) (signature : Signature) :
    Option DataMessage :=
  if hkind : value.metadata.kind.needsCheck = true then
    some ⟨⟨value.metadata, c.hash value.data, signature⟩, hkind⟩
  else none

/-- A kind of operation that supports checking. -/
abbrev CheckedKind := {kind : MessageKind // kind.needsCheck = true}

/-- `metadata::ConsistencyCheck`; only operations of a checked kind request one. -/
structure ConsistencyCheck where
  kind : CheckedKind
  datatype : MessageDatatype
  sender : PartyID
  receivers : Communicator
  id : MessageID
  deriving DecidableEq

/-- `kind.try_from_check().unwrap()` of the kind of a check. -/
def MessageKind.fromCheck (kind : MessageKind) (h : kind.isConsistencyCheck = true) :
    CheckedKind :=
  ⟨kind.tryFromCheck.get (by rw [tryFromCheck_isSome, h]),
    needsCheck_of_tryFromCheck (Option.some_get _).symm⟩

/-- `kind.try_to_check().unwrap()` of a checked kind. -/
def MessageKind.toCheck (kind : CheckedKind) : MessageKind :=
  kind.1.tryToCheck.get (by rw [tryToCheck_isSome, kind.2])

theorem MessageKind.toCheck_isConsistencyCheck (kind : CheckedKind) :
    (toCheck kind).isConsistencyCheck = true :=
  isConsistencyCheck_of_tryToCheck (Option.some_get _).symm

@[simp] theorem MessageKind.fromCheck_toCheck (kind : CheckedKind) (h) :
    fromCheck (toCheck kind) h = kind := by
  apply Subtype.ext
  have hto : kind.1.tryToCheck = some (toCheck kind) := (Option.some_get _).symm
  have hfrom : (toCheck kind).tryFromCheck = some kind.1 := tryFromCheck_eq_some_iff.mpr hto
  exact Option.get_of_eq_some _ hfrom

theorem MessageKind.toCheck_fromCheck (kind : MessageKind) (h : kind.isConsistencyCheck = true) :
    toCheck (fromCheck kind h) = kind := by
  have hfrom : kind.tryFromCheck = some (fromCheck kind h).1 := (Option.some_get _).symm
  exact Option.get_of_eq_some _ (tryFromCheck_eq_some_iff.mp hfrom)

theorem MessageKind.toCheck_injective : Function.Injective toCheck := by
  intro k l h
  have hk := fromCheck_toCheck k (toCheck_isConsistencyCheck k)
  have hl := fromCheck_toCheck l (toCheck_isConsistencyCheck l)
  rw [← hk, ← hl]
  simp only [h]

namespace Consistency

/-- `ConsistencyCheckData`. -/
structure CheckData where
  hash : Hash
  signature : Signature
  deriving DecidableEq

/-- `ConsistencyCheckKey`. -/
structure Key where
  kind : CheckedKind
  datatype : MessageDatatype
  sender : PartyID
  id : MessageID
  deriving DecidableEq

/-! ## Commands

A command is converted to its key and data before anything else is done with it; `Op` is a
command after that conversion. -/

inductive Command where
  /-- Want to check consistency for this -/
  | request (metadata : ConsistencyCheck)
  /-- Received check message from network -/
  | receivedCheck (message : CheckMessage)
  /-- Received data to check from network -/
  | receivedData (message : DataMessage)
  /-- Wait for all consistency checks to be finished -/
  | wait (answerChannel : AnswerChannel)

inductive Op where
  | request (key : Key) (receivers : Communicator)
  | check (key : Key) (receiver : PartyID) (check : CheckData)
  | data (key : Key) (check : CheckData)
  | wait (answerChannel : AnswerChannel)
  deriving DecidableEq

/-- The `From` conversions of the three messages. -/
def Command.op : Command → Op
  | .request m => .request ⟨m.kind, m.datatype, m.sender, m.id⟩ m.receivers
  | .receivedCheck ⟨m, h⟩ =>
      .check ⟨m.metadata.kind.fromCheck h, m.metadata.datatype, m.metadata.sender, m.metadata.id⟩
        m.metadata.receiver ⟨m.hash, m.signature⟩
  | .receivedData ⟨m, h⟩ =>
      .data ⟨⟨m.metadata.kind, h⟩, m.metadata.datatype, m.metadata.sender, m.metadata.id⟩
        ⟨m.hash, m.signature⟩
  | .wait channel => .wait channel

def Op.key? : Op → Option Key
  | .request key _ => some key
  | .check key _ _ => some key
  | .data key _ => some key
  | .wait _ => none

/-! ## The environment of the task -/

/-- What the task is started with. -/
structure Task (f : Features) where
  crypto : Crypto
  id : PartyID
  session : Cfg f.sessions SessionID
  verificationKeys : PartyID → Option PublicKey

/-- What happens to a message handed to the net channel: it is sent, sending fails, or the channel
is closed and does not take it. -/
inductive NetOutcome where
  | ok
  | failed
  | closed
  deriving DecidableEq, Repr

inductive Event where
  | answer (channel : AnswerChannel)
  | sendCheck (message : SendMessage) (receiver : PartyID)
  | notifyError (key : Key)
  | registerError (key : Key) (error : ConsistencyCheckError)
  | receiveError (key : Key) (error : ConsistencyCheckError)
  | dataError (key : Key) (error : ConsistencyCheckError)
  | checkError (key : Key) (error : ConsistencyCheckError)

variable {f : Features}

/-- The byte string `check_signature` verifies: that of the original message to `receiver`. -/
def signedMetadata (session : Cfg f.sessions SessionID) (metadata : Key) (receiver : PartyID)
    (check : CheckData) : List Byte :=
  [ toLeBytes 1 messageFormatVersion,
    toLeBytes 1 (messageFeatureFlags f),
    metadata.kind.1.toLeBytes,
    toLeBytes 1 metadata.datatype,
    toLeBytes 2 metadata.sender,
    toLeBytes 2 receiver,
    toLeBytes 8 metadata.id,
    session.elim (toLeBytes 16) [],
    check.hash.1 ].flatten

def checkSignature (t : Task f) (metadata : Key) (receiver : PartyID) (check : CheckData) :
    Except ConsistencyCheckError Unit :=
  match t.verificationKeys metadata.sender with
  | none => .error .unknownSender
  | some key =>
      if t.crypto.verify key (signedMetadata t.session metadata receiver check) check.signature.1
      then .ok ()
      else .error .inconsistentSignatureVerification

/-- The message `notify_parties` sends: the received hash and signature, with the own id in the
`receiver` field. -/
def checkMessage (id : PartyID) (metadata : Key) (data : CheckData) : SendMessage :=
  let buffer := data.hash.1 ++ data.signature.1
  { metadata := ⟨MessageKind.toCheck metadata.kind, metadata.datatype, metadata.sender, id,
      metadata.id, BitVec.ofNat 64 buffer.length⟩
    data := ReadData.ofBytes buffer }

/-- `notify_parties`: one message after the other, up to the first that fails. -/
def notifyParties (id : PartyID) (metadata : Key) (data : CheckData) (net : PartyID → NetOutcome) :
    List PartyID → List Event
  | [] => []
  | receiver :: receivers =>
      match net receiver with
      | .ok => .sendCheck (checkMessage id metadata data) receiver ::
          notifyParties id metadata data net receivers
      | .failed => [.sendCheck (checkMessage id metadata data) receiver, .notifyError metadata]
      | .closed => [.notifyError metadata]

/-- Every check message it sends is that of the recorded data, to one of the receivers. -/
theorem eq_of_sendCheck_mem_notifyParties {id : PartyID} {key : Key} {data : CheckData}
    {net : PartyID → NetOutcome} {receivers : List PartyID} {m : SendMessage} {r : PartyID}
    (h : Event.sendCheck m r ∈ notifyParties id key data net receivers) :
    m = checkMessage id key data ∧ r ∈ receivers := by
  induction receivers with
  | nil => cases h
  | cons r' receivers ih =>
      unfold notifyParties at h
      split at h
      · rcases List.mem_cons.mp h with heq | hrest
        · rw [Event.sendCheck.injEq] at heq
          exact ⟨heq.1, heq.2 ▸ List.mem_cons_self⟩
        · exact ⟨(ih hrest).1, List.mem_cons_of_mem _ (ih hrest).2⟩
      · simp only [List.mem_cons, Event.sendCheck.injEq, reduceCtorEq, List.not_mem_nil,
          or_false] at h
        exact ⟨h.1, h.2 ▸ List.mem_cons_self⟩
      · simp at h

/-- When nothing fails, every receiver gets one check message. -/
theorem notifyParties_of_ok {id : PartyID} {key : Key} {data : CheckData}
    {net : PartyID → NetOutcome} {receivers : List PartyID} (h : ∀ r ∈ receivers, net r = .ok) :
    notifyParties id key data net receivers =
      receivers.map fun r => .sendCheck (checkMessage id key data) r := by
  induction receivers with
  | nil => rfl
  | cons r receivers ih =>
      rw [notifyParties, h r List.mem_cons_self]
      simp only [List.map_cons]
      rw [ih fun r' hr' => h r' (List.mem_cons_of_mem r hr')]

/-! ## One entry: `ConsistencyCheckValue` -/

structure Value where
  received : Option CheckData
  receivers : Map PartyID (Option CheckData)
  registered : Bool

/-- A check by `receiver` that agrees with the recorded data. -/
structure Valid (t : Task f) (key : Key) (received : CheckData) (receiver : PartyID)
    (check : CheckData) : Prop where
  signature : checkSignature t key receiver check = .ok ()
  hash : received.hash = check.hash

namespace Value

def newRequest (receivers : Communicator) : Value where
  received := none
  receivers := Map.ofKeys receivers.toList receivers.nodup fun _ => none
  registered := true

def newReceived (receiver : PartyID) (check : CheckData) : Value where
  received := none
  receivers := Map.ofKeys [receiver] (List.nodup_singleton _) fun _ => some check
  registered := false

def newReceivedData (check : CheckData) : Value where
  received := some check
  receivers := ∅
  registered := false

/-- `receivers.is_superset(keys)`: every stored check is from one of the receivers. -/
def coveredBy (self : Value) (receivers : Communicator) : Bool :=
  self.receivers.keys.all fun party => decide (party ∈ receivers)

theorem coveredBy_iff {self : Value} {receivers : Communicator} :
    self.coveredBy receivers = true ↔ ∀ party ∈ self.receivers, party ∈ receivers := by
  simp [coveredBy, AList.mem_keys]

def register (self : Value) (receivers : Communicator) :
    Value × Except ConsistencyCheckError Bool :=
  if self.registered then (self, .error .multipleRequests)
  else if !self.coveredBy receivers then
    -- the checks of the requested receivers are kept, but the entry stays unregistered
    ({ self with
        receivers := Map.ofKeys receivers.toList receivers.nodup fun receiver =>
          (self.receivers.lookup receiver).getD none },
      .error .unknownCheck)
  else
    ({ self with
        receivers := Map.insertMissing self.receivers none receivers.toList
        registered := true },
      .ok self.received.isSome)

theorem register_of_covered {self : Value} {receivers : Communicator}
    (hregistered : self.registered = false) (hcovered : self.coveredBy receivers = true) :
    self.register receivers =
      (⟨self.received, Map.insertMissing self.receivers none receivers.toList, true⟩,
        .ok self.received.isSome) := by
  simp [register, hregistered, hcovered]

def receive (self : Value) (receiver : PartyID) (check : CheckData) :
    Value × Except ConsistencyCheckError Unit :=
  match self.receivers.lookup receiver with
  | some (some _) => (self, .error .multipleChecks)
  | some none => ({ self with receivers := self.receivers.insert receiver (some check) }, .ok ())
  | none =>
      if self.registered then (self, .error .unknownCheck)
      else ({ self with receivers := self.receivers.insert receiver (some check) }, .ok ())

def receiveData (self : Value) (check : CheckData) : Value × Except ConsistencyCheckError Bool :=
  match self.received with
  | some _ => (self, .error .multipleMessages)
  | none => ({ self with received := some check }, .ok self.registered)

/-- The loop of `check` over the entries: the parties whose check is valid, or the first error. -/
def validReceivers (t : Task f) (metadata : Key) (received : CheckData) :
    List (Sigma fun _ : PartyID => Option CheckData) →
      Except ConsistencyCheckError (List PartyID)
  | [] => .ok []
  | ⟨_, none⟩ :: rest => validReceivers t metadata received rest
  | ⟨receiver, some check⟩ :: rest => do
      checkSignature t metadata receiver check
      if received.hash ≠ check.hash then .error .inconsistentCollectiveCommunication
      else
        let valid ← validReceivers t metadata received rest
        .ok (receiver :: valid)

/-- The loop succeeds exactly if every stored check is valid, and then lists their parties. -/
theorem validReceivers_eq_ok_iff {t : Task f} {key : Key} {received : CheckData}
    {entries : List (Sigma fun _ : PartyID => Option CheckData)} {valid : List PartyID} :
    validReceivers t key received entries = .ok valid ↔
      (∀ e ∈ entries, ∀ check, e.2 = some check → Valid t key received e.1 check) ∧
        valid = (entries.filter fun e => e.2.isSome).map Sigma.fst := by
  induction entries generalizing valid with
  | nil => simp [validReceivers, eq_comm]
  | cons e rest ih =>
      obtain ⟨receiver, check⟩ := e
      cases check with
      -- a receiver without a check is left out
      | none => simp [validReceivers, ih]
      | some check =>
          simp only [validReceivers, bind_eq_ok_iff, List.forall_mem_cons, Option.some.injEq,
            forall_eq']
          constructor
          · rintro ⟨_, hsignature, h⟩
            split at h
            · cases h
            · rename_i hhash
              obtain ⟨valid', hrest, hvalid⟩ := bind_eq_ok_iff.mp h
              obtain ⟨hall, rfl⟩ := ih.mp hrest
              refine ⟨⟨⟨hsignature, not_not.mp hhash⟩, hall⟩, ?_⟩
              rw [← Except.ok.inj hvalid]
              rfl
          · rintro ⟨⟨hvalid, hall⟩, rfl⟩
            refine ⟨(), hvalid.signature, ?_⟩
            rw [if_neg (not_not.mpr hvalid.hash)]
            exact bind_eq_ok_iff.mpr ⟨_, ih.mpr ⟨hall, rfl⟩, rfl⟩

def check (t : Task f) (metadata : Key) (self : Value) :
    Value × Except ConsistencyCheckError Bool :=
  if !self.registered then (self, .ok false)
  else
    match self.received with
    | none => (self, .ok false)
    | some received =>
        match validReceivers t metadata received self.receivers.entries with
        | .error e => (self, .error e)
        | .ok valid => ({ self with receivers := Map.eraseKeys self.receivers valid }, .ok true)

def isDone (self : Value) : Bool :=
  self.registered && self.received.isSome && self.receivers.entries.isEmpty

/-- An entry without a request or without data is left alone. -/
theorem check_of_not_ready {t : Task f} {key : Key} {self : Value}
    (h : self.registered = false ∨ self.received = none) :
    self.check t key = (self, .ok false) := by
  rcases h with h | h
  · simp [check, h]
  · by_cases hr : self.registered = true
    · simp [check, h, hr]
    · simp [check, hr]

theorem check_of_valid {t : Task f} {key : Key} {self : Value} {received : CheckData}
    (hregistered : self.registered = true) (hreceived : self.received = some received)
    (hvalid : ∀ r check, self.receivers.lookup r = some (some check) →
      Valid t key received r check) :
    ∃ valid, self.check t key =
        (⟨self.received, Map.eraseKeys self.receivers valid, true⟩, .ok true) ∧
      ∀ r, r ∈ valid ↔ ∃ check, self.receivers.lookup r = some (some check) := by
  have hall : ∀ e ∈ self.receivers.entries, ∀ check, e.2 = some check →
      Valid t key received e.1 check := by
    rintro ⟨r, v⟩ he check rfl
    exact hvalid r check (Map.mem_entries_iff.mp he)
  obtain ⟨valid, hloop⟩ : ∃ valid,
      validReceivers t key received self.receivers.entries = .ok valid :=
    ⟨_, validReceivers_eq_ok_iff.mpr ⟨hall, rfl⟩⟩
  refine ⟨valid, by simp [check, hregistered, hreceived, hloop], fun r => ?_⟩
  rw [(validReceivers_eq_ok_iff.mp hloop).2]
  simp only [List.mem_map, List.mem_filter, Option.isSome_iff_exists]
  constructor
  · rintro ⟨⟨r, v⟩, ⟨he, check, rfl⟩, rfl⟩
    exact ⟨check, Map.mem_entries_iff.mp he⟩
  · rintro ⟨check, hcheck⟩
    exact ⟨⟨r, some check⟩, ⟨Map.mem_entries_iff.mpr hcheck, check, rfl⟩, rfl⟩

theorem check_of_invalid {t : Task f} {key : Key} {self : Value} {received : CheckData}
    (hregistered : self.registered = true) (hreceived : self.received = some received)
    (hinvalid : ∃ r check, self.receivers.lookup r = some (some check) ∧
      ¬ Valid t key received r check) :
    ∃ e, self.check t key = (self, .error e) := by
  simp only [check, hregistered, hreceived]
  cases hloop : validReceivers t key received self.receivers.entries with
  | error e => exact ⟨e, rfl⟩
  | ok valid =>
      obtain ⟨r, check, hlookup, hnot⟩ := hinvalid
      have hall := (validReceivers_eq_ok_iff.mp hloop).1
      exact absurd (hall _ (Map.mem_entries_iff.mpr hlookup) check rfl) hnot

end Value

/-! ## The command loop -/

structure State where
  consistency : Map Key Value
  openRequests : List AnswerChannel

def State.initial : State := ⟨∅, []⟩

def isConsistent (consistency : Map Key Value) : Bool :=
  consistency.entries.all fun entry => !entry.2.registered

theorem isConsistent_iff {consistency : Map Key Value} : isConsistent consistency = true ↔
    ∀ key value, consistency.lookup key = some value → value.registered = false := by
  rw [isConsistent, List.all_eq_true, ← Map.forall_entries_iff]
  simp

/-- `check` on an entry of the map, which is removed when it is done. -/
def checkEntry (t : Task f) (consistency : Map Key Value) (key : Key) (value : Value) :
    Map Key Value × List Event :=
  match value.check t key with
  | (value, .ok false) => (consistency.insert key value, [])
  | (value, .error e) => (consistency.insert key value, [.checkError key e])
  | (value, .ok true) =>
      if value.isDone then (consistency.erase key, []) else (consistency.insert key value, [])

/-- The end of every branch with an occupied entry: check the entry, and answer the open requests
when everything is consistent. -/
def finish (t : Task f) (s : State) (key : Key) (value : Value) : State × List Event :=
  let (consistency, events) := checkEntry t s.consistency key value
  if isConsistent consistency then (⟨consistency, []⟩, events ++ s.openRequests.map Event.answer)
  else (⟨consistency, s.openRequests⟩, events)

/-- `match consistency.entry(key)`: what happens to an occupied entry before it is checked, and
the entry put in a vacant place. -/
def onEntry (t : Task f) (s : State) (key : Key) (occupied : Value → Value × List Event)
    (vacant : Value) : State × List Event :=
  match s.consistency.lookup key with
  | some value =>
      let (value, events) := occupied value
      let (s, rest) := finish t s key value
      (s, events ++ rest)
  | none => ({ s with consistency := s.consistency.insert key vacant }, [])

/-- The occupied branch of `Request`. -/
def onRequest (t : Task f) (net : PartyID → NetOutcome) (key : Key) (receivers : Communicator)
    (value : Value) : Value × List Event :=
  match value.register receivers with
  | (value, .error e) => (value, [.registerError key e])
  | (value, .ok false) => (value, [])
  | (value, .ok true) =>
      (value, value.received.elim [] fun data => notifyParties t.id key data net receivers.toList)

/-- The occupied branch of `ReceivedCheck`. -/
def onCheck (key : Key) (receiver : PartyID) (check : CheckData) (value : Value) :
    Value × List Event :=
  match value.receive receiver check with
  | (value, .error e) => (value, [.receiveError key e])
  | (value, .ok ()) => (value, [])

/-- The occupied branch of `ReceivedData`. -/
def onData (t : Task f) (net : PartyID → NetOutcome) (key : Key) (check : CheckData)
    (value : Value) : Value × List Event :=
  match value.receiveData check with
  | (value, .error e) => (value, [.dataError key e])
  | (value, .ok false) => (value, [])
  | (value, .ok true) =>
      (value, value.received.elim [] fun data =>
        notifyParties t.id key data net value.receivers.keys)

/-- One iteration of the loop of `run`; `net` says what happens to the check messages it sends. -/
def stepOp (t : Task f) (net : PartyID → NetOutcome) (s : State) : Op → State × List Event
  | .request key receivers =>
      onEntry t s key (onRequest t net key receivers) (Value.newRequest receivers)
  | .check key receiver check =>
      onEntry t s key (onCheck key receiver check) (Value.newReceived receiver check)
  | .data key check => onEntry t s key (onData t net key check) (Value.newReceivedData check)
  | .wait channel =>
      if isConsistent s.consistency then (s, [.answer channel])
      else ({ s with openRequests := s.openRequests ++ [channel] }, [])

/-- What one iteration of the loop reads: a command, and the outcome of each message it sends. -/
structure Input where
  command : Command
  net : PartyID → NetOutcome

def step (t : Task f) (s : State) (input : Input) : State × List Event :=
  stepOp t input.net s input.command.op

def run (t : Task f) (inputs : List Input) : State × List Event :=
  exec (step t) State.initial inputs

theorem run_concat (t : Task f) (inputs : List Input) (input : Input) :
    run t (inputs ++ [input]) =
      ((stepOp t input.net (run t inputs).1 input.command.op).1,
        (run t inputs).2 ++ (stepOp t input.net (run t inputs).1 input.command.op).2) :=
  exec_concat State.initial inputs input

/-! ## One command, seen from one key

A command only touches the entry of its own key. `entryAfter` is what becomes of that entry;
`settle` is the part every occupied branch ends with. -/

/-- The entry after `check`: removed when it is done. -/
def settle (t : Task f) (key : Key) (value : Value) : Option Value :=
  match value.check t key with
  | (value, .ok true) => if value.isDone then none else some value
  | (value, _) => some value

def entryAfter (t : Task f) (entry : Option Value) : Op → Option Value
  | .request key receivers =>
      match entry with
      | some value => settle t key (value.register receivers).1
      | none => some (Value.newRequest receivers)
  | .check key receiver check =>
      match entry with
      | some value => settle t key (value.receive receiver check).1
      | none => some (Value.newReceived receiver check)
  | .data key check =>
      match entry with
      | some value => settle t key (value.receiveData check).1
      | none => some (Value.newReceivedData check)
  | .wait _ => entry

theorem onRequest_fst (t : Task f) (net : PartyID → NetOutcome) (key : Key)
    (receivers : Communicator) (value : Value) :
    (onRequest t net key receivers value).1 = (value.register receivers).1 := by
  unfold onRequest
  split <;> simp_all

theorem onCheck_fst (key : Key) (receiver : PartyID) (check : CheckData) (value : Value) :
    (onCheck key receiver check value).1 = (value.receive receiver check).1 := by
  unfold onCheck
  split <;> simp_all

theorem onData_fst (t : Task f) (net : PartyID → NetOutcome) (key : Key) (check : CheckData)
    (value : Value) : (onData t net key check value).1 = (value.receiveData check).1 := by
  unfold onData
  split <;> simp_all

theorem lookup_checkEntry (t : Task f) (consistency : Map Key Value) (key : Key) (value : Value)
    (k : Key) : (checkEntry t consistency key value).1.lookup k =
      if k = key then settle t key value else consistency.lookup k := by
  unfold checkEntry settle
  rcases value.check t key with ⟨v, e | b⟩
  · exact Map.lookup_insert consistency key k v
  · cases b with
    | false => exact Map.lookup_insert consistency key k v
    | true =>
        by_cases hdone : v.isDone = true
        · simp only [hdone, if_true]
          exact Map.lookup_erase consistency key k
        · simp only [hdone]
          exact Map.lookup_insert consistency key k v

theorem finish_consistency (t : Task f) (s : State) (key : Key) (value : Value) :
    (finish t s key value).1.consistency = (checkEntry t s.consistency key value).1 := by
  unfold finish
  dsimp only
  split <;> rfl

theorem lookup_onEntry (t : Task f) (s : State) (key : Key) (occupied : Value → Value × List Event)
    (vacant : Value) (k : Key) :
    (onEntry t s key occupied vacant).1.consistency.lookup k =
      if k = key then
        match s.consistency.lookup key with
        | some value => settle t key (occupied value).1
        | none => some vacant
      else s.consistency.lookup k := by
  unfold onEntry
  cases s.consistency.lookup key with
  | some value =>
      dsimp only
      rw [finish_consistency, lookup_checkEntry]
  | none => exact Map.lookup_insert s.consistency key k vacant

/-- **A command acts on the entry of its key and on no other.** -/
theorem lookup_stepOp (t : Task f) (net : PartyID → NetOutcome) (s : State) (op : Op) (k : Key) :
    (stepOp t net s op).1.consistency.lookup k =
      if op.key? = some k then entryAfter t (s.consistency.lookup k) op
      else s.consistency.lookup k := by
  cases op with
  | wait channel =>
      simp only [stepOp, Op.key?, entryAfter]
      split <;> simp
  -- the three commands with a key insert or settle its entry only
  | request key receivers =>
      rw [stepOp, lookup_onEntry]
      simp only [Op.key?, Option.some.injEq, entryAfter, onRequest_fst]
      by_cases hk : k = key
      · subst hk
        rw [if_pos rfl]
      · rw [if_neg hk, if_neg (Ne.symm hk)]
  | check key receiver check =>
      rw [stepOp, lookup_onEntry]
      simp only [Op.key?, Option.some.injEq, entryAfter, onCheck_fst]
      by_cases hk : k = key
      · subst hk
        rw [if_pos rfl]
      · rw [if_neg hk, if_neg (Ne.symm hk)]
  | data key check =>
      rw [stepOp, lookup_onEntry]
      simp only [Op.key?, Option.some.injEq, entryAfter, onData_fst]
      by_cases hk : k = key
      · subst hk
        rw [if_pos rfl]
      · rw [if_neg hk, if_neg (Ne.symm hk)]

/-! ## What a command answers and sends -/

def answersOf (events : List Event) : List AnswerChannel :=
  events.filterMap fun
    | .answer channel => some channel
    | _ => none

def checksSent (events : List Event) : List (SendMessage × PartyID) :=
  events.filterMap fun
    | .sendCheck message receiver => some (message, receiver)
    | _ => none

@[simp] theorem answersOf_append (es es' : List Event) :
    answersOf (es ++ es') = answersOf es ++ answersOf es' := List.filterMap_append

@[simp] theorem checksSent_append (es es' : List Event) :
    checksSent (es ++ es') = checksSent es ++ checksSent es' := List.filterMap_append

@[simp] theorem answersOf_map_answer (channels : List AnswerChannel) :
    answersOf (channels.map Event.answer) = channels := by
  simp [answersOf, List.filterMap_map]

@[simp] theorem checksSent_map_answer (channels : List AnswerChannel) :
    checksSent (channels.map Event.answer) = [] := by
  simp [checksSent, List.filterMap_map]

theorem mem_checksSent {events : List Event} {m : SendMessage} {r : PartyID} :
    (m, r) ∈ checksSent events ↔ .sendCheck m r ∈ events := by
  simp only [checksSent, List.mem_filterMap]
  constructor
  · rintro ⟨event, hevent, h⟩
    cases event with
    | sendCheck m' r' =>
        obtain ⟨rfl, rfl⟩ := Prod.mk.inj (Option.some.inj h)
        exact hevent
    | _ => cases h
  · intro h
    exact ⟨_, h, rfl⟩

theorem mem_answersOf {events : List Event} {channel : AnswerChannel} :
    channel ∈ answersOf events ↔ .answer channel ∈ events := by
  simp only [answersOf, List.mem_filterMap]
  constructor
  · rintro ⟨event, hevent, h⟩
    cases event with
    | answer channel' => exact Option.some.inj h ▸ hevent
    | _ => cases h
  · intro h
    exact ⟨_, h, rfl⟩

theorem answersOf_notifyParties (id : PartyID) (key : Key) (data : CheckData)
    (net : PartyID → NetOutcome) (receivers : List PartyID) :
    answersOf (notifyParties id key data net receivers) = [] := by
  induction receivers with
  | nil => rfl
  | cons r receivers ih =>
      unfold notifyParties
      split
      · simpa [answersOf] using ih
      · rfl
      · rfl

theorem quiet_checkEntry (t : Task f) (consistency : Map Key Value) (key : Key) (value : Value) :
    answersOf (checkEntry t consistency key value).2 = [] ∧
      checksSent (checkEntry t consistency key value).2 = [] := by
  unfold checkEntry
  split
  · exact ⟨rfl, rfl⟩
  · exact ⟨rfl, rfl⟩
  · split <;> exact ⟨rfl, rfl⟩

/-- `finish` answers all open requests or none, by whether everything is consistent then. -/
theorem finish_answers (t : Task f) (s : State) (key : Key) (value : Value) :
    (isConsistent (finish t s key value).1.consistency = true ∧
        answersOf (finish t s key value).2 = s.openRequests ∧
        (finish t s key value).1.openRequests = []) ∨
      (isConsistent (finish t s key value).1.consistency = false ∧
        answersOf (finish t s key value).2 = [] ∧
        (finish t s key value).1.openRequests = s.openRequests) := by
  have hquiet := (quiet_checkEntry t s.consistency key value).1
  unfold finish
  by_cases hconsistent : isConsistent (checkEntry t s.consistency key value).1 = true
  · left
    simp [hconsistent, hquiet]
  · right
    simp [hconsistent, hquiet]

theorem checksSent_finish (t : Task f) (s : State) (key : Key) (value : Value) :
    checksSent (finish t s key value).2 = [] := by
  have hquiet := (quiet_checkEntry t s.consistency key value).2
  unfold finish
  dsimp only
  split
  · simp [hquiet]
  · exact hquiet

/-- What each command does before its entry is checked answers nothing. -/
theorem answersOf_onRequest (t : Task f) (net : PartyID → NetOutcome) (key : Key)
    (receivers : Communicator) (value : Value) :
    answersOf (onRequest t net key receivers value).2 = [] := by
  unfold onRequest
  split
  · rfl
  · rfl
  · rename_i v hv
    cases v.received with
    | none => rfl
    | some data => exact answersOf_notifyParties _ _ _ _ _

theorem answersOf_onCheck (key : Key) (receiver : PartyID) (check : CheckData) (value : Value) :
    answersOf (onCheck key receiver check value).2 = [] := by
  unfold onCheck
  split <;> rfl

theorem answersOf_onData (t : Task f) (net : PartyID → NetOutcome) (key : Key) (check : CheckData)
    (value : Value) : answersOf (onData t net key check value).2 = [] := by
  unfold onData
  split
  · rfl
  · rfl
  · rename_i v hv
    cases v.received with
    | none => rfl
    | some data => exact answersOf_notifyParties _ _ _ _ _

/-- The effect of an entry command on the open requests: answered together once everything is
consistent, else all kept. -/
theorem onEntry_answers (t : Task f) (s : State) (key : Key)
    (occupied : Value → Value × List Event) (vacant : Value)
    (hoccupied : ∀ value, answersOf (occupied value).2 = [])
    (hopen : s.openRequests ≠ [] → isConsistent s.consistency = false) :
    let s' := (onEntry t s key occupied vacant).1
    let given := answersOf (onEntry t s key occupied vacant).2
    given ++ s'.openRequests = s.openRequests ∧
      (given ≠ [] → isConsistent s'.consistency = true) ∧
      (s'.openRequests ≠ [] → isConsistent s'.consistency = false) := by
  unfold onEntry
  cases hlookup : s.consistency.lookup key with
  | some value =>
      simp only [answersOf_append, hoccupied, List.nil_append]
      rcases finish_answers t s key (occupied value).1 with
        ⟨hc, hgiven, hrest⟩ | ⟨hc, hgiven, hrest⟩
      · simp [hc, hgiven, hrest]
      · simp [hc, hgiven, hrest]
  | none =>
      refine ⟨rfl, fun h => absurd rfl h, fun h => ?_⟩
      -- an unregistered value elsewhere in the map still holds everything back
      have hnot := hopen h
      rw [← Bool.not_eq_true, isConsistent_iff] at hnot ⊢
      refine fun hall => hnot fun k v hv => hall k v ?_
      have hk : k ≠ key := by
        rintro rfl
        rw [hlookup] at hv
        cases hv
      exact (AList.lookup_insert_ne hk).trans hv

/-- **Waits are answered exactly while everything is consistent.** A command answers open requests
and its own wait only if no entry is registered afterwards, keeps every other one, and leaves no
request open in a consistent state. -/
theorem stepOp_answers (t : Task f) (net : PartyID → NetOutcome) (s : State) (op : Op)
    (hopen : s.openRequests ≠ [] → isConsistent s.consistency = false) :
    let s' := (stepOp t net s op).1
    let given := answersOf (stepOp t net s op).2
    given ++ s'.openRequests =
        s.openRequests ++ (match op with | .wait channel => [channel] | _ => []) ∧
      (given ≠ [] → isConsistent s'.consistency = true) ∧
      (s'.openRequests ≠ [] → isConsistent s'.consistency = false) := by
  cases op with
  | request key receivers =>
      simpa [stepOp] using
        onEntry_answers t s key _ _ (answersOf_onRequest t net key receivers) hopen
  | check key receiver check =>
      simpa [stepOp] using onEntry_answers t s key _ _ (answersOf_onCheck key receiver check) hopen
  | data key check =>
      simpa [stepOp] using onEntry_answers t s key _ _ (answersOf_onData t net key check) hopen
  | wait channel =>
      by_cases hconsistent : isConsistent s.consistency = true
      · have hnil : s.openRequests = [] := by
          by_contra hne
          rw [hopen hne] at hconsistent
          cases hconsistent
        simp [stepOp, hconsistent, answersOf, hnil]
      · simp [stepOp, hconsistent, answersOf]

end Consistency

end Hmpc.Net
