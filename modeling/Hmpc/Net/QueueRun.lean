/-
# Hmpc.Net.QueueRun -- what a queue has done after its calls

`Collective` is one message of an operation without its data: who sends to whom (`sends`), what is
hashed for the counter (`digest`), and who takes part (`party`). A queue that has executed calls
has sent and requested exactly the `transfers` of their collectives (`Executed`), each with the ID
the numbering of its own calls gives it.
-/
import Hmpc.Lib.Loops
import Hmpc.Lib.Numbering
import Hmpc.Net.Queue

namespace Hmpc.Net

open Hmpc.Lib Hmpc.Lib.Loops Hmpc.Lib.Numbering BaseMessageID

/-! ## One message of an operation -/

/-- How many members the hash of a kind contains. -/
def MessageKind.arity : MessageKind → ℕ
  | .broadcast | .gather => 1
  | _ => 0

structure Collective where
  kind : MessageKind
  datatype : MessageDatatype
  members : List PartyID
  size : MessageSize
  senders : Communicator
  receivers : Communicator
  arity : members.length = kind.arity

namespace Collective

def ofBroadcast (communicator : Communicator) (m : Broadcast) : Collective :=
  ⟨.broadcast, m.datatype, [m.sender], m.size, communicator, communicator, rfl⟩

def ofGather (communicator : Communicator) (m : Gather) : Collective :=
  ⟨.gather, m.datatype, [m.receiver], m.size, communicator, communicator, rfl⟩

def ofAllGather (senders receivers : Communicator) (m : AllGather) : Collective :=
  ⟨.allGather, m.datatype, [], m.size, senders, receivers, rfl⟩

def ofAllToAll (communicator : Communicator) (m : AllToAll) : Collective :=
  ⟨.allToAll, m.datatype, [], m.size, communicator, communicator, rfl⟩

/-- `p` sends a message to `q`. -/
def sends (i : Collective) (p q : PartyID) : Bool :=
  decide (p ≠ q) &&
    match i.kind with
    | .broadcast => decide (i.members = [p]) && decide (q ∈ i.receivers)
    | .gather => decide (p ∈ i.senders) && decide (i.members = [q])
    | _ => decide (p ∈ i.senders) && decide (q ∈ i.receivers)

/-- Who takes part. -/
def parties (i : Collective) : List PartyID :=
  i.senders.toList ++ i.receivers.toList ++ i.members

def party (i : Collective) (p : PartyID) : Bool := decide (p ∈ i.parties)

def digest (i : Collective) : List Byte :=
  hashCommunicator i.senders ++
    (i.kind.toLeBytes ++ toLeBytes 1 i.datatype ++ i.members.flatMap (toLeBytes 2)) ++
    hashCommunicator i.receivers

/-- The key of its counter. -/
def key (hash : List Byte → Hash) (i : Collective) : MessageKind × MessageDatatype × Hash :=
  (i.kind, i.datatype, hash i.digest)

/-- The ID of the message when `n` collectives of its key came before. -/
def messageID (hash : List Byte → Hash) (i : Collective) (n : ℕ) : MessageID :=
  idOfKey (hash i.digest) + BitVec.ofNat 64 (n + 1)

def message (i : Collective) (p q : PartyID) (id : MessageID) : Message :=
  ⟨i.kind, i.datatype, p, q, id, i.size⟩

theorem party_of_sends {i : Collective} {p q : PartyID} (h : i.sends p q = true) :
    i.party p = true ∧ i.party q = true := by
  obtain ⟨kind, datatype, members, size, senders, receivers, harity⟩ := i
  cases kind <;> simp_all [sends, party, parties, Communicator.mem_def]

/-! ### The digest determines everything but the size -/

theorem eq_of_flatMap_toLeBytes {n : ℕ} {l m : List (BitVec (8 * n))} (hlen : l.length = m.length)
    (h : l.flatMap (toLeBytes n) = m.flatMap (toLeBytes n)) : l = m := by
  induction l generalizing m with
  | nil => exact (List.eq_nil_of_length_eq_zero hlen.symm).symm
  | cons x l ih =>
      cases m with
      | nil => cases hlen
      | cons y m =>
          rw [List.flatMap_cons, List.flatMap_cons] at h
          obtain ⟨hfirst, hrest⟩ := List.append_inj h (by simp)
          rw [toLeBytes_injective n hfirst, ih (by simpa using hlen) hrest]

theorem length_flatMap_toLeBytes (n : ℕ) (l : List (BitVec (8 * n))) :
    (l.flatMap (toLeBytes n)).length = n * l.length := by
  induction l with
  | nil => rfl
  | cons x l ih => rw [List.flatMap_cons, List.length_append, ih, length_toLeBytes,
      List.length_cons, Nat.mul_add, Nat.mul_one, Nat.add_comm]

/-- A communicator has at most as many parties as there are IDs. -/
theorem length_communicator_lt (c : Communicator) : c.toList.length < 2 ^ 64 := by
  have hnodup : (c.toList.map BitVec.toFin).Nodup :=
    c.nodup.map fun _ _ h => BitVec.eq_of_toFin_eq h
  have hle := hnodup.length_le_card
  rw [List.length_map, Fintype.card_fin] at hle
  omega

theorem hashCommunicator_append {c d : Communicator} {x y : List Byte}
    (h : hashCommunicator c ++ x = hashCommunicator d ++ y) : c = d ∧ x = y := by
  rw [hashCommunicator, hashCommunicator, List.append_assoc, List.append_assoc] at h
  obtain ⟨hcount, hrest⟩ := List.append_inj h (by simp)
  have hlength : c.toList.length = d.toList.length := by
    have := congrArg BitVec.toNat (toLeBytes_injective 8 hcount)
    rwa [BitVec.toNat_ofNat, BitVec.toNat_ofNat, Nat.mod_eq_of_lt (length_communicator_lt c),
      Nat.mod_eq_of_lt (length_communicator_lt d)] at this
  obtain ⟨hparties, hrest⟩ := List.append_inj hrest
    (by rw [length_flatMap_toLeBytes, length_flatMap_toLeBytes, hlength])
  refine ⟨Communicator.ext_mem fun p => ?_, hrest⟩
  rw [Communicator.mem_def, Communicator.mem_def, eq_of_flatMap_toLeBytes hlength hparties]

theorem digest_injective {i j : Collective} (h : i.digest = j.digest) :
    i.kind = j.kind ∧ i.datatype = j.datatype ∧ i.members = j.members ∧ i.senders = j.senders ∧
      i.receivers = j.receivers := by
  simp only [digest, List.append_assoc] at h
  obtain ⟨hsenders, h⟩ := hashCommunicator_append h
  obtain ⟨hkind, h⟩ := List.append_inj h (by simp)
  have hkind' := MessageKind.toLeBytes_injective hkind
  obtain ⟨hdatatype, h⟩ := List.append_inj h (by simp)
  have hlength : i.members.length = j.members.length := by rw [i.arity, j.arity, hkind']
  obtain ⟨hmembers, h⟩ := List.append_inj h
    (by rw [length_flatMap_toLeBytes, length_flatMap_toLeBytes, hlength])
  refine ⟨hkind', toLeBytes_injective 1 hdatatype, eq_of_flatMap_toLeBytes hlength hmembers,
    hsenders, ?_⟩
  have hreceivers : hashCommunicator i.receivers ++ [] = hashCommunicator j.receivers ++ [] := by
    rw [h]
  exact (hashCommunicator_append hreceivers).1

/-- The hash does not map two digests of these collectives to one value. -/
def CollisionFree (hash : List Byte → Hash) (is : List Collective) : Prop :=
  ∀ i ∈ is, ∀ j ∈ is, hash i.digest = hash j.digest → i.digest = j.digest

instance (hash : List Byte → Hash) (is : List Collective) : Decidable (CollisionFree hash is) :=
  inferInstanceAs (Decidable (∀ i ∈ is, ∀ j ∈ is, hash i.digest = hash j.digest →
    i.digest = j.digest))

/-- **Collectives of one key have the same parties.** -/
theorem party_of_key {hash : List Byte → Hash} {is : List Collective}
    (hhash : CollisionFree hash is) {i j : Collective} (hi : i ∈ is) (hj : j ∈ is)
    (h : i.key hash = j.key hash) (p : PartyID) : i.party p = j.party p := by
  have hdigest := hhash i hi j hj (congrArg (fun k => k.2.2) h)
  obtain ⟨-, -, hmembers, hsenders, hreceivers⟩ := digest_injective hdigest
  rw [party, party, parties, parties, hmembers, hsenders, hreceivers]

/-! ### Transfers -/

/-- The messages that go from `p` to `q` in a list of collectives. -/
def transfers (hash : List Byte → Hash) (p q : PartyID) (is : List Collective) : List Message :=
  (number (key hash) is).flatMap fun e =>
    if e.1.sends p q then [e.1.message p q (e.1.messageID hash e.2)] else []

theorem transfers_concat (hash : List Byte → Hash) (p q : PartyID) (is : List Collective)
    (i : Collective) : transfers hash p q (is ++ [i]) = transfers hash p q is ++
      if i.sends p q then
        [i.message p q (i.messageID hash (occurrences (key hash) (i.key hash) is))]
      else [] := by
  rw [transfers, number_concat, List.flatMap_append]
  simp [transfers]

/-- Only the collectives that a party of the transfer takes part in matter: all of a key have it or
none. -/
theorem transfers_filter {hash : List Byte → Hash} {p q r : PartyID} {is : List Collective}
    (hr : r = p ∨ r = q) (hhash : CollisionFree hash is) :
    transfers hash p q (is.filter fun i => i.party r) = transfers hash p q is := by
  rw [transfers, ← number_filter (key hash) (fun i => i.party r) is
    fun i hi j hj hkey => party_of_key hhash hi hj hkey r]
  refine flatMap_filter_of_nil _ fun e hparty => if_neg fun hsends => ?_
  obtain ⟨hp, hq⟩ := party_of_sends hsends
  rcases hr with rfl | rfl
  · rw [hp] at hparty
    cases hparty
  · rw [hq] at hparty
    cases hparty

end Collective

variable {δ : Type} {build : QueueBuild} {hash : List Byte → Hash}

/-! ## What the steps of an operation do -/

/-- The statistics, when they are kept, count the bytes of the log. -/
def QueueState.Counted (build : QueueBuild) (s : QueueState δ) : Prop :=
  build.statistics = true →
    s.networkStatistics.sent = BitVec.ofNat 64 s.bytesSent ∧
      s.networkStatistics.received = BitVec.ofNat 64 s.bytesReceived

/-- From `s` to `s'` these actions were done, and nothing else. -/
structure Does (build : QueueBuild) (s : QueueState δ) (actions : List (Action δ))
    (s' : QueueState δ) : Prop where
  id : s'.id = s.id
  counters : s'.counters = s.counters
  log : s'.log = s.log ++ actions
  counted : s.Counted build → s'.Counted build

theorem Does.refl (s : QueueState δ) : Does build s [] s :=
  ⟨rfl, rfl, (List.append_nil _).symm, fun h => h⟩

theorem Does.trans {s s' s'' : QueueState δ} {actions actions' : List (Action δ)}
    (h : Does build s actions s') (h' : Does build s' actions' s'') :
    Does build s (actions ++ actions') s'' :=
  ⟨h'.id.trans h.id, h'.counters.trans h.counters, by rw [h'.log, h.log, List.append_assoc],
    fun hc => h'.counted (h.counted hc)⟩

/-- A loop whose body does some actions for each element. -/
theorem does_foldlM {α : Type} {p : PartyID} {f : QueueState δ → α → Option (QueueState δ)}
    (actions : α → List (Action δ))
    (hstep : ∀ s s' a, s.id = p → f s a = some s' → Does build s (actions a) s') {l : List α}
    {s s' : QueueState δ} (hid : s.id = p) (h : l.foldlM f s = some s') :
    Does build s (l.flatMap actions) s' := by
  induction l generalizing s with
  | nil =>
      obtain rfl : s = s' := Option.some.inj h
      exact Does.refl s
  | cons a l ih =>
      rw [List.foldlM_cons] at h
      obtain ⟨s₁, hfirst, hrest⟩ := Option.bind_eq_some_iff.mp h
      have hdoes := hstep s s₁ a hid hfirst
      exact hdoes.trans (ih (hdoes.id.trans hid) hrest)

theorem does_act {s : QueueState δ} {action : Action δ}
    (hsent : action.bytesSent = 0) (hreceived : action.bytesReceived = 0) :
    Does build s [action] (s.act action) := by
  refine ⟨rfl, rfl, rfl, fun hc hstatistics => ?_⟩
  obtain ⟨h₁, h₂⟩ := hc hstatistics
  have hbytes : (s.act action).bytesSent = s.bytesSent ∧
      (s.act action).bytesReceived = s.bytesReceived := by
    simp [QueueState.bytesSent, QueueState.bytesReceived, QueueState.act, hsent, hreceived]
  rw [hbytes.1, hbytes.2]
  exact ⟨h₁, h₂⟩

theorem does_checkConsistency (s : QueueState δ) (check : ConsistencyCheck) :
    Does build s (if build.collectiveConsistency then [.checkConsistency check] else [])
      (s.checkConsistency build check) := by
  unfold QueueState.checkConsistency
  split
  · exact does_act rfl rfl
  · exact Does.refl s

theorem does_ensureConsistency {s s' : QueueState δ} {needed ensured : Bool}
    (h : s.ensureConsistency build needed ensured = some s') :
    ∃ actions, Does build s actions s' ∧ (actions = [] ∨ actions = [.ensureConsistency]) := by
  unfold QueueState.ensureConsistency at h
  split at h
  · split at h
    · rw [← Option.some.inj h]
      exact ⟨_, does_act rfl rfl, .inr rfl⟩
    · cases h
  · rw [← Option.some.inj h]
    exact ⟨[], Does.refl s, .inl rfl⟩

theorem does_nextRound {s s' : QueueState δ} (h : s.nextRound build = some s') :
    Does build s [] s' := by
  unfold QueueState.nextRound at h
  split at h
  · obtain ⟨rounds, -, h⟩ := Option.bind_eq_some_iff.mp h
    rw [← Option.some.inj h]
    exact ⟨rfl, rfl, (List.append_nil _).symm, fun hc => hc⟩
  · rw [← Option.some.inj h]
    exact Does.refl s

theorem does_sendOn {s s' : QueueState δ} {message : Message} {data : δ}
    (h : s.sendOn build message data = some s') : Does build s [.send message data] s' := by
  unfold QueueState.sendOn at h
  split at h
  · obtain ⟨sent, hadd, h⟩ := Option.bind_eq_some_iff.mp h
    rw [← Option.some.inj h]
    refine ⟨rfl, rfl, rfl, fun hc hstatistics => ?_⟩
    obtain ⟨hsent, hreceived⟩ := hc hstatistics
    rw [build.add_eq_some hadd, hsent, hreceived]
    simp [QueueState.bytesSent, QueueState.bytesReceived, Action.bytesSent, Action.bytesReceived,
      BitVec.ofNat_add]
  · rename_i hoff
    rw [← Option.some.inj h]
    exact ⟨rfl, rfl, rfl, fun _ hon => absurd hon hoff⟩

theorem does_receiveOn {s s' : QueueState δ} {message : Message} {data : δ}
    (h : s.receiveOn build message data = some s') : Does build s [.receive message data] s' := by
  unfold QueueState.receiveOn at h
  split at h
  · obtain ⟨received, hadd, h⟩ := Option.bind_eq_some_iff.mp h
    rw [← Option.some.inj h]
    refine ⟨rfl, rfl, rfl, fun hc hstatistics => ?_⟩
    obtain ⟨hsent, hreceived⟩ := hc hstatistics
    rw [build.add_eq_some hadd, hsent, hreceived]
    simp [QueueState.bytesSent, QueueState.bytesReceived, Action.bytesSent, Action.bytesReceived,
      BitVec.ofNat_add]
  · rename_i hoff
    rw [← Option.some.inj h]
    exact ⟨rfl, rfl, rfl, fun _ hon => absurd hon hoff⟩

/-! ## What a queue has done -/

/-- After the collectives `is`, the queue of party `p` has counted them, and has sent and requested
exactly their transfers. -/
structure Executed (build : QueueBuild) (hash : List Byte → Hash) (p : PartyID)
    (is : List Collective) (s : QueueState δ) : Prop where
  id : s.id = p
  counters : ∀ k, s.counters.lookup k =
    if occurrences (Collective.key hash) k is = 0 then none
    else some (BitVec.ofNat 64 (occurrences (Collective.key hash) k is))
  sent : ∀ q, s.sentTo q = Collective.transfers hash p q is
  requested : ∀ q, s.requestedFrom q = Collective.transfers hash q p is
  counted : s.Counted build

theorem executed_initial (p : PartyID) :
    Executed build hash p [] (QueueState.initial δ p) := by
  refine ⟨rfl, fun k => rfl, fun q => rfl, fun q => rfl, fun _ => ⟨rfl, rfl⟩⟩

/-- What is not a transfer changes nothing. -/
theorem Executed.does {p : PartyID} {is : List Collective} {s s' : QueueState δ}
    {actions : List (Action δ)} (h : Executed build hash p is s) (hdoes : Does build s actions s')
    (hactions : actions = [] ∨ actions = [.ensureConsistency]) :
    Executed build hash p is s' := by
  have hquiet (q : PartyID) : actions.flatMap (Action.sentTo q) = [] ∧
      actions.flatMap (Action.requestedFrom q) = [] := by
    rcases hactions with rfl | rfl <;> exact ⟨rfl, rfl⟩
  refine ⟨hdoes.id.trans h.id, fun k => by rw [hdoes.counters, h.counters], fun q => ?_,
    fun q => ?_, hdoes.counted h.counted⟩
  · rw [QueueState.sentTo, hdoes.log, List.flatMap_append, (hquiet q).1, List.append_nil]
    exact h.sent q
  · rw [QueueState.requestedFrom, hdoes.log, List.flatMap_append, (hquiet q).2, List.append_nil]
    exact h.requested q

/-- The ID of the next message, and the counter after it. -/
theorem updateCounter_eq_some {s s' : QueueState δ} {kind : MessageKind}
    {datatype : MessageDatatype}
    {key : Hash} {id : MessageID} (h : s.updateCounter build kind datatype key = some (id, s')) :
    let counter := (s.counters.lookup (kind, datatype, key)).elim 1 fun c => c + 1
    id = idOfKey key + counter ∧
      s' = { s with counters := s.counters.insert (kind, datatype, key) counter } := by
  unfold QueueState.updateCounter at h
  obtain ⟨counter, hcounter, h⟩ := Option.bind_eq_some_iff.mp h
  obtain ⟨id', hid, h⟩ := Option.bind_eq_some_iff.mp h
  obtain ⟨rfl, rfl⟩ := Prod.mk.inj (Option.some.inj h)
  have hvalue : counter = (s.counters.lookup (kind, datatype, key)).elim 1 fun c => c + 1 := by
    unfold QueueState.nextCounter at hcounter
    cases hlookup : s.counters.lookup (kind, datatype, key) with
    | none =>
        rw [hlookup] at hcounter
        exact (Option.some.inj hcounter).symm
    | some c =>
        rw [hlookup] at hcounter
        exact build.add_eq_some hcounter
  rw [← hvalue]
  exact ⟨build.add_eq_some hid, rfl⟩

/-- **One collective.** Its ID is the one of its number, and its actions add its transfers. -/
theorem executed_concat {p : PartyID} {is : List Collective} {i : Collective}
    {s s₁ s' : QueueState δ} {id : MessageID} {actions : List (Action δ)}
    (h : Executed build hash p is s)
    (hid : s.updateCounter build i.kind i.datatype (hash i.digest) = some (id, s₁))
    (hdoes : Does build s₁ actions s')
    (hsent : ∀ q, actions.flatMap (Action.sentTo q) =
      if i.sends p q then [i.message p q id] else [])
    (hrequested : ∀ q, actions.flatMap (Action.requestedFrom q) =
      if i.sends q p then [i.message q p id] else []) :
    Executed build hash p (is ++ [i]) s' := by
  obtain ⟨hvalue, rfl⟩ := updateCounter_eq_some hid
  have hcount := h.counters (i.key hash)
  -- the counter of the key is one more than the calls with it so far
  have hcounter : (s.counters.lookup (i.key hash)).elim (1 : MessageID) (fun c => c + 1) =
      BitVec.ofNat 64 (occurrences (Collective.key hash) (i.key hash) is + 1) := by
    rw [hcount]
    split
    · rename_i hzero
      rw [hzero]
      rfl
    · rw [Option.elim_some, BitVec.ofNat_add]
      rfl
  have hid' : id = i.messageID hash (occurrences (Collective.key hash) (i.key hash) is) := by
    rw [hvalue, Collective.messageID, ← hcounter]
    rfl
  refine ⟨hdoes.id.trans h.id, fun k => ?_, fun q => ?_, fun q => ?_, hdoes.counted ?_⟩
  · rw [hdoes.counters]
    show (AList.insert (i.key hash) _ s.counters).lookup k = _
    rw [Map.lookup_insert, occurrences_concat]
    by_cases hk : k = i.key hash
    · subst hk
      rw [if_pos rfl, if_pos rfl, if_neg (Nat.succ_ne_zero _)]
      exact congrArg some hcounter
    · rw [if_neg hk, if_neg (Ne.symm hk), h.counters]
      rfl
  · rw [QueueState.sentTo, hdoes.log, List.flatMap_append, hsent, Collective.transfers_concat,
      ← hid']
    exact congrArg (· ++ _) (h.sent q)
  · rw [QueueState.requestedFrom, hdoes.log, List.flatMap_append, hrequested,
      Collective.transfers_concat, ← hid']
    exact congrArg (· ++ _) (h.requested q)
  · exact h.counted

/-! ## The four operations -/

theorem updateCounter_id {s s₁ : QueueState δ} {kind : MessageKind} {datatype : MessageDatatype}
    {key : Hash} {id : MessageID} (h : s.updateCounter build kind datatype key = some (id, s₁)) :
    s₁.id = s.id := by
  rw [(updateCounter_eq_some h).2]

/-- A check is no transfer. -/
theorem transfers_check (q : PartyID) (check : ConsistencyCheck) :
    (if build.collectiveConsistency then [Action.checkConsistency check] else [] :
        List (Action δ)).flatMap (Action.sentTo q) = [] ∧
      (if build.collectiveConsistency then [Action.checkConsistency check] else [] :
        List (Action δ)).flatMap (Action.requestedFrom q) = [] := by
  split <;> exact ⟨rfl, rfl⟩

/-- Sending one message to each other party of a communicator. -/
theorem transfers_sendAll {μ : Type} [BaseMessageID μ] (m : μ) (p : PartyID) (c : Communicator)
    (id : MessageID) (data : δ) (q : PartyID) :
    (((c.toList.filter fun party => decide (party ≠ p)).flatMap fun r =>
        [Action.send (toMessage m p r id) data]).flatMap (Action.sentTo q) =
      if p ≠ q ∧ q ∈ c then [toMessage m p q id] else []) ∧
    ((c.toList.filter fun party => decide (party ≠ p)).flatMap fun r =>
        [Action.send (toMessage m p r id) data]).flatMap (Action.requestedFrom q) = [] := by
  rw [List.flatMap_assoc, List.flatMap_assoc]
  constructor
  · rw [flatMap_filter, flatMap_of_nodup c.nodup q]
    · by_cases hp : p = q
      · simp [hp]
      · simp [hp, Ne.symm hp, Action.sentTo, toMessage, Communicator.mem_def]
    · intro r hr
      simp [Action.sentTo, toMessage, hr]
  · exact List.flatMap_eq_nil_iff.mpr fun r _ => rfl

theorem executed_broadcastOne {p : PartyID} {is : List Collective} {s s' : QueueState δ}
    {communicator : Communicator} {e : Broadcast × δ} (h : Executed build hash p is s)
    (hone : s.broadcastOne build hash communicator e = some s')
    (hplaced : e.1.sender = p ∨ p ∈ communicator) :
    Executed build hash p (is ++ [.ofBroadcast communicator e.1]) s' := by
  obtain ⟨m, data⟩ := e
  obtain ⟨⟨id, s₁⟩, hid, hrest⟩ := Option.bind_eq_some_iff.mp hone
  have hp : s₁.id = p := (updateCounter_id hid).trans h.id
  dsimp only at hrest hplaced
  rw [hp] at hrest
  -- the sender sends to all others; everybody else requests a check and receives
  split at hrest
  · rename_i hsender
    have hdoes := does_foldlM (fun r => [.send (toMessage m p r id) data])
      (fun s s' r _ hr => does_sendOn hr) hp hrest
    refine executed_concat h hid hdoes (fun q => ?_) fun q => ?_
    · rw [(transfers_sendAll m p communicator id data q).1]
      refine if_congr ?_ rfl rfl
      simp [Collective.sends, Collective.ofBroadcast, hsender]
    · rw [(transfers_sendAll m p communicator id data q).2, if_neg]
      simp only [Collective.sends, Collective.ofBroadcast, hsender]
      grind
  · rename_i hsender
    have hdoes := (does_checkConsistency s₁ _).trans (does_receiveOn hrest)
    refine executed_concat h hid hdoes (fun q => ?_) fun q => ?_
    · rw [List.flatMap_append, (transfers_check q _).1, if_neg]
      · rfl
      · simp [Collective.sends, Collective.ofBroadcast, hsender]
    · rw [List.flatMap_append, (transfers_check q _).2, List.nil_append]
      have hmember : p ∈ communicator := hplaced.resolve_left hsender
      simp only [Collective.sends, Collective.ofBroadcast, hmember]
      simp only [List.flatMap_cons, List.flatMap_nil, Action.requestedFrom, toMessage]
      by_cases hq : m.sender = q
      · subst hq
        simp [hsender]
        rfl
      · simp [hq]

/-- Requesting one message from each other party of a communicator. -/
theorem transfers_receiveAll {μ : Type} [BaseMessageID μ] (m : μ) (p : PartyID) (c : Communicator)
    (id : MessageID) {data : List δ} (hlen : c.toList.length = data.length) (q : PartyID) :
    ((((c.toList.zip data).filter fun e => decide (e.1 ≠ p)).flatMap fun e =>
        [Action.receive (toMessage m e.1 p id) e.2]).flatMap (Action.requestedFrom q) =
      if q ≠ p ∧ q ∈ c then [toMessage m q p id] else []) ∧
    (((c.toList.zip data).filter fun e => decide (e.1 ≠ p)).flatMap fun e =>
        [Action.receive (toMessage m e.1 p id) e.2]).flatMap (Action.sentTo q) = [] := by
  rw [List.flatMap_assoc, List.flatMap_assoc]
  constructor
  · rw [flatMap_filter]
    let f : PartyID → List Message := fun r =>
      if decide (r ≠ p) then (if r = q then [toMessage m r p id] else []) ++ [] else []
    show (c.toList.zip data).flatMap (fun e => f e.1) = _
    rw [flatMap_zip hlen, flatMap_of_nodup c.nodup q]
    · by_cases hp : q = p
      · simp [f, hp]
      · simp [f, hp, Communicator.mem_def]
    · intro r hr
      simp [f, hr]
  · exact List.flatMap_eq_nil_iff.mpr fun r _ => rfl

theorem executed_gatherOne {p : PartyID} {is : List Collective} {s s' : QueueState δ}
    {communicator : Communicator} {e : Gather × List δ} (h : Executed build hash p is s)
    (hone : s.gatherOne build hash communicator e = some s')
    (hplaced : e.1.receiver = p ∨ p ∈ communicator) :
    Executed build hash p (is ++ [.ofGather communicator e.1]) s' := by
  obtain ⟨m, data⟩ := e
  obtain ⟨⟨id, s₁⟩, hid, hrest⟩ := Option.bind_eq_some_iff.mp hone
  have hp : s₁.id = p := (updateCounter_id hid).trans h.id
  dsimp only at hrest hplaced
  rw [hp] at hrest
  -- the receiver receives from all others; everybody else sends
  split at hrest
  · rename_i hreceiver
    obtain ⟨_, hguard, hrest⟩ := Option.bind_eq_some_iff.mp hrest
    have hlen : communicator.toList.length = data.length := (Option.guard_eq_some' _).mp hguard
    have hdoes := does_foldlM (fun e : PartyID × δ => [.receive (toMessage m e.1 p id) e.2])
      (fun s s' e _ hr => does_receiveOn hr) hp hrest
    refine executed_concat h hid hdoes (fun q => ?_) fun q => ?_
    · rw [(transfers_receiveAll m p communicator id hlen q).2, if_neg]
      simp only [Collective.sends, Collective.ofGather, hreceiver]
      grind
    · rw [(transfers_receiveAll m p communicator id hlen q).1]
      refine if_congr ?_ rfl rfl
      simp [Collective.sends, Collective.ofGather, hreceiver]
  · rename_i hreceiver
    have hmember : p ∈ communicator := hplaced.resolve_left hreceiver
    split at hrest
    · rename_i d
      refine executed_concat h hid (does_sendOn hrest) (fun q => ?_) fun q => ?_
      · simp only [Collective.sends, Collective.ofGather, hmember, List.flatMap_cons,
          List.flatMap_nil, Action.sentTo, toMessage]
        by_cases hq : m.receiver = q
        · subst hq
          simp [Ne.symm hreceiver]
          rfl
        · simp [hq]
      · rw [if_neg]
        · rfl
        · simp [Collective.sends, Collective.ofGather, hreceiver]
    · cases hrest

theorem needsCheck_allGather : (kind AllGather).needsCheck = true := rfl

/-- What `extended_multi_all_gather` does for one sender. -/
def allGatherActions (build : QueueBuild) (m : AllGather) (receivers : Communicator)
    (id : MessageID) (p : PartyID) (e : PartyID × δ) : List (Action δ) :=
  if e.1 = p then
    (receivers.toList.filter fun party => decide (party ≠ p)).flatMap fun r =>
      [.send (toMessage m p r id) e.2]
  else
    let others := receivers.filter fun party => decide (party ≠ p ∧ party ≠ e.1)
    (if build.collectiveConsistency then
      [.checkConsistency (toConsistencyCheck m needsCheck_allGather e.1 others id)] else []) ++
      [.receive (toMessage m e.1 p id) e.2]

theorem does_allGatherFrom {p : PartyID} {m : AllGather} {receivers : Communicator}
    {id : MessageID} {s s' : QueueState δ} {e : PartyID × δ} (hp : s.id = p)
    (h : s.allGatherFrom build m receivers id e = some s') :
    Does build s (allGatherActions build m receivers id p e) s' := by
  obtain ⟨sender, data⟩ := e
  unfold QueueState.allGatherFrom at h
  dsimp only at h
  rw [hp] at h
  unfold allGatherActions
  dsimp only
  by_cases hsender : sender = p
  · subst hsender
    rw [if_pos rfl] at h ⊢
    exact does_foldlM (fun r => [.send (toMessage m sender r id) data])
      (fun s s' r _ hr => does_sendOn hr) hp h
  · rw [if_neg hsender] at h ⊢
    exact (does_checkConsistency s _).trans (does_receiveOn h)

theorem transfers_allGatherActions (m : AllGather) (receivers : Communicator) (id : MessageID)
    (p q : PartyID) (e : PartyID × δ) :
    (allGatherActions build m receivers id p e).flatMap (Action.sentTo q) =
        (if e.1 = p then (if p ≠ q ∧ q ∈ receivers then [toMessage m p q id] else []) else []) ∧
      (allGatherActions build m receivers id p e).flatMap (Action.requestedFrom q) =
        if e.1 = q then (if q ≠ p then [toMessage m q p id] else []) else [] := by
  obtain ⟨sender, data⟩ := e
  unfold allGatherActions
  by_cases hsender : sender = p
  · subst hsender
    rw [if_pos rfl, if_pos rfl, (transfers_sendAll m sender receivers id data q).1,
      (transfers_sendAll m sender receivers id data q).2]
    refine ⟨rfl, ?_⟩
    by_cases hq : sender = q
    · simp [hq]
    · simp [hq]
  · rw [if_neg hsender, if_neg hsender, List.flatMap_append, List.flatMap_append,
      (transfers_check q _).1, (transfers_check q _).2]
    refine ⟨rfl, ?_⟩
    simp only [List.flatMap_cons, List.flatMap_nil, Action.requestedFrom, List.nil_append,
      List.append_nil, toMessage]
    by_cases hq : sender = q
    · subst hq
      simp [hsender]
    · simp [hq]

theorem executed_allGatherOne {p : PartyID} {is : List Collective} {s s' : QueueState δ}
    {senders receivers : Communicator} {e : AllGather × List δ} (h : Executed build hash p is s)
    (hone : s.allGatherOne build hash senders receivers e = some s')
    (hlen : senders.toList.length = e.2.length) (hmember : p ∈ receivers) :
    Executed build hash p (is ++ [.ofAllGather senders receivers e.1]) s' := by
  obtain ⟨m, data⟩ := e
  obtain ⟨⟨id, s₁⟩, hid, hrest⟩ := Option.bind_eq_some_iff.mp hone
  have hp : s₁.id = p := (updateCounter_id hid).trans h.id
  have hdoes := does_foldlM (allGatherActions build m receivers id p)
    (fun s s' e hs he => does_allGatherFrom hs he) hp hrest
  refine executed_concat h hid hdoes (fun q => ?_) fun q => ?_
  · rw [List.flatMap_assoc,
      List.flatMap_congr fun e _ => (transfers_allGatherActions m receivers id p q e).1,
      flatMap_zip hlen fun r =>
        if r = p then (if p ≠ q ∧ q ∈ receivers then [toMessage m p q id] else []) else [],
      flatMap_of_nodup senders.nodup p fun r hr => if_neg hr, if_pos rfl, ← ite_and]
    refine if_congr ?_ rfl rfl
    simp [Collective.sends, Collective.ofAllGather, Communicator.mem_def]
    grind
  · rw [List.flatMap_assoc,
      List.flatMap_congr fun e _ => (transfers_allGatherActions m receivers id p q e).2,
      flatMap_zip hlen fun r => if r = q then (if q ≠ p then [toMessage m q p id] else []) else [],
      flatMap_of_nodup senders.nodup q fun r hr => if_neg hr, if_pos rfl, ← ite_and]
    refine if_congr ?_ rfl rfl
    simp [Collective.sends, Collective.ofAllGather, Communicator.mem_def, hmember]
    grind

/-- What `multi_all_to_all` does for one party. -/
def allToAllActions (m : AllToAll) (id : MessageID) (p : PartyID) (e : PartyID × δ × δ) :
    List (Action δ) :=
  if e.1 ≠ p then
    [.send (toMessage m p e.1 id) e.2.1, .receive (toMessage m e.1 p id) e.2.2]
  else []

theorem does_allToAllWith {p : PartyID} {m : AllToAll} {id : MessageID} {s s' : QueueState δ}
    {e : PartyID × δ × δ} (hp : s.id = p) (h : s.allToAllWith build m id e = some s') :
    Does build s (allToAllActions m id p e) s' := by
  obtain ⟨party, sendData, receiveData⟩ := e
  unfold QueueState.allToAllWith at h
  dsimp only at h
  rw [hp] at h
  unfold allToAllActions
  dsimp only
  split at h
  · rename_i hother
    rw [if_pos hother]
    obtain ⟨s₁, hsend, hreceive⟩ := Option.bind_eq_some_iff.mp h
    have hdoes := does_sendOn hsend
    rw [hdoes.id, hp] at hreceive
    exact hdoes.trans (does_receiveOn hreceive)
  · rename_i hsame
    rw [if_neg hsame, ← Option.some.inj h]
    exact Does.refl s

theorem transfers_allToAllActions (m : AllToAll) (id : MessageID) (p q : PartyID)
    (e : PartyID × δ × δ) :
    (allToAllActions m id p e).flatMap (Action.sentTo q) =
        (if e.1 = q then (if p ≠ q then [toMessage m p q id] else []) else []) ∧
      (allToAllActions m id p e).flatMap (Action.requestedFrom q) =
        if e.1 = q then (if q ≠ p then [toMessage m q p id] else []) else [] := by
  obtain ⟨party, sendData, receiveData⟩ := e
  unfold allToAllActions
  by_cases hq : party = q
  · subst hq
    by_cases hp : party = p
    · subst hp
      simp
    · simp [hp, Ne.symm hp, Action.sentTo, Action.requestedFrom, toMessage]
  · by_cases hp : party = p
    · subst hp
      simp [hq]
    · simp [hp, hq, Action.sentTo, Action.requestedFrom, toMessage]

theorem executed_allToAllOne {p : PartyID} {is : List Collective} {s s' : QueueState δ}
    {communicator : Communicator} {e : AllToAll × List δ × List δ}
    (h : Executed build hash p is s)
    (hone : s.allToAllOne build hash communicator e = some s')
    (hsend : communicator.toList.length = e.2.1.length)
    (hreceive : communicator.toList.length = e.2.2.length) (hmember : p ∈ communicator) :
    Executed build hash p (is ++ [.ofAllToAll communicator e.1]) s' := by
  obtain ⟨m, sendData, receiveData⟩ := e
  obtain ⟨⟨id, s₁⟩, hid, hrest⟩ := Option.bind_eq_some_iff.mp hone
  have hp : s₁.id = p := (updateCounter_id hid).trans h.id
  have hdoes := does_foldlM (allToAllActions m id p)
    (fun s s' e hs he => does_allToAllWith hs he) hp hrest
  -- rows and parties have one length, so each party meets its own entry once
  have hlen : communicator.toList.length = (sendData.zip receiveData).length := by
    rw [List.length_zip, ← hsend, ← hreceive, Nat.min_self]
  refine executed_concat h hid hdoes (fun q => ?_) fun q => ?_
  · rw [List.flatMap_assoc,
      List.flatMap_congr fun e _ => (transfers_allToAllActions m id p q e).1,
      flatMap_zip hlen fun r => if r = q then (if p ≠ q then [toMessage m p q id] else []) else [],
      flatMap_of_nodup communicator.nodup q fun r hr => if_neg hr, if_pos rfl, ← ite_and]
    refine if_congr ?_ rfl rfl
    simp [Collective.sends, Collective.ofAllToAll, Communicator.mem_def] at hmember ⊢
    grind
  · rw [List.flatMap_assoc,
      List.flatMap_congr fun e _ => (transfers_allToAllActions m id p q e).2,
      flatMap_zip hlen fun r => if r = q then (if q ≠ p then [toMessage m q p id] else []) else [],
      flatMap_of_nodup communicator.nodup q fun r hr => if_neg hr, if_pos rfl, ← ite_and]
    refine if_congr ?_ rfl rfl
    simp [Collective.sends, Collective.ofAllToAll, Communicator.mem_def] at hmember ⊢
    grind

/-! ## Calls -/

/-- What an operation has done when it returns. -/
theorem multiBroadcast_eq_some {messages : List Broadcast} {communicator : Communicator}
    {data : List δ} {ensured : Bool} {s s' : QueueState δ}
    (h : s.multiBroadcast build hash messages communicator data ensured = some s') :
    messages.length = data.length ∧ ∃ s₁ s₂,
      s.ensureConsistency build
        (messages.any fun message => decide (message.sender = s.id)) ensured = some s₁ ∧
      s₁.nextRound build = some s₂ ∧
      (messages.zip data).foldlM (QueueState.broadcastOne build hash communicator) s₂ =
        some s' := by
  obtain ⟨_, hlength, h⟩ := Option.bind_eq_some_iff.mp h
  obtain ⟨s₁, hensure, h⟩ := Option.bind_eq_some_iff.mp h
  obtain ⟨s₂, hround, hloop⟩ := Option.bind_eq_some_iff.mp h
  exact ⟨(Option.guard_eq_some' _).mp hlength, s₁, s₂, hensure, hround, hloop⟩

theorem multiGather_eq_some {messages : List Gather} {communicator : Communicator}
    {data : Vec2d δ} {ensured : Bool} {s s' : QueueState δ}
    (h : s.multiGather build hash messages communicator data ensured = some s') :
    ∃ rows s₁ s₂, messages.length = rows.length ∧
      s.ensureConsistency build
        (messages.any fun message => decide (message.receiver ≠ s.id)) ensured = some s₁ ∧
      s₁.nextRound build = some s₂ ∧
      (messages.zip rows).foldlM (QueueState.gatherOne build hash communicator) s₂ =
        some s' := by
  obtain ⟨_, hlength, h⟩ := Option.bind_eq_some_iff.mp h
  obtain ⟨s₁, hensure, h⟩ := Option.bind_eq_some_iff.mp h
  obtain ⟨s₂, hround, h⟩ := Option.bind_eq_some_iff.mp h
  obtain ⟨rows, hrows, hloop⟩ := Option.bind_eq_some_iff.mp h
  have hlength := (Option.guard_eq_some' _).mp hlength
  exact ⟨rows, s₁, s₂, hlength.trans (Vec2d.rows_length hrows).1.symm, hensure, hround, hloop⟩

theorem extendedMultiAllGather_eq_some {messages : List AllGather}
    {senders receivers : Communicator} {data : Vec2d δ} {ensured : Bool} {s s' : QueueState δ}
    (h : s.extendedMultiAllGather build hash messages senders receivers data ensured = some s') :
    s.id ∈ receivers ∧ ∃ rows s₁ s₂, messages.length = rows.length ∧
      (∀ row ∈ rows, senders.toList.length = row.length) ∧
      s.ensureConsistency build (decide (s.id ∈ senders)) ensured = some s₁ ∧
      s₁.nextRound build = some s₂ ∧
      (messages.zip rows).foldlM (QueueState.allGatherOne build hash senders receivers) s₂ =
        some s' := by
  obtain ⟨_, hinner, h⟩ := Option.bind_eq_some_iff.mp h
  obtain ⟨_, houter, h⟩ := Option.bind_eq_some_iff.mp h
  obtain ⟨_, -, h⟩ := Option.bind_eq_some_iff.mp h
  obtain ⟨_, hmember, h⟩ := Option.bind_eq_some_iff.mp h
  obtain ⟨s₁, hensure, h⟩ := Option.bind_eq_some_iff.mp h
  obtain ⟨s₂, hround, h⟩ := Option.bind_eq_some_iff.mp h
  obtain ⟨rows, hrows, hloop⟩ := Option.bind_eq_some_iff.mp h
  have hinner := (Option.guard_eq_some' _).mp hinner
  have houter := (Option.guard_eq_some' _).mp houter
  obtain ⟨hcount, hwidth⟩ := Vec2d.rows_length hrows
  exact ⟨(Option.guard_eq_some' _).mp hmember, rows, s₁, s₂, houter.trans hcount.symm,
    fun row hrow => hinner.trans (hwidth row hrow).symm, hensure, hround, hloop⟩

theorem multiAllToAll_eq_some {messages : List AllToAll} {communicator : Communicator}
    {sendData receiveData : Vec2d δ} {ensured : Bool} {s s' : QueueState δ}
    (h : s.multiAllToAll build hash messages communicator sendData receiveData ensured =
      some s') :
    s.id ∈ communicator ∧ ∃ (sendRows receiveRows : List (List δ)) (s₁ s₂ : QueueState δ),
      messages.length = sendRows.length ∧ messages.length = receiveRows.length ∧
      (∀ row ∈ sendRows, communicator.toList.length = row.length) ∧
      (∀ row ∈ receiveRows, communicator.toList.length = row.length) ∧
      s.ensureConsistency build true ensured = some s₁ ∧ s₁.nextRound build = some s₂ ∧
      (messages.zip (sendRows.zip receiveRows)).foldlM
        (QueueState.allToAllOne build hash communicator) s₂ = some s' := by
  obtain ⟨_, hsendInner, h⟩ := Option.bind_eq_some_iff.mp h
  obtain ⟨_, hreceiveInner, h⟩ := Option.bind_eq_some_iff.mp h
  obtain ⟨_, hsendOuter, h⟩ := Option.bind_eq_some_iff.mp h
  obtain ⟨_, hreceiveOuter, h⟩ := Option.bind_eq_some_iff.mp h
  obtain ⟨_, hmember, h⟩ := Option.bind_eq_some_iff.mp h
  obtain ⟨s₁, hensure, h⟩ := Option.bind_eq_some_iff.mp h
  obtain ⟨s₂, hround, h⟩ := Option.bind_eq_some_iff.mp h
  obtain ⟨sendRows, hsendRows, h⟩ := Option.bind_eq_some_iff.mp h
  obtain ⟨receiveRows, hreceiveRows, hloop⟩ := Option.bind_eq_some_iff.mp h
  have hsendInner := (Option.guard_eq_some' _).mp hsendInner
  have hreceiveInner := (Option.guard_eq_some' _).mp hreceiveInner
  have hsendOuter := (Option.guard_eq_some' _).mp hsendOuter
  have hreceiveOuter := (Option.guard_eq_some' _).mp hreceiveOuter
  obtain ⟨hsendCount, hsendWidth⟩ := Vec2d.rows_length hsendRows
  obtain ⟨hreceiveCount, hreceiveWidth⟩ := Vec2d.rows_length hreceiveRows
  exact ⟨(Option.guard_eq_some' _).mp hmember, sendRows, receiveRows, s₁, s₂,
    hsendOuter.trans hsendCount.symm, hreceiveOuter.trans hreceiveCount.symm,
    fun row hrow => hsendInner.trans (hsendWidth row hrow).symm,
    fun row hrow => hreceiveInner.trans (hreceiveWidth row hrow).symm, hensure, hround, hloop⟩

/-- A loop whose body executes one collective for each element. -/
theorem executed_foldlM {α : Type} {p : PartyID} {f : QueueState δ → α → Option (QueueState δ)}
    (collective : α → Collective) {l : List α}
    (hstep : ∀ a ∈ l, ∀ is s s', Executed build hash p is s → f s a = some s' →
      Executed build hash p (is ++ [collective a]) s')
    {is : List Collective} {s s' : QueueState δ} (h : Executed build hash p is s)
    (hloop : l.foldlM f s = some s') :
    Executed build hash p (is ++ l.map collective) s' := by
  induction l generalizing is s with
  | nil =>
      obtain rfl : s = s' := Option.some.inj hloop
      rw [List.map_nil, List.append_nil]
      exact h
  | cons a l ih =>
      rw [List.foldlM_cons] at hloop
      obtain ⟨s₁, hfirst, hrest⟩ := Option.bind_eq_some_iff.mp hloop
      have hone := hstep a List.mem_cons_self is s s₁ h hfirst
      have hall := ih (fun b hb => hstep b (List.mem_cons_of_mem _ hb)) hone hrest
      rw [List.append_assoc] at hall
      exact hall

/-- The collectives of an operation, in order. -/
def Operation.collectives : Operation → List Collective
  | .broadcast messages communicator => messages.map (.ofBroadcast communicator)
  | .gather messages communicator => messages.map (.ofGather communicator)
  | .allGather messages senders receivers => messages.map (.ofAllGather senders receivers)
  | .allToAll messages communicator => messages.map (.ofAllToAll communicator)

/-- `p` takes part in an operation. -/
def Operation.party (o : Operation) (p : PartyID) : Bool := o.collectives.any fun i => i.party p

theorem map_fst_zip {α β : Type} {l : List α} {m : List β} {γ : Type} (f : α → γ)
    (h : l.length = m.length) : (l.zip m).map (fun e => f e.1) = l.map f := by
  have hfst : (l.zip m).map Prod.fst = l := List.map_fst_zip (Nat.le_of_eq h)
  rw [← Function.comp_def f Prod.fst, ← List.map_map, hfst]

theorem party_ofBroadcast {communicator : Communicator} {m : Broadcast} {p : PartyID}
    (h : (Collective.ofBroadcast communicator m).party p = true) :
    m.sender = p ∨ p ∈ communicator := by
  simp only [Collective.party, Collective.parties, Collective.ofBroadcast, List.mem_append,
    or_self, List.mem_singleton, decide_eq_true_eq] at h
  exact h.elim .inr fun h => .inl h.symm

theorem party_ofGather {communicator : Communicator} {m : Gather} {p : PartyID}
    (h : (Collective.ofGather communicator m).party p = true) :
    m.receiver = p ∨ p ∈ communicator := by
  simp only [Collective.party, Collective.parties, Collective.ofGather, List.mem_append,
    or_self, List.mem_singleton, decide_eq_true_eq] at h
  exact h.elim .inr fun h => .inl h.symm

theorem Executed.start {p : PartyID} {is : List Collective} {s s₁ s₂ : QueueState δ}
    {needed ensured : Bool} (h : Executed build hash p is s)
    (hensure : s.ensureConsistency build needed ensured = some s₁)
    (hround : s₁.nextRound build = some s₂) : Executed build hash p is s₂ := by
  obtain ⟨actions, hdoes, hactions⟩ := does_ensureConsistency hensure
  exact (h.does hdoes hactions).does (does_nextRound hround) (.inl rfl)

theorem executed_call {p : PartyID} {is : List Collective} {s s' : QueueState δ}
    {e : Call δ × Bool} (h : Executed build hash p is s)
    (hcall : s.call build hash e = some s')
    (hparty : ∀ i ∈ e.1.operation.collectives, i.party p = true) :
    Executed build hash p (is ++ e.1.operation.collectives) s' := by
  obtain ⟨call, ensured⟩ := e
  -- each operation checks its lengths, starts a round and goes through its messages
  cases call with
  | multiBroadcast messages communicator data =>
      obtain ⟨hlen, s₁, s₂, hensure, hround, hloop⟩ := multiBroadcast_eq_some hcall
      have hall := executed_foldlM (fun e => .ofBroadcast communicator e.1)
        (fun e he is s s' hs hone => executed_broadcastOne hs hone
          (party_ofBroadcast (hparty _ (List.mem_map_of_mem (List.of_mem_zip he).1))))
        (h.start hensure hround) hloop
      rwa [map_fst_zip _ hlen] at hall
  | multiGather messages communicator data =>
      obtain ⟨rows, s₁, s₂, hlen, hensure, hround, hloop⟩ := multiGather_eq_some hcall
      have hall := executed_foldlM (fun e => .ofGather communicator e.1)
        (fun e he is s s' hs hone => executed_gatherOne hs hone
          (party_ofGather (hparty _ (List.mem_map_of_mem (List.of_mem_zip he).1))))
        (h.start hensure hround) hloop
      rwa [map_fst_zip _ hlen] at hall
  | extendedMultiAllGather messages senders receivers data =>
      obtain ⟨hmember, rows, s₁, s₂, hlen, hwidth, hensure, hround, hloop⟩ :=
        extendedMultiAllGather_eq_some hcall
      rw [h.id] at hmember
      have hall := executed_foldlM (fun e => .ofAllGather senders receivers e.1)
        (fun e he is s s' hs hone => executed_allGatherOne hs hone
          (hwidth e.2 (List.of_mem_zip he).2) hmember)
        (h.start hensure hround) hloop
      rwa [map_fst_zip _ hlen] at hall
  | multiAllToAll messages communicator sendData receiveData =>
      obtain ⟨hmember, sendRows, receiveRows, s₁, s₂, hsend, hreceive, hsendWidth,
        hreceiveWidth, hensure, hround, hloop⟩ := multiAllToAll_eq_some hcall
      rw [h.id] at hmember
      have hall := executed_foldlM (fun e => .ofAllToAll communicator e.1)
        (fun e he is s s' hs hone => executed_allToAllOne hs hone
          (hsendWidth _ (List.of_mem_zip (List.of_mem_zip he).2).1)
          (hreceiveWidth _ (List.of_mem_zip (List.of_mem_zip he).2).2) hmember)
        (h.start hensure hround) hloop
      have hcount : messages.length = (sendRows.zip receiveRows).length := by
        rw [List.length_zip, ← hsend, ← hreceive, Nat.min_self]
      rwa [map_fst_zip _ hcount] at hall

/-- The collectives of a party's calls. -/
def collectives (program : List (Call δ × Bool)) : List Collective :=
  program.flatMap fun e => e.1.operation.collectives

theorem executed_calls {p : PartyID} {is : List Collective} {s s' : QueueState δ}
    {program : List (Call δ × Bool)} (h : Executed build hash p is s)
    (hcalls : s.calls build hash program = some s')
    (hparty : ∀ i ∈ collectives program, i.party p = true) :
    Executed build hash p (is ++ collectives program) s' := by
  induction program generalizing is s with
  | nil =>
      obtain rfl : s = s' := Option.some.inj hcalls
      rw [collectives, List.flatMap_nil, List.append_nil]
      exact h
  | cons e program ih =>
      rw [QueueState.calls, List.foldlM_cons] at hcalls
      obtain ⟨s₁, hfirst, hrest⟩ := Option.bind_eq_some_iff.mp hcalls
      have hone := executed_call h hfirst fun i hi => hparty i (List.mem_append_left _ hi)
      have hall := ih hone hrest fun i hi => hparty i (List.mem_append_right _ hi)
      rw [List.append_assoc] at hall
      exact hall

end Hmpc.Net
