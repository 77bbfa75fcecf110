/-
# Hmpc.Net.QueueChecks -- the checks a queue requests

For every message of a checked kind that a queue receives it requests one check, with all other
receivers of that message. The request is made from the operation and the own id, so that two
honest receivers of a message name each other. What a party sends to several receivers in one
collective of a checked kind is the same data for all of them.
-/
import Hmpc.Net.QueueGate
import Hmpc.Net.QueueMatching

namespace Hmpc.Net

open Hmpc.Lib Hmpc.Lib.Loops Hmpc.Lib.Numbering BaseMessageID

variable {δ : Type} {build : QueueBuild} {hash : List Byte → Hash} {p : PartyID}

/-! ## The checks of a collective -/

/-- The check an action requests about the messages of a sender. -/
def Action.checkOf (sender : PartyID) : Action δ → List ConsistencyCheck
  | .checkConsistency check => if check.sender = sender then [check] else []
  | _ => []

def QueueState.checksOf (self : QueueState δ) (sender : PartyID) : List ConsistencyCheck :=
  self.log.flatMap (Action.checkOf sender)

namespace Collective

/-- The receivers of the message from `q` besides `p` and `q` themselves. -/
def others (i : Collective) (q p : PartyID) : Communicator :=
  i.receivers.filter fun party => decide (party ≠ p ∧ party ≠ q)

/-- What `p` requests about the message from `q`. -/
def checks (i : Collective) (q p : PartyID) (id : MessageID) : List ConsistencyCheck :=
  if hkind : i.kind.needsCheck = true then
    [⟨⟨i.kind, hkind⟩, i.datatype, q, i.others q p, id⟩]
  else []

/-- The checks `p` requests about the messages from `q` in a list of collectives. -/
def checksFrom (hash : List Byte → Hash) (q p : PartyID) (is : List Collective) :
    List ConsistencyCheck :=
  (number (key hash) is).flatMap fun e =>
    if e.1.sends q p then e.1.checks q p (e.1.messageID hash e.2) else []

theorem checksFrom_concat (hash : List Byte → Hash) (q p : PartyID) (is : List Collective)
    (i : Collective) : checksFrom hash q p (is ++ [i]) = checksFrom hash q p is ++
      if i.sends q p then
        i.checks q p (i.messageID hash (occurrences (key hash) (i.key hash) is))
      else [] := by
  rw [checksFrom, number_concat, List.flatMap_append]
  simp [checksFrom]

end Collective

/-! ## What one collective adds -/

/-- The ID of the next collective, by what was executed before. -/
theorem Executed.messageID_eq {is : List Collective} {s s₁ : QueueState δ} {i : Collective}
    {id : MessageID} (h : Executed build hash p is s)
    (hid : s.updateCounter build i.kind i.datatype (hash i.digest) = some (id, s₁)) :
    id = i.messageID hash (occurrences (Collective.key hash) (i.key hash) is) := by
  have hcount := h.counters (i.kind, i.datatype, hash i.digest)
  rw [(updateCounter_eq_some hid).1, Collective.messageID, hcount]
  congr 1
  -- the counter of the key is one more than the collectives with it so far
  show Option.elim (if occurrences (Collective.key hash) (i.key hash) is = 0 then none else _) _ _ =
    _
  split
  · rename_i hzero
    rw [hzero]
    rfl
  · rw [Option.elim_some, BitVec.ofNat_add]
    rfl

/-- What a party does for one collective, besides the transfers: it requests the checks of what it
receives, and it sends one data. -/
structure Announces (build : QueueBuild) (p : PartyID) (i : Collective) (id : MessageID)
    (actions : List (Action δ)) : Prop where
  checks : build.collectiveConsistency = true → ∀ q,
    actions.flatMap (Action.checkOf q) = if i.sends q p then i.checks q p id else []
  ids : ∀ m data, .send m data ∈ actions → m.kind = i.kind ∧ m.datatype = i.datatype ∧ m.id = id
  shared : i.kind.needsCheck = true → ∀ m data m' data',
    .send m data ∈ actions → .send m' data' ∈ actions → data = data'

theorem mem_sendAll {μ : Type} [BaseMessageID μ] {m : μ} {id : MessageID} {data data' : δ}
    {c : Communicator} {m' : Message}
    (h : .send m' data' ∈ (c.toList.filter fun party => decide (party ≠ p)).flatMap fun r =>
      [Action.send (toMessage m p r id) data]) :
    data' = data ∧ m'.kind = kind μ ∧ m'.datatype = datatype m ∧ m'.id = id := by
  obtain ⟨r, -, hr⟩ := List.mem_flatMap.mp h
  obtain ⟨rfl, rfl⟩ := Action.send.inj (List.mem_singleton.mp hr)
  exact ⟨rfl, rfl, rfl, rfl⟩

theorem checkOf_sendAll {μ : Type} [BaseMessageID μ] (m : μ) (c : Communicator) (id : MessageID)
    (data : δ) (q : PartyID) :
    ((c.toList.filter fun party => decide (party ≠ p)).flatMap fun r =>
      [Action.send (toMessage m p r id) data]).flatMap (Action.checkOf q) = [] := by
  rw [List.flatMap_assoc]
  exact List.flatMap_eq_nil_iff.mpr fun r _ => rfl

/-- A check and the receive it is about. -/
theorem announces_received {check : ConsistencyCheck} {m : Message} {data : δ} {q : PartyID} :
    ([Action.checkConsistency check] ++ [Action.receive m data]).flatMap (Action.checkOf q) =
      if check.sender = q then [check] else [] := by
  simp [Action.checkOf]

theorem not_send_of_received {check : ConsistencyCheck} {m m' : Message} {data data' : δ}
    (h : .send m' data' ∈ (if build.collectiveConsistency then [Action.checkConsistency check]
      else []) ++ [.receive m data]) : False := by
  rcases List.mem_append.mp h with h | h
  · split at h
    · cases List.mem_singleton.mp h
    · cases h
  · cases List.mem_singleton.mp h

/-- Each collective is one counter update and what is announced with its ID. -/
def AnnouncesOne (build : QueueBuild) (hash : List Byte → Hash) (i : Collective)
    (s s' : QueueState δ) : Prop :=
  ∃ id s₁ actions, s.updateCounter build i.kind i.datatype (hash i.digest) = some (id, s₁) ∧
    Does build s₁ actions s' ∧ Announces build s.id i id actions

theorem announces_broadcastOne {s s' : QueueState δ} {communicator : Communicator}
    {e : Broadcast × δ} (hone : s.broadcastOne build hash communicator e = some s')
    (hplaced : e.1.sender = s.id ∨ s.id ∈ communicator) :
    AnnouncesOne build hash (.ofBroadcast communicator e.1) s s' := by
  obtain ⟨m, data⟩ := e
  obtain ⟨⟨id, s₁⟩, hid, hrest⟩ := Option.bind_eq_some_iff.mp hone
  have hp : s₁.id = s.id := updateCounter_id hid
  dsimp only at hrest hplaced
  rw [hp] at hrest
  split at hrest
  · rename_i hsender
    have hdoes := does_foldlM (fun r => [.send (toMessage m s.id r id) data])
      (fun s s' r _ hr => does_sendOn hr) hp hrest
    refine ⟨id, s₁, _, hid, hdoes, fun _ q => ?_, fun m' data' h => (mem_sendAll h).2,
      fun _ _ _ _ _ h h' => (mem_sendAll h).1.trans (mem_sendAll h').1.symm⟩
    rw [checkOf_sendAll, if_neg]
    simp only [Collective.sends, Collective.ofBroadcast, hsender]
    grind
  · rename_i hsender
    refine ⟨id, s₁, _, hid, (does_checkConsistency s₁ _).trans (does_receiveOn hrest),
      fun hbuild q => ?_, fun m' data' h => (not_send_of_received h).elim,
      fun _ _ _ _ _ h => (not_send_of_received h).elim⟩
    have hmember : s.id ∈ communicator := hplaced.resolve_left hsender
    rw [if_pos hbuild, announces_received]
    by_cases hq : m.sender = q
    · subst hq
      have hsends : (Collective.ofBroadcast communicator m).sends m.sender s.id = true := by
        simp [Collective.sends, Collective.ofBroadcast, hmember, hsender]
      rw [if_pos hsends]
      exact if_pos rfl
    · have hsends : ¬ (Collective.ofBroadcast communicator m).sends q s.id = true := by
        simp [Collective.sends, Collective.ofBroadcast, hq]
      rw [if_neg hsends]
      exact if_neg hq

theorem announces_gatherOne {s s' : QueueState δ} {communicator : Communicator}
    {e : Gather × List δ} (hone : s.gatherOne build hash communicator e = some s') :
    AnnouncesOne build hash (.ofGather communicator e.1) s s' := by
  obtain ⟨m, data⟩ := e
  obtain ⟨⟨id, s₁⟩, hid, hrest⟩ := Option.bind_eq_some_iff.mp hone
  have hp : s₁.id = s.id := updateCounter_id hid
  have hunchecked (q : PartyID) : (if (Collective.ofGather communicator m).sends q s.id then
      (Collective.ofGather communicator m).checks q s.id id else []) = [] := by
    rw [Collective.checks, dif_neg (by simp [Collective.ofGather, MessageKind.needsCheck]),
      ite_self]
  dsimp only at hrest
  rw [hp] at hrest
  split at hrest
  · obtain ⟨_, -, hrest⟩ := Option.bind_eq_some_iff.mp hrest
    have hdoes := does_foldlM (fun e : PartyID × δ => [.receive (toMessage m e.1 s.id id) e.2])
      (fun s s' e _ hr => does_receiveOn hr) hp hrest
    refine ⟨id, s₁, _, hid, hdoes, fun _ q => ?_, fun m' data' h => ?_, fun hkind => ?_⟩
    · rw [hunchecked, List.flatMap_assoc]
      exact List.flatMap_eq_nil_iff.mpr fun r _ => rfl
    · obtain ⟨e, -, he⟩ := List.mem_flatMap.mp h
      cases List.mem_singleton.mp he
    · cases hkind
  · split at hrest
    · refine ⟨id, s₁, _, hid, does_sendOn hrest, fun _ q => (hunchecked q).symm,
        fun m' data' h => ?_, fun hkind => ?_⟩
      · obtain ⟨rfl, rfl⟩ := Action.send.inj (List.mem_singleton.mp h)
        exact ⟨rfl, rfl, rfl⟩
      · cases hkind
    · cases hrest

theorem checkOf_allGatherActions (hbuild : build.collectiveConsistency = true) (m : AllGather)
    (senders receivers : Communicator) (id : MessageID) (q : PartyID) (e : PartyID × δ) :
    (allGatherActions build m receivers id p e).flatMap (Action.checkOf q) =
      if e.1 = q then
        (if q ≠ p then (Collective.ofAllGather senders receivers m).checks q p id else [])
      else [] := by
  obtain ⟨sender, data⟩ := e
  unfold allGatherActions
  by_cases hsender : sender = p
  · subst hsender
    rw [if_pos rfl, checkOf_sendAll]
    by_cases hq : sender = q
    · simp [hq]
    · simp [hq]
  · rw [if_neg hsender]
    dsimp only
    rw [if_pos hbuild, announces_received]
    by_cases hq : sender = q
    · subst hq
      rw [if_pos rfl, if_pos hsender]
      exact if_pos rfl
    · rw [if_neg hq]
      exact if_neg hq

theorem send_of_mem_allGatherActions {m : AllGather} {receivers : Communicator} {id : MessageID}
    {e : PartyID × δ} {m' : Message} {data : δ}
    (h : .send m' data ∈ allGatherActions build m receivers id p e) :
    e.1 = p ∧ data = e.2 ∧ m'.kind = .allGather ∧ m'.datatype = m.datatype ∧ m'.id = id := by
  unfold allGatherActions at h
  split at h
  · rename_i hsender
    exact ⟨hsender, mem_sendAll h⟩
  · exact (not_send_of_received h).elim

theorem announces_allGatherOne {s s' : QueueState δ} {senders receivers : Communicator}
    {e : AllGather × List δ} (hone : s.allGatherOne build hash senders receivers e = some s')
    (hlen : senders.toList.length = e.2.length) (hmember : s.id ∈ receivers) :
    AnnouncesOne build hash (.ofAllGather senders receivers e.1) s s' := by
  obtain ⟨m, data⟩ := e
  obtain ⟨⟨id, s₁⟩, hid, hrest⟩ := Option.bind_eq_some_iff.mp hone
  have hp : s₁.id = s.id := updateCounter_id hid
  have hdoes := does_foldlM (allGatherActions build m receivers id s.id)
    (fun s s' e hs he => does_allGatherFrom hs he) hp hrest
  refine ⟨id, s₁, _, hid, hdoes, fun hbuild q => ?_, fun m' data' h => ?_,
    fun _ m₁ d₁ m₂ d₂ h₁ h₂ => ?_⟩
  · rw [List.flatMap_assoc, List.flatMap_congr fun e _ =>
        checkOf_allGatherActions hbuild m senders receivers id q e,
      flatMap_zip hlen fun r => if r = q then (if q ≠ s.id then
        (Collective.ofAllGather senders receivers m).checks q s.id id else []) else [],
      flatMap_of_nodup senders.nodup q fun r hr => if_neg hr, if_pos rfl, ← ite_and]
    refine if_congr ?_ rfl rfl
    simp [Collective.sends, Collective.ofAllGather, Communicator.mem_def] at hmember ⊢
    grind
  · obtain ⟨e, -, he⟩ := List.mem_flatMap.mp h
    exact (send_of_mem_allGatherActions he).2.2
  · -- the own entry among the senders is the only one that sends
    obtain ⟨e₁, he₁, hsend₁⟩ := List.mem_flatMap.mp h₁
    obtain ⟨e₂, he₂, hsend₂⟩ := List.mem_flatMap.mp h₂
    obtain ⟨hown₁, rfl, -⟩ := send_of_mem_allGatherActions hsend₁
    obtain ⟨hown₂, rfl, -⟩ := send_of_mem_allGatherActions hsend₂
    have hnodup : ((senders.toList.zip data).map Prod.fst).Nodup := by
      rw [List.map_fst_zip (Nat.le_of_eq hlen)]
      exact senders.nodup
    rw [List.inj_on_of_nodup_map hnodup he₁ he₂ (hown₁.trans hown₂.symm)]

theorem announces_allToAllOne {s s' : QueueState δ} {communicator : Communicator}
    {e : AllToAll × List δ × List δ} (hone : s.allToAllOne build hash communicator e = some s') :
    AnnouncesOne build hash (.ofAllToAll communicator e.1) s s' := by
  obtain ⟨m, sendData, receiveData⟩ := e
  obtain ⟨⟨id, s₁⟩, hid, hrest⟩ := Option.bind_eq_some_iff.mp hone
  have hp : s₁.id = s.id := updateCounter_id hid
  have hdoes := does_foldlM (allToAllActions m id s.id)
    (fun s s' e hs he => does_allToAllWith hs he) hp hrest
  refine ⟨id, s₁, _, hid, hdoes, fun _ q => ?_, fun m' data' h => ?_, fun hkind => ?_⟩
  · rw [Collective.checks, dif_neg (by simp [Collective.ofAllToAll, MessageKind.needsCheck]),
      ite_self, List.flatMap_assoc]
    refine List.flatMap_eq_nil_iff.mpr fun e _ => ?_
    unfold allToAllActions
    split <;> rfl
  · obtain ⟨e, -, he⟩ := List.mem_flatMap.mp h
    unfold allToAllActions at he
    split at he
    · simp only [List.mem_cons, Action.send.injEq, reduceCtorEq, List.not_mem_nil, or_false] at he
      obtain ⟨rfl, rfl⟩ := he
      exact ⟨rfl, rfl, rfl⟩
    · cases he
  · cases hkind

/-! ## Calls -/

/-- No two collectives of one kind and datatype get the same ID. -/
def Collective.DistinctIDs (hash : List Byte → Hash) (is : List Collective) : Prop :=
  ((number (key hash) is).map fun e => (e.1.kind, e.1.datatype, e.1.messageID hash e.2)).Nodup

instance (is : List Collective) : Decidable (Collective.DistinctIDs hash is) :=
  inferInstanceAs (Decidable (List.Nodup _))

/-- What a queue has executed and announced after the collectives `is`. -/
structure Announced (build : QueueBuild) (hash : List Byte → Hash) (p : PartyID)
    (is : List Collective) (s : QueueState δ) : Prop where
  executed : Executed build hash p is s
  checks : build.collectiveConsistency = true → ∀ q,
    s.checksOf q = Collective.checksFrom hash q p is
  shared : Collective.DistinctIDs hash is → ∀ m data m' data', .send m data ∈ s.log →
    .send m' data' ∈ s.log → m.kind.needsCheck = true →
      (m.kind, m.datatype, m.id) = (m'.kind, m'.datatype, m'.id) → data = data'

theorem announced_initial (p : PartyID) :
    Announced build hash p [] (QueueState.initial δ p) :=
  ⟨executed_initial p, fun _ _ => rfl, fun _ _ _ _ _ h => by cases h⟩

theorem Collective.DistinctIDs.of_append {is js : List Collective}
    (h : DistinctIDs hash (is ++ js)) : DistinctIDs hash is := by
  rw [DistinctIDs, number, numberFrom_append, List.map_append] at h
  exact h.of_append_left

/-- What was sent is a message of a collective. -/
theorem Executed.exists_of_send {is : List Collective} {s : QueueState δ}
    (h : Executed build hash p is s) {m : Message} {data : δ} (hsend : .send m data ∈ s.log) :
    ∃ e ∈ number (Collective.key hash) is,
      e.1.sends p m.receiver = true ∧ m = e.1.message p m.receiver (e.1.messageID hash e.2) := by
  have hmem : m ∈ s.sentTo m.receiver := by
    refine List.mem_flatMap.mpr ⟨_, hsend, ?_⟩
    rw [Action.sentTo, if_pos rfl]
    exact List.mem_singleton.mpr rfl
  rw [h.sent, Collective.transfers] at hmem
  obtain ⟨e, he, hm⟩ := List.mem_flatMap.mp hmem
  split at hm
  · rename_i hsends
    exact ⟨e, he, hsends, List.mem_singleton.mp hm⟩
  · cases hm

theorem Announced.concat {is : List Collective} {i : Collective} {s s' : QueueState δ}
    (h : Announced build hash p is s) (hexecuted : Executed build hash p (is ++ [i]) s')
    (hone : AnnouncesOne build hash i s s') : Announced build hash p (is ++ [i]) s' := by
  obtain ⟨id, s₁, actions, hid, hdoes, hannounces⟩ := hone
  have hvalue := h.executed.messageID_eq hid
  have hp := h.executed.id
  have hlog : s'.log = s.log ++ actions := by
    rw [hdoes.log, (updateCounter_eq_some hid).2]
  refine ⟨hexecuted, fun hbuild q => ?_, fun hids m data m' data' hm hm' hkind hsame => ?_⟩
  · rw [QueueState.checksOf, hlog, List.flatMap_append, hannounces.checks hbuild q, hvalue,
      Collective.checksFrom_concat, ← h.checks hbuild q, hp]
    rfl
  -- sends of one collective share their data; those of two collectives have different IDs
  have hnew (m : Message) (data : δ) (hm : .send m data ∈ actions) :
      (m.kind, m.datatype, m.id) = (i.kind, i.datatype,
        i.messageID hash (occurrences (Collective.key hash) (i.key hash) is)) := by
    obtain ⟨hkind, hdatatype, hid⟩ := hannounces.ids m data hm
    rw [hkind, hdatatype, hid, hvalue]
  have hold (m : Message) (data : δ) (hm : .send m data ∈ s.log) :
      (m.kind, m.datatype, m.id) ∈ (number (Collective.key hash) is).map
        fun e => (e.1.kind, e.1.datatype, e.1.messageID hash e.2) := by
    obtain ⟨e, he, -, heq⟩ := h.executed.exists_of_send hm
    refine List.mem_map.mpr ⟨e, he, ?_⟩
    rw [heq]
    rfl
  have hdiffer (m : Message) (data : δ) (m' : Message) (data' : δ) (hm : .send m data ∈ s.log)
      (hm' : .send m' data' ∈ actions) (hsame : (m.kind, m.datatype, m.id) =
        (m'.kind, m'.datatype, m'.id)) : False := by
    rw [Collective.DistinctIDs, number_concat, List.map_append, List.nodup_append] at hids
    exact hids.2.2 _ (hold m data hm) _ (List.mem_singleton.mpr rfl)
      (hsame.trans (hnew m' data' hm'))
  rw [hlog] at hm hm'
  rcases List.mem_append.mp hm with hm | hm <;> rcases List.mem_append.mp hm' with hm' | hm'
  · exact h.shared hids.of_append m data m' data' hm hm' hkind hsame
  · exact (hdiffer _ _ _ _ hm hm' hsame).elim
  · exact (hdiffer _ _ _ _ hm' hm hsame.symm).elim
  · exact hannounces.shared ((hannounces.ids m data hm).1 ▸ hkind) m data m' data' hm hm'

theorem Announced.start {is : List Collective} {s s₁ s₂ : QueueState δ} {needed ensured : Bool}
    (h : Announced build hash p is s)
    (hensure : s.ensureConsistency build needed ensured = some s₁)
    (hround : s₁.nextRound build = some s₂) : Announced build hash p is s₂ := by
  obtain ⟨actions, hdoes, hactions⟩ := does_ensureConsistency hensure
  have hlog : s₂.log = s.log ++ actions := by
    rw [(does_nextRound hround).log, hdoes.log, List.append_nil]
  have hquiet : ∀ a ∈ actions, a = .ensureConsistency := by
    rcases hactions with rfl | rfl <;> simp
  have hsend {m : Message} {data : δ} (hm : .send m data ∈ s₂.log) : .send m data ∈ s.log := by
    rw [hlog] at hm
    rcases List.mem_append.mp hm with hm | hm
    · exact hm
    · cases hquiet _ hm
  refine ⟨h.executed.start hensure hround, fun hbuild q => ?_,
    fun hids m data m' data' hm hm' => h.shared hids m data m' data' (hsend hm) (hsend hm')⟩
  rw [QueueState.checksOf, hlog, List.flatMap_append, ← h.checks hbuild q]
  rcases hactions with rfl | rfl
  · exact List.append_nil _
  · exact List.append_nil _

/-- A loop whose body executes and announces one collective for each element. -/
theorem announced_foldlM {α : Type} {f : QueueState δ → α → Option (QueueState δ)}
    (collective : α → Collective) {l : List α}
    (hexecuted : ∀ a ∈ l, ∀ is s s', Executed build hash p is s → f s a = some s' →
      Executed build hash p (is ++ [collective a]) s')
    (hone : ∀ a ∈ l, ∀ s s', s.id = p → f s a = some s' →
      AnnouncesOne build hash (collective a) s s')
    {is : List Collective} {s s' : QueueState δ} (h : Announced build hash p is s)
    (hloop : l.foldlM f s = some s') :
    Announced build hash p (is ++ l.map collective) s' := by
  induction l generalizing is s with
  | nil =>
      obtain rfl : s = s' := Option.some.inj hloop
      rw [List.map_nil, List.append_nil]
      exact h
  | cons a l ih =>
      rw [List.foldlM_cons] at hloop
      obtain ⟨s₁, hfirst, hrest⟩ := Option.bind_eq_some_iff.mp hloop
      have hnext := h.concat (hexecuted a List.mem_cons_self is s s₁ h.executed hfirst)
        (hone a List.mem_cons_self s s₁ h.executed.id hfirst)
      have hall := ih (fun b hb => hexecuted b (List.mem_cons_of_mem _ hb))
        (fun b hb => hone b (List.mem_cons_of_mem _ hb)) hnext hrest
      rw [List.append_assoc] at hall
      exact hall

theorem announced_call {is : List Collective} {s s' : QueueState δ} {e : Call δ × Bool}
    (h : Announced build hash p is s) (hcall : s.call build hash e = some s')
    (hparty : ∀ i ∈ e.1.operation.collectives, i.party p = true) :
    Announced build hash p (is ++ e.1.operation.collectives) s' := by
  obtain ⟨call, ensured⟩ := e
  cases call with
  | multiBroadcast messages communicator data =>
      obtain ⟨hlen, s₁, s₂, hensure, hround, hloop⟩ := multiBroadcast_eq_some hcall
      have hplaced (e : Broadcast × δ) (he : e ∈ messages.zip data) :=
        party_ofBroadcast (hparty _ (List.mem_map_of_mem (List.of_mem_zip he).1))
      have hall := announced_foldlM (fun e => .ofBroadcast communicator e.1)
        (fun e he is s s' hs hone => executed_broadcastOne hs hone (hplaced e he))
        (fun e he s s' hs hone => announces_broadcastOne hone (hs ▸ hplaced e he))
        (h.start hensure hround) hloop
      rwa [map_fst_zip _ hlen] at hall
  | multiGather messages communicator data =>
      obtain ⟨rows, s₁, s₂, hlen, hensure, hround, hloop⟩ := multiGather_eq_some hcall
      have hall := announced_foldlM (fun e => .ofGather communicator e.1)
        (fun e he is s s' hs hone => executed_gatherOne hs hone
          (party_ofGather (hparty _ (List.mem_map_of_mem (List.of_mem_zip he).1))))
        (fun e he s s' hs hone => announces_gatherOne hone)
        (h.start hensure hround) hloop
      rwa [map_fst_zip _ hlen] at hall
  | extendedMultiAllGather messages senders receivers data =>
      obtain ⟨hmember, rows, s₁, s₂, hlen, hwidth, hensure, hround, hloop⟩ :=
        extendedMultiAllGather_eq_some hcall
      rw [h.executed.id] at hmember
      have hall := announced_foldlM (fun e => .ofAllGather senders receivers e.1)
        (fun e he is s s' hs hone => executed_allGatherOne hs hone
          (hwidth e.2 (List.of_mem_zip he).2) hmember)
        (fun e he s s' hs hone => announces_allGatherOne hone
          (hwidth e.2 (List.of_mem_zip he).2) (hs ▸ hmember))
        (h.start hensure hround) hloop
      rwa [map_fst_zip _ hlen] at hall
  | multiAllToAll messages communicator sendData receiveData =>
      obtain ⟨hmember, sendRows, receiveRows, s₁, s₂, hsend, hreceive, hsendWidth,
        hreceiveWidth, hensure, hround, hloop⟩ := multiAllToAll_eq_some hcall
      rw [h.executed.id] at hmember
      have hall := announced_foldlM (fun e => .ofAllToAll communicator e.1)
        (fun e he is s s' hs hone => executed_allToAllOne hs hone
          (hsendWidth _ (List.of_mem_zip (List.of_mem_zip he).2).1)
          (hreceiveWidth _ (List.of_mem_zip (List.of_mem_zip he).2).2) hmember)
        (fun e he s s' hs hone => announces_allToAllOne hone)
        (h.start hensure hround) hloop
      have hcount : messages.length = (sendRows.zip receiveRows).length := by
        rw [List.length_zip, ← hsend, ← hreceive, Nat.min_self]
      rwa [map_fst_zip _ hcount] at hall

theorem announced_calls {is : List Collective} {s s' : QueueState δ}
    {program : List (Call δ × Bool)} (h : Announced build hash p is s)
    (hcalls : s.calls build hash program = some s')
    (hparty : ∀ i ∈ collectives program, i.party p = true) :
    Announced build hash p (is ++ collectives program) s' := by
  induction program generalizing is s with
  | nil =>
      obtain rfl : s = s' := Option.some.inj hcalls
      rw [collectives, List.flatMap_nil, List.append_nil]
      exact h
  | cons e program ih =>
      rw [QueueState.calls, List.foldlM_cons] at hcalls
      obtain ⟨s₁, hfirst, hrest⟩ := Option.bind_eq_some_iff.mp hcalls
      have hone := announced_call h hfirst fun i hi => hparty i (List.mem_append_left _ hi)
      have hall := ih hone hrest fun i hi => hparty i (List.mem_append_right _ hi)
      rw [List.append_assoc] at hall
      exact hall

end Hmpc.Net
