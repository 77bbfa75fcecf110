/-
# Hmpc.Net.QueueGate -- consistency checks gate sending

With collective consistency an operation that is going to send waits first until the consistency
task has verified what the queue received before. Each operation decides with a guard of its own
whether to wait. This module compares the guards with what the loops of the operations send, over
programs in which a wait may also be refused.
-/
import Hmpc.Net.QueueRun

namespace Hmpc.Net

open BaseMessageID

variable {δ : Type}

/-! ## Traces of operations -/

/-- What a queue hands to its consistency task and to its network task. -/
inductive Event where
  | wait (answeredOk : Bool)
  | request (check : ConsistencyCheck)
  | send (message : Message)

def Action.event : Action δ → List Event
  | .ensureConsistency => [.wait true]
  | .checkConsistency check => [.request check]
  | .send message _ => [.send message]
  | .receive _ _ => []

/-- The guards of the operations. -/
def Call.waits (party : PartyID) : Call δ → Bool
  | .multiBroadcast messages _ _ => messages.any fun message => decide (message.sender = party)
  | .multiGather messages _ _ => messages.any fun message => decide (message.receiver ≠ party)
  | .extendedMultiAllGather _ senders _ _ => decide (party ∈ senders)
  | .multiAllToAll _ _ _ _ => true

/-- A call with the answer to its wait. An operation returns at once when the answer is an error,
and the queue can be used again. -/
def QueueState.operate (build : QueueBuild) (hash : List Byte → Hash) (self : QueueState δ) :
    Call δ × Bool → Option (List Event × QueueState δ)
  | (call, answeredOk) =>
    if build.collectiveConsistency && call.waits self.id && !answeredOk then
      some ([.wait false], self)
    else
      (self.call build hash (call, answeredOk)).map fun self' =>
        ((self'.log.drop self.log.length).flatMap Action.event, self')

/-- The calls of a program with their events. A panic ends the program. -/
def QueueState.operations (build : QueueBuild) (hash : List Byte → Hash) (self : QueueState δ) :
    List (Call δ × Bool) → List (Call δ × List Event)
  | [] => []
  | e :: program =>
    match self.operate build hash e with
    | none => []
    | some (trace, self) => (e.1, trace) :: self.operations build hash program

/-! ## What the loops do -/

def Action.isWait : Action δ → Bool
  | .ensureConsistency => true
  | _ => false

def Action.isSend : Action δ → Bool
  | .send _ _ => true
  | _ => false

variable {build : QueueBuild} {hash : List Byte → Hash} {p : PartyID}

/-- From `s` to `s'` nothing waited, and something was sent only under `may` and always under
`must`. -/
structure Emits (s s' : QueueState δ) (may must : Prop) : Prop where
  id : s'.id = s.id
  log : ∃ actions, s'.log = s.log ++ actions ∧ (∀ a ∈ actions, a.isWait = false) ∧
    (¬ may → ∀ a ∈ actions, a.isSend = false) ∧ (must → ∃ a ∈ actions, a.isSend = true)

theorem Emits.mono {s s' : QueueState δ} {may must may' must' : Prop}
    (h : Emits s s' may must) (hmay : may → may') (hmust : must' → must) :
    Emits s s' may' must' := by
  obtain ⟨actions, hlog, hwait, hnone, hsome⟩ := h.log
  exact ⟨h.id, actions, hlog, hwait, fun hnot => hnone fun h => hnot (hmay h),
    fun h => hsome (hmust h)⟩

theorem Emits.trans {s s' s'' : QueueState δ} {may must may' must' : Prop}
    (h : Emits s s' may must) (h' : Emits s' s'' may' must') :
    Emits s s'' (may ∨ may') (must ∨ must') := by
  obtain ⟨actions, hlog, hwait, hnone, hsome⟩ := h.log
  obtain ⟨actions', hlog', hwait', hnone', hsome'⟩ := h'.log
  refine ⟨h'.id.trans h.id, actions ++ actions', ?_, fun a ha => ?_, fun hnot a ha => ?_,
    fun hmust => ?_⟩
  · rw [hlog', hlog, List.append_assoc]
  · exact (List.mem_append.mp ha).elim (hwait a) (hwait' a)
  · rw [not_or] at hnot
    exact (List.mem_append.mp ha).elim (hnone hnot.1 a) (hnone' hnot.2 a)
  · rcases hmust with hmust | hmust
    · obtain ⟨a, ha, hsend⟩ := hsome hmust
      exact ⟨a, List.mem_append_left _ ha, hsend⟩
    · obtain ⟨a, ha, hsend⟩ := hsome' hmust
      exact ⟨a, List.mem_append_right _ ha, hsend⟩

/-- What changes neither the party nor the log. -/
theorem emits_nothing {s s' : QueueState δ} (hid : s'.id = s.id) (hlog : s'.log = s.log) :
    Emits s s' False False :=
  ⟨hid, [], by rw [hlog, List.append_nil], nofun, fun _ => nofun, nofun⟩

theorem Does.emits {s s' : QueueState δ} {actions : List (Action δ)} {sends : Prop}
    (h : Does build s actions s') (hwait : ∀ a ∈ actions, a.isWait = false)
    (hnone : ¬ sends → ∀ a ∈ actions, a.isSend = false)
    (hsome : sends → ∃ a ∈ actions, a.isSend = true) : Emits s s' sends sends :=
  ⟨h.id, actions, h.log, hwait, hnone, hsome⟩

/-- A loop sends when one of its iterations does. -/
theorem emits_foldlM {α : Type} {f : QueueState δ → α → Option (QueueState δ)} {l : List α}
    {M N : α → Prop}
    (hstep : ∀ a ∈ l, ∀ s s', s.id = p → f s a = some s' → Emits s s' (M a) (N a))
    {s s' : QueueState δ} (hs : s.id = p) (h : l.foldlM f s = some s') :
    Emits s s' (∃ a ∈ l, M a) (∃ a ∈ l, N a) := by
  induction l generalizing s with
  | nil =>
      obtain rfl : s = s' := Option.some.inj h
      exact (emits_nothing rfl rfl).mono False.elim (by simp)
  | cons a l ih =>
      rw [List.foldlM_cons] at h
      obtain ⟨s₁, hfirst, hrest⟩ := Option.bind_eq_some_iff.mp h
      have hone := hstep a List.mem_cons_self s s₁ hs hfirst
      have hall := ih (fun b hb => hstep b (List.mem_cons_of_mem a hb)) (hone.id.trans hs) hrest
      exact (hone.trans hall).mono (by simp) (by simp)

theorem emits_sendOn {s s' : QueueState δ} {message : Message} {data : δ}
    (h : s.sendOn build message data = some s') : Emits s s' True True :=
  (does_sendOn h).emits (by simp [Action.isWait]) (fun hnot => absurd trivial hnot)
    fun _ => ⟨_, List.mem_singleton_self _, rfl⟩

theorem emits_receiveOn {s s' : QueueState δ} {message : Message} {data : δ}
    (h : s.receiveOn build message data = some s') : Emits s s' False False :=
  (does_receiveOn h).emits (by simp [Action.isWait]) (fun _ => by simp [Action.isSend]) nofun

theorem emits_checkConsistency (s : QueueState δ) (check : ConsistencyCheck) :
    Emits s (s.checkConsistency build check) False False := by
  refine (does_checkConsistency s check).emits ?_ (fun _ => ?_) nofun
  all_goals split <;> simp [Action.isWait, Action.isSend]

/-- An operation allocates an ID before it sends. -/
theorem emits_updateCounter {s s' : QueueState δ} {kind : MessageKind} {datatype : MessageDatatype}
    {key : Hash} {id : MessageID} (h : s.updateCounter build kind datatype key = some (id, s')) :
    Emits s s' False False := by
  obtain ⟨-, rfl⟩ := updateCounter_eq_some h
  exact emits_nothing rfl rfl

/-- Sending to the other parties of a communicator. -/
theorem emits_sendAll {s s' : QueueState δ} {communicator : Communicator}
    {message : PartyID → Message} {data : δ} (hs : s.id = p)
    (h : (communicator.toList.filter fun party => decide (party ≠ p)).foldlM
      (fun s' receiver => s'.sendOn build (message receiver) data) s = some s') :
    Emits s s' True (∃ party ∈ communicator, party ≠ p) := by
  refine (emits_foldlM (p := p) (M := fun _ => True) (N := fun _ => True)
    (fun _ _ _ _ _ hsend => emits_sendOn hsend) hs h).mono (fun _ => trivial) ?_
  rintro ⟨party, hparty, hne⟩
  exact ⟨party, List.mem_filter.mpr ⟨hparty, by simpa using hne⟩, trivial⟩

/-! ## What one message does -/

theorem emits_broadcastOne {communicator : Communicator} {e : Broadcast × δ}
    {s s' : QueueState δ} (hs : s.id = p)
    (h : s.broadcastOne build hash communicator e = some s') :
    Emits s s' (e.1.sender = p)
      (e.1.sender = p ∧ ∃ party ∈ communicator, party ≠ p) := by
  obtain ⟨⟨id, s₁⟩, hid, h⟩ := Option.bind_eq_some_iff.mp h
  have hfirst := emits_updateCounter hid
  have hs₁ : s₁.id = p := hfirst.id.trans hs
  dsimp only at h
  split at h
  · rename_i hsender
    rw [hs₁] at hsender h
    refine (hfirst.trans (emits_sendAll hs₁ h)).mono (fun _ => hsender) fun hmust => ?_
    exact Or.inr hmust.2
  · rename_i hsender
    rw [hs₁] at hsender
    exact ((hfirst.trans (emits_checkConsistency s₁ _)).trans (emits_receiveOn h)).mono
      (by simp) fun hmust => absurd hmust.1 hsender

theorem emits_gatherOne {communicator : Communicator} {e : Gather × List δ}
    {s s' : QueueState δ} (hs : s.id = p)
    (h : s.gatherOne build hash communicator e = some s') :
    Emits s s' (e.1.receiver ≠ p) (e.1.receiver ≠ p) := by
  obtain ⟨⟨id, s₁⟩, hid, h⟩ := Option.bind_eq_some_iff.mp h
  have hfirst := emits_updateCounter hid
  have hs₁ : s₁.id = p := hfirst.id.trans hs
  dsimp only at h
  split at h
  · rename_i hreceiver
    rw [hs₁] at hreceiver
    obtain ⟨_, -, h⟩ := Option.bind_eq_some_iff.mp h
    refine (hfirst.trans (emits_foldlM (p := p) (M := fun _ => False) (N := fun _ => False)
      (fun _ _ _ _ _ hreceive => emits_receiveOn hreceive) hs₁ h)).mono (by simp) fun hne => ?_
    exact absurd hreceiver hne
  · rename_i hreceiver
    rw [hs₁] at hreceiver
    split at h
    · exact (hfirst.trans (emits_sendOn h)).mono (fun _ => hreceiver) fun _ => Or.inr trivial
    · cases h

theorem emits_allGatherOne {senders receivers : Communicator} {e : AllGather × List δ}
    {s s' : QueueState δ} (hs : s.id = p)
    (h : s.allGatherOne build hash senders receivers e = some s')
    (hlength : senders.toList.length = e.2.length) :
    Emits s s' (p ∈ senders) (p ∈ senders ∧ ∃ party ∈ receivers, party ≠ p) := by
  obtain ⟨⟨id, s₁⟩, hid, h⟩ := Option.bind_eq_some_iff.mp h
  have hfirst := emits_updateCounter hid
  have hs₁ : s₁.id = p := hfirst.id.trans hs
  -- in each step the party is the sender and sends to the others, or requests a check
  have hstep : ∀ a ∈ senders.toList.zip e.2, ∀ s s' : QueueState δ, s.id = p →
      s.allGatherFrom build e.1 receivers id a = some s' →
      Emits s s' (a.1 = p) (a.1 = p ∧ ∃ party ∈ receivers, party ≠ p) := by
    rintro ⟨sender, data⟩ - s s' hs h
    rw [QueueState.allGatherFrom] at h
    split at h
    · rename_i hsender
      rw [hs] at hsender h
      exact (emits_sendAll hs h).mono (fun _ => hsender) fun hmust => hmust.2
    · rename_i hsender
      rw [hs] at hsender
      exact ((emits_checkConsistency s _).trans (emits_receiveOn h)).mono (by simp)
        fun hmust => absurd hmust.1 hsender
  refine (hfirst.trans (emits_foldlM hstep hs₁ h)).mono ?_ ?_
  · rintro (hfalse | ⟨a, ha, rfl⟩)
    · exact hfalse.elim
    · exact (List.of_mem_zip ha).1
  · rintro ⟨hmember, hothers⟩
    obtain ⟨i, hi, hsender⟩ := List.mem_iff_getElem.mp hmember
    refine Or.inr ⟨(senders.toList[i], e.2[i]), ?_, hsender, hothers⟩
    rw [← List.getElem_zip (h := by rw [List.length_zip]; omega)]
    exact List.getElem_mem _

theorem emits_allToAllOne {communicator : Communicator} {e : AllToAll × List δ × List δ}
    {s s' : QueueState δ} (hs : s.id = p)
    (h : s.allToAllOne build hash communicator e = some s') : Emits s s' True False := by
  obtain ⟨⟨id, s₁⟩, hid, h⟩ := Option.bind_eq_some_iff.mp h
  have hfirst := emits_updateCounter hid
  refine (hfirst.trans (emits_foldlM (p := p) (M := fun _ => True) (N := fun _ => False)
    ?_ (hfirst.id.trans hs) h)).mono (fun _ => trivial) False.elim
  rintro ⟨party, sendData, receiveData⟩ - s s' - h
  rw [QueueState.allToAllWith] at h
  split at h
  · obtain ⟨s₁, hsend, hreceive⟩ := Option.bind_eq_some_iff.mp h
    exact ((emits_sendOn hsend).trans (emits_receiveOn hreceive)).mono (fun _ => trivial)
      False.elim
  · obtain rfl : s = s' := Option.some.inj h
    exact (emits_nothing rfl rfl).mono False.elim False.elim

/-! ## A whole operation -/

/-- The operations in which a party that waits need not send: there is nobody it sends to. -/
def Call.lonely (party : PartyID) : Call δ → Prop
  | .multiBroadcast _ communicator _ => ∀ p ∈ communicator, p = party
  | .multiGather _ _ _ => False
  | .extendedMultiAllGather messages _ receivers _ => messages = [] ∨ ∀ p ∈ receivers, p = party
  | .multiAllToAll _ _ _ _ => True

/-- An operation first waits if its guard says so, and what follows is one loop. -/
structure Gated (build : QueueBuild) (s s' : QueueState δ) (waits : Bool) (answeredOk : Bool)
    (must : Prop) : Prop where
  start : ∃ s₁ s₂, s.ensureConsistency build waits answeredOk = some s₁ ∧
    s₁.nextRound build = some s₂ ∧ Emits s₂ s' (waits = true) (waits = true ∧ must)

theorem id_start {s s₁ s₂ : QueueState δ} {needed ensured : Bool}
    (hensure : s.ensureConsistency build needed ensured = some s₁)
    (hround : s₁.nextRound build = some s₂) : s₂.id = s.id := by
  obtain ⟨actions, hdoes, -⟩ := does_ensureConsistency hensure
  exact (does_nextRound hround).id.trans hdoes.id

/-- A member of a list that is as long as another one is in the zip of both. -/
theorem exists_mem_zip {α β : Type} {l : List α} {m : List β} (h : l.length = m.length) {a : α}
    (ha : a ∈ l) : ∃ e ∈ l.zip m, e.1 = a := by
  obtain ⟨i, hi, rfl⟩ := List.mem_iff_getElem.mp ha
  have hzip : i < (l.zip m).length := by rw [List.length_zip]; omega
  exact ⟨(l.zip m)[i], List.getElem_mem hzip, by rw [List.getElem_zip]⟩

theorem gated_multiBroadcast {messages : List Broadcast} {communicator : Communicator}
    {data : List δ} {ensured : Bool} {s s' : QueueState δ}
    (h : s.multiBroadcast build hash messages communicator data ensured = some s') :
    Gated build s s' (messages.any fun message => decide (message.sender = s.id)) ensured
      (∃ party ∈ communicator, party ≠ s.id) := by
  obtain ⟨hlength, s₁, s₂, hensure, hround, hloop⟩ := multiBroadcast_eq_some h
  refine ⟨s₁, s₂, hensure, hround, (emits_foldlM (p := s.id)
    (fun e _ s s' hs hone => emits_broadcastOne hs hone) (id_start hensure hround) hloop).mono
    ?_ ?_⟩
  · rintro ⟨e, he, hsender⟩
    exact List.any_eq_true.mpr ⟨e.1, (List.of_mem_zip he).1, decide_eq_true hsender⟩
  · rintro ⟨hany, hothers⟩
    obtain ⟨message, hmessage, hsender⟩ := List.any_eq_true.mp hany
    obtain ⟨e, he, rfl⟩ := exists_mem_zip hlength hmessage
    exact ⟨e, he, of_decide_eq_true hsender, hothers⟩

theorem gated_multiGather {messages : List Gather} {communicator : Communicator}
    {data : Vec2d δ} {ensured : Bool} {s s' : QueueState δ}
    (h : s.multiGather build hash messages communicator data ensured = some s') :
    Gated build s s' (messages.any fun message => decide (message.receiver ≠ s.id)) ensured
      True := by
  obtain ⟨rows, s₁, s₂, hlength, hensure, hround, hloop⟩ := multiGather_eq_some h
  refine ⟨s₁, s₂, hensure, hround, (emits_foldlM (p := s.id)
    (fun e _ s s' hs hone => emits_gatherOne hs hone) (id_start hensure hround) hloop).mono
    ?_ ?_⟩
  · rintro ⟨e, he, hreceiver⟩
    exact List.any_eq_true.mpr ⟨e.1, (List.of_mem_zip he).1, decide_eq_true hreceiver⟩
  · rintro ⟨hany, -⟩
    obtain ⟨message, hmessage, hreceiver⟩ := List.any_eq_true.mp hany
    obtain ⟨e, he, rfl⟩ := exists_mem_zip hlength hmessage
    exact ⟨e, he, of_decide_eq_true hreceiver⟩

theorem gated_extendedMultiAllGather {messages : List AllGather}
    {senders receivers : Communicator} {data : Vec2d δ} {ensured : Bool} {s s' : QueueState δ}
    (h : s.extendedMultiAllGather build hash messages senders receivers data ensured = some s') :
    Gated build s s' (decide (s.id ∈ senders)) ensured
      (messages ≠ [] ∧ ∃ party ∈ receivers, party ≠ s.id) := by
  obtain ⟨-, rows, s₁, s₂, hlength, hwidth, hensure, hround, hloop⟩ :=
    extendedMultiAllGather_eq_some h
  refine ⟨s₁, s₂, hensure, hround, (emits_foldlM (p := s.id) (fun e he s s' hs hone =>
    emits_allGatherOne hs hone (hwidth e.2 (List.of_mem_zip he).2))
    (id_start hensure hround) hloop).mono ?_ ?_⟩
  · rintro ⟨e, -, hmember⟩
    exact decide_eq_true hmember
  · rintro ⟨hmember, hmessages, hothers⟩
    obtain ⟨message, hmessage⟩ := List.exists_mem_of_ne_nil messages hmessages
    obtain ⟨e, he, -⟩ := exists_mem_zip hlength hmessage
    exact ⟨e, he, of_decide_eq_true hmember, hothers⟩

theorem gated_multiAllToAll {messages : List AllToAll} {communicator : Communicator}
    {sendData receiveData : Vec2d δ} {ensured : Bool} {s s' : QueueState δ}
    (h : s.multiAllToAll build hash messages communicator sendData receiveData ensured =
      some s') : Gated build s s' true ensured False := by
  obtain ⟨-, sendRows, receiveRows, s₁, s₂, -, -, -, -, hensure, hround, hloop⟩ :=
    multiAllToAll_eq_some h
  refine ⟨s₁, s₂, hensure, hround, (emits_foldlM (p := s.id)
    (fun e _ s s' hs hone => emits_allToAllOne hs hone) (id_start hensure hround) hloop).mono
    (fun _ => rfl) fun hmust => hmust.2.elim⟩

theorem gated_call {s s' : QueueState δ} {call : Call δ} {answeredOk : Bool}
    (h : s.call build hash (call, answeredOk) = some s') :
    Gated build s s' (call.waits s.id) answeredOk (¬ call.lonely s.id) := by
  cases call with
  | multiBroadcast messages communicator data =>
      have hgated := gated_multiBroadcast h
      rwa [show (¬ (Call.multiBroadcast messages communicator data).lonely s.id) =
        (∃ party ∈ communicator, party ≠ s.id) from by simp [Call.lonely]]
  | multiGather messages communicator data =>
      have hgated := gated_multiGather h
      rwa [show (¬ (Call.multiGather messages communicator data).lonely s.id) = True
        from by simp [Call.lonely]]
  | extendedMultiAllGather messages senders receivers data =>
      have hgated := gated_extendedMultiAllGather h
      rwa [show (¬ (Call.extendedMultiAllGather messages senders receivers data).lonely s.id) =
        (messages ≠ [] ∧ ∃ party ∈ receivers, party ≠ s.id) from by simp [Call.lonely]]
  | multiAllToAll messages communicator sendData receiveData =>
      have hgated := gated_multiAllToAll h
      rwa [show (¬ (Call.multiAllToAll messages communicator sendData receiveData).lonely s.id) =
        False from by simp [Call.lonely]]

/-! ## Programs -/

/-- The traces an operation can have: its wait was refused, or its wait was answered and it sends
unless it is lonely, or it neither waits nor sends. -/
inductive Call.Trace (party : PartyID) (call : Call δ) : List Event → Prop where
  | refused (hwaits : call.waits party = true) : Call.Trace party call [.wait false]
  | answered (hwaits : call.waits party = true) (body : List Event)
      (hwait : ∀ answeredOk, .wait answeredOk ∉ body)
      (hsend : ¬ call.lonely party → ∃ message, .send message ∈ body) :
      Call.Trace party call (.wait true :: body)
  | silent (hwaits : call.waits party = false) (body : List Event)
      (hwait : ∀ answeredOk, .wait answeredOk ∉ body)
      (hsend : ∀ message, .send message ∉ body) : Call.Trace party call body

theorem mem_event_wait {a : Action δ} {answeredOk : Bool} (h : .wait answeredOk ∈ a.event) :
    a.isWait = true := by
  cases a <;> simp [Action.event, Action.isWait] at h ⊢

theorem mem_event_send {a : Action δ} : (∃ message, .send message ∈ a.event) ↔
    a.isSend = true := by
  cases a <;> simp [Action.event, Action.isSend]

/-- The log of an operation after its start. -/
theorem trace_body {s s' : QueueState δ} {may must : Prop} (h : Emits s s' may must) :
    ∃ actions, s'.log = s.log ++ actions ∧
      (∀ answeredOk, .wait answeredOk ∉ actions.flatMap Action.event) ∧
      (¬ may → ∀ message, .send message ∉ actions.flatMap Action.event) ∧
      (must → ∃ message, .send message ∈ actions.flatMap Action.event) := by
  obtain ⟨actions, hlog, hwait, hnone, hsome⟩ := h.log
  refine ⟨actions, hlog, fun answeredOk hmem => ?_, fun hnot message hmem => ?_, fun hmust => ?_⟩
  · obtain ⟨a, ha, hevent⟩ := List.mem_flatMap.mp hmem
    exact Bool.false_ne_true ((hwait a ha).symm.trans (mem_event_wait hevent))
  · obtain ⟨a, ha, hevent⟩ := List.mem_flatMap.mp hmem
    exact Bool.false_ne_true ((hnone hnot a ha).symm.trans (mem_event_send.mp ⟨message, hevent⟩))
  · obtain ⟨a, ha, hsend⟩ := hsome hmust
    obtain ⟨message, hevent⟩ := mem_event_send.mpr hsend
    exact ⟨message, List.mem_flatMap.mpr ⟨a, ha, hevent⟩⟩

theorem trace_operate {s s' : QueueState δ} {call : Call δ} {answeredOk : Bool}
    {trace : List Event} (hbuild : build.collectiveConsistency = true)
    (h : s.operate build hash (call, answeredOk) = some (trace, s')) :
    call.Trace s.id trace ∧ s'.id = s.id := by
  rw [QueueState.operate, hbuild, Bool.true_and] at h
  split at h
  · rename_i hrefused
    obtain ⟨rfl, rfl⟩ := Prod.mk.inj (Option.some.inj h)
    exact ⟨.refused (Bool.and_eq_true_iff.mp hrefused).1, rfl⟩
  · rename_i hanswer
    obtain ⟨s'', hcall, heq⟩ := Option.map_eq_some_iff.mp h
    obtain ⟨rfl, rfl⟩ := Prod.mk.inj heq
    obtain ⟨s₁, s₂, hensure, hround, hemits⟩ := (gated_call hcall).start
    obtain ⟨actions, hlog, hwait, hnone, hsome⟩ := trace_body hemits
    have hid := hemits.id.trans (id_start hensure hround)
    rw [QueueState.ensureConsistency, hbuild, Bool.true_and] at hensure
    rw [(does_nextRound hround).log, List.append_nil] at hlog
    -- the wait is the first action of the operation, when there is one
    cases hwaits : call.waits s.id with
    | false =>
        rw [hwaits, if_neg Bool.false_ne_true] at hensure
        obtain rfl := Option.some.inj hensure
        rw [hlog, List.drop_left]
        exact ⟨.silent hwaits _ hwait (hnone (by simp [hwaits])), hid⟩
    | true =>
        rw [hwaits] at hanswer hensure
        obtain rfl : answeredOk = true := by simpa using hanswer
        obtain rfl := Option.some.inj hensure
        rw [hlog, QueueState.act, List.append_assoc, List.drop_left]
        exact ⟨.answered hwaits _ hwait fun hlonely => hsome ⟨hwaits, hlonely⟩, hid⟩

/-- Every operation of a program has one of the traces. -/
theorem trace_operations (hbuild : build.collectiveConsistency = true) {s : QueueState δ}
    {program : List (Call δ × Bool)} {e : Call δ × List Event}
    (he : e ∈ s.operations build hash program) : e.1.Trace s.id e.2 := by
  induction program generalizing s with
  | nil => cases he
  | cons first program ih =>
      obtain ⟨call, answeredOk⟩ := first
      rw [QueueState.operations] at he
      split at he
      · cases he
      · rename_i trace s' hoperate
        obtain ⟨htrace, hid⟩ := trace_operate hbuild hoperate
        rcases List.mem_cons.mp he with rfl | he
        · exact htrace
        · rw [← hid]
          exact ih he

/-- What a queue puts into the channel of the consistency task, in order. -/
def consistencyChannel (operations : List (Call δ × List Event)) : List Event :=
  (operations.flatMap Prod.snd).filter fun e => match e with
    | .send _ => false
    | _ => true

/-- **Consistency gates sending.** What an operation sends, it sends after a wait that was answered
and that stands in the channel after all requests of the operations before. An operation that
waits and does not send was refused, or has nobody to send to. -/
theorem consistency_gates_sending (statistics overflowChecks : Bool) (hash : List Byte → Hash)
    (self : QueueState δ) (program : List (Call δ × Bool))
    (earlier later : List (Call δ × List Event)) (call : Call δ) (trace : List Event)
    (hoperations : self.operations ⟨true, statistics, overflowChecks⟩ hash program =
      earlier ++ (call, trace) :: later) :
    (∀ before message after, trace = before ++ .send message :: after →
      ∃ rest, before = .wait true :: rest ∧
        consistencyChannel (self.operations ⟨true, statistics, overflowChecks⟩ hash program) =
          consistencyChannel earlier ++ .wait true ::
            (consistencyChannel [(call, trace.tail)] ++ consistencyChannel later)) ∧
    ((∀ message, .send message ∉ trace) → (∃ answeredOk, .wait answeredOk ∈ trace) →
      trace = [.wait false] ∨ call.lonely self.id) ∧
    (∀ messages communicator sendData receiveData,
      call = .multiAllToAll messages communicator sendData receiveData →
        ∃ answeredOk, .wait answeredOk ∈ trace) := by
  have htrace : call.Trace self.id trace :=
    trace_operations rfl (hoperations ▸ List.mem_append_right _ List.mem_cons_self)
  refine ⟨fun before message after hsplit => ?_, fun hnone hwait => ?_, ?_⟩
  · have hsend : .send message ∈ trace := by
      rw [hsplit]
      exact List.mem_append_right _ List.mem_cons_self
    -- a trace with a send is that of an answered wait
    cases htrace with
    | refused _ => simp at hsend
    | answered _ body _ _ =>
        cases before with
        | nil => simp at hsplit
        | cons first rest =>
            obtain ⟨rfl, -⟩ := List.cons.inj hsplit
            refine ⟨rest, rfl, ?_⟩
            rw [hoperations]
            simp [consistencyChannel]
    | silent _ _ _ hsilent => exact absurd hsend (hsilent message)
  · cases htrace with
    | refused _ => exact Or.inl rfl
    | answered _ body _ hsome =>
        refine Or.inr (by_contra fun hlonely => ?_)
        obtain ⟨message, hmessage⟩ := hsome hlonely
        exact hnone message (List.mem_cons_of_mem _ hmessage)
    | silent _ _ hwaitNone _ =>
        obtain ⟨answeredOk, hmem⟩ := hwait
        exact absurd hmem (hwaitNone answeredOk)
  · rintro messages communicator sendData receiveData rfl
    cases htrace with
    | refused _ => exact ⟨false, List.mem_singleton_self _⟩
    | answered _ body _ _ => exact ⟨true, List.mem_cons_self⟩
    | silent hwaits _ _ _ => exact absurd hwaits (by simp [Call.waits])

/-! ### Broadcasts of party 0 -/

namespace Gate

def pair : Communicator := ⟨[0, 1], by decide⟩

def alone : Communicator := ⟨[0], by decide⟩

def zeroHash (_ : List Byte) : Hash := bytesOf 32 0

def broadcast (sender : PartyID) (communicator : Communicator) : Call Unit :=
  .multiBroadcast [⟨6, sender, 8⟩] communicator [()]

/-- Party 0 receives from party 1 and then sends to it. -/
def program : List (Call Unit × Bool) := [(broadcast 1 pair, true), (broadcast 0 pair, true)]

theorem needsCheck_broadcast : MessageKind.broadcast.needsCheck = true := rfl

theorem sorted_nobody : List.Pairwise (· < ·) ([] : List PartyID) := List.Pairwise.nil

def check : ConsistencyCheck := ⟨⟨.broadcast, needsCheck_broadcast⟩, 6, 1, ⟨[], sorted_nobody⟩, 1⟩

def message : Message := ⟨.broadcast, 6, 0, 1, 2, 8⟩

theorem operations_program :
    (QueueState.initial Unit 0).operations ⟨true, true, true⟩ zeroHash program =
      [(broadcast 1 pair, [.request check])] ++
        (broadcast 0 pair, [.wait true, .send message]) :: [] := by
  rfl

end Gate

theorem consistency_gates_sending_pair :
    ∃ rest, [Event.wait true] = .wait true :: rest ∧
      consistencyChannel ((QueueState.initial Unit 0).operations ⟨true, true, true⟩ Gate.zeroHash
        Gate.program) = [.request Gate.check, .wait true] :=
  (consistency_gates_sending true true Gate.zeroHash (QueueState.initial Unit 0) Gate.program
    _ _ _ _
    Gate.operations_program).1 [.wait true] Gate.message [] rfl

/-- A broadcast to nobody waits although it sends nothing. -/
theorem lonely_broadcast_waits :
    ¬ ∀ (program : List (Call Unit × Bool)) (earlier later : List (Call Unit × List Event))
      (call : Call Unit) (trace : List Event),
      (QueueState.initial Unit 0).operations ⟨true, true, true⟩ Gate.zeroHash program =
        earlier ++ (call, trace) :: later →
      (∀ message, .send message ∉ trace) → (∃ answeredOk, .wait answeredOk ∈ trace) →
      ∃ messages communicator sendData receiveData,
        call = .multiAllToAll messages communicator sendData receiveData := by
  intro hclaim
  obtain ⟨_, _, _, _, hcall⟩ := hclaim [(Gate.broadcast 0 Gate.alone, true)] [] []
    (Gate.broadcast 0 Gate.alone) [.wait true] rfl (by simp) ⟨true, List.mem_singleton_self _⟩
  cases hcall

end Hmpc.Net
