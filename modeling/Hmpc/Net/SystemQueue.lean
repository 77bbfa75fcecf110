/-
# Hmpc.Net.SystemQueue -- how far each queue of a session has come

What a party has sent, requested and issued as receives is what the calls it has started say,
without what is still pending (`Queued`). An event at the party that is not one of its queue leaves
these three lists alone, and what was answered stays answered. While a queue waits for the
consistency task, all that it has requested belongs to the calls before (`Stage`).
-/
import Hmpc.Net.ConsistencySent
import Hmpc.Net.System

namespace Hmpc.Net

open Hmpc.Lib

variable {sessions : Bool} {δ : Type}

/-! ## What the actions of a queue are to its party -/

def Action.receiveOf : Action δ → List Message
  | .receive message _ => [message]
  | _ => []

def Action.requestOf : Action δ → List ConsistencyCheck
  | .checkConsistency check => [check]
  | _ => []

def Setup.sendOf (setup : Setup sessions δ) (party : PartyID) : Action δ → List SendMessage
  | .send message data => [setup.sent party message data]
  | _ => []

/-- The messages of the queue among those a party has signed. -/
def Party.sentData (p : Party) : List SendMessage :=
  p.sent.filter fun m => !m.metadata.kind.isConsistencyCheck

def Consistency.Command.requestOf : Consistency.Command → List ConsistencyCheck
  | .request check => [check]
  | _ => []

/-- The checks a party has requested. -/
def Party.requested (p : Party) : List ConsistencyCheck :=
  p.consistencyLog.flatMap Consistency.Command.requestOf

/-- The messages a party wants to receive. -/
def Party.wanted (p : Party) : List Message := p.receives.map Prod.fst

/-! ### One event -/

variable {cfg : Config sessions}

def Label.sends : Label → List SendMessage
  | .send _ message => [message]
  | _ => []

def Label.requests : Label → List ConsistencyCheck
  | .request _ check => [check]
  | _ => []

def Label.wants : Label → List Message
  | .receive _ message => [message]
  | _ => []

/-- The messages of the consistency task are checks. -/
theorem isConsistencyCheck_of_checksSent {f : Features} {t : Consistency.Task f}
    {s : Consistency.State} {input : Consistency.Input} {m : SendMessage} {r : PartyID}
    (h : (m, r) ∈ Consistency.checksSent (Consistency.step t s input).2) :
    m.metadata.kind.isConsistencyCheck = true := by
  obtain ⟨key, -, hnotified⟩ := Consistency.notified_of_checksSent h
  obtain ⟨key', data, -, rfl, -⟩ := Consistency.mem_notified hnotified
  exact MessageKind.toCheck_isConsistencyCheck key'.kind

theorem sentData_act (l : Label) (p : Party)
    (hsends : ∀ m ∈ l.sends, m.metadata.kind.isConsistencyCheck = false) :
    (l.act cfg p).sentData = p.sentData ++ l.sends := by
  rw [Party.sentData, sent_act, List.filter_append]
  congr 1
  cases l with
  | consistencyStep party net =>
      show _ = ([] : List SendMessage)
      rw [List.filter_eq_nil_iff]
      intro m hm
      simp only [Label.signs] at hm
      split at hm
      · cases hm
      · obtain ⟨⟨m', r⟩, hsent, rfl⟩ := List.mem_map.mp hm
        simp [isConsistencyCheck_of_checksSent hsent]
  | send party message =>
      have hkind := hsends message (List.mem_singleton.mpr rfl)
      simp [Label.signs, Label.sends, hkind]
  | _ => rfl

theorem requested_act (l : Label) (p : Party) :
    (l.act cfg p).requested = p.requested ++ l.requests := by
  rw [Party.requested, consistencyLog_act, List.flatMap_append]
  congr 1
  cases l with
  | deliver party stream =>
      show (cfg.checked stream).flatMap _ = []
      unfold Config.checked
      split
      · rfl
      · rename_i data _ _
        cases data <;> rfl
      · rfl
  | _ => rfl

theorem wanted_act (l : Label) (p : Party) :
    (l.act cfg p).wanted = p.wanted ++ l.wants := by
  rw [Party.wanted, Party.receives, dataLog_act, MessageBuffer.requests_append, List.map_append]
  congr 1
  cases l with
  | forward party n =>
      simp only [Label.dataCommands, Label.wants]
      cases p.handlers[n]? <;> rfl
  | _ => rfl

/-- A party processes the commands of the message buffer in the order in which they were sent. -/
theorem commands_act (l : Label) (p : Party) :
    (l.act cfg p).commands = p.commands ∨
      ∃ command, (l.act cfg p).commands = p.commands ++ [command] := by
  cases l with
  | deliver party stream => exact .inl (p.deliver_eq cfg stream).2.2.2.2.2.1
  | forward party n =>
      left
      simp only [Label.act, Party.forward]
      split <;> rfl
  | dataStep party =>
      simp only [Label.act, Party.dataStep]
      split
      · exact .inl rfl
      · exact .inr ⟨_, rfl⟩
  | consistencyStep party net =>
      left
      simp only [Label.act, Party.consistencyStep]
      split <;> rfl
  | _ => exact .inl rfl

/-- **What was answered stays answered.** -/
theorem answered_act {l : Label} {p : Party} {t : Consistency.Task (collective sessions)}
    {channel : AnswerChannel} (h : p.answered t channel = true) :
    (l.act cfg p).answered t channel = true := by
  rw [Party.answered, decide_eq_true_eq] at h ⊢
  rcases inputs_act cfg l p with heq | ⟨_, _, _, _, -, -, heq⟩
  · rwa [Party.consistency, heq]
  · rw [Party.consistency, heq, Consistency.run_concat, Consistency.answersOf_append]
    exact List.mem_append_left _ h

theorem received_act {l : Label} {p : Party} {e : Message × AnswerChannel}
    (h : p.received e = true) : (l.act cfg p).received e = true := by
  rcases (commands_act l p : (l.act cfg p).commands = p.commands ∨ _) with heq | ⟨command, heq⟩
  · rwa [Party.received, Party.buffer, heq]
  · rw [Party.received, Party.buffer, heq, MessageBuffer.run, exec_concat,
      MessageBuffer.answers_append, List.any_append, Bool.or_eq_true]
    exact .inl h

/-! ## Sessions -/

/-- The bytes of a message besides its payload. -/
def Config.overhead (cfg : Config sessions) : ℕ := 80 + cfg.session.elim (fun _ => 16) 0

/-- **What a session of honest parties relies on.** All parties take their calls from one history,
whose collectives have their places among the parties; no call panics; hashes do not collide and
IDs are distinct; and signatures verify under the configured keys. -/
structure Setup.Valid (setup : Setup sessions δ) (history : List Operation) : Prop where
  checked : setup.build.collectiveConsistency = true
  capacity : 0 < setup.capacity
  programs : ∀ p ∈ setup.parties,
    (setup.program p).map Call.operation = history.filter fun o => o.party p
  outside : ∀ p, p ∉ setup.parties → setup.program p = []
  placed : ∀ p ∈ setup.parties, ∀ o ∈ history, o.party p = true →
    ∀ i ∈ o.collectives, i.party p = true
  closed : ∀ o ∈ history, ∀ i ∈ o.collectives, ∀ q ∈ i.parties, q ∈ setup.parties
  returns : ∀ p ∈ setup.parties, ((QueueState.initial δ p).calls setup.build setup.cfg.crypto.hash
    ((setup.program p).map fun call => (call, true))).isSome = true
  hashes : Collective.CollisionFree setup.cfg.crypto.hash (history.flatMap Operation.collectives)
  ids : Collective.DistinctIDs setup.cfg.crypto.hash (history.flatMap Operation.collectives)
  keys : ∀ p ∈ setup.parties, ∃ key, setup.cfg.verificationKeys p = some key ∧
    ∀ bytes, setup.cfg.crypto.verify key bytes
      (setup.cfg.crypto.sign (setup.cfg.signingKey p) bytes).1 = true
  sizes : ∀ o ∈ history, ∀ i ∈ o.collectives,
    setup.cfg.overhead + i.size.toNat ≤ messageSizeLimit
  honest : ∀ p ∈ setup.parties, setup.cfg.honest p = true

/-! ### Three parties -/

namespace Recorded

theorem length_tag (hash hash' : Hash) : (hash.1 ++ hash'.1).length = signatureSize := by
  rw [List.length_append, hash.2, hash'.2]
  rfl

/-- Tags that verify under the key they were made with, from the recorded hash function. -/
def tag (key : PrivateKey) (bytes : List Byte) : Signature :=
  ⟨(digestHash (key ++ bytes)).1 ++ (digestHash (bytes ++ key)).1, length_tag _ _⟩

/-- The three parties that execute the recorded history. The pointers of party `p` point to bytes
`p`, and there is room for two messages in a channel. -/
def threeParties : Setup true Unit where
  cfg :=
    { crypto := ⟨digestHash, tag, fun key bytes signature => decide (signature = (tag key bytes).1)⟩
      session := (5 : SessionID)
      signingKey := toLeBytes 2
      verificationKeys := fun party => some (toLeBytes 2 party)
      honest := fun _ => true }
  build := checkedBuild
  parties := {0, 1, 2}
  program party :=
    if party ∈ ({0, 1, 2} : Finset PartyID) then
      (history.filter fun o => o.party party).map (callOf party)
    else []
  memory party _ _ := BitVec.setWidth 8 party
  capacity := 2

theorem closed_of_history : ∀ o ∈ history, ∀ i ∈ o.collectives, ∀ q ∈ i.parties,
    q ∈ ({0, 1, 2} : Finset PartyID) := by
  have hall : (history.all fun o => o.collectives.all fun i =>
      i.parties.all fun q => q == 0 || q == 1 || q == 2) = true := by decide +kernel
  intro o ho i hi q hq
  have hone := List.all_eq_true.mp (List.all_eq_true.mp (List.all_eq_true.mp hall o ho) i hi) q hq
  simpa [or_assoc] using hone

theorem threeParties_valid : threeParties.Valid history where
  checked := rfl
  capacity := Nat.two_pos
  programs := forall_three rfl rfl rfl
  outside p hp := if_neg hp
  placed := forall_three (by decide +kernel) (by decide +kernel) (by decide +kernel)
  closed := closed_of_history
  returns := forall_three (by decide +kernel) (by decide +kernel) (by decide +kernel)
  hashes := by decide +kernel
  ids := by decide +kernel
  keys p _ := ⟨toLeBytes 2 p, rfl, fun _ => decide_eq_true rfl⟩
  sizes := by decide +kernel
  honest _ _ := rfl

end Recorded

/-! ## A queue in the middle of its program -/

/-- A queue has not started, or it is in a call: `current` is what that call does, after `before`,
whose actions are all done. -/
inductive Stage (setup : Setup sessions δ) (party : PartyID) (p : Party) (c : Control δ) : Prop
  | start (initial : c = ⟨.initial δ party, setup.program party, [], none, []⟩)
  | running {earlier : List (Call δ)} {call : Call δ} {before : QueueState δ}
      {current : List (Action δ)}
      (program : setup.program party = earlier ++ call :: c.program)
      (calls : (QueueState.initial δ party).calls setup.build setup.cfg.crypto.hash
        (earlier.map fun call => (call, true)) = some before)
      (returns : before.call setup.build setup.cfg.crypto.hash (call, true) = some c.queue)
      (log : c.queue.log = before.log ++ current)
      (pending : c.pending ⊆ current)
      (first : ∀ a ∈ current.tail, a.isWait = false)
      (wait : .ensureConsistency ∈ c.pending → c.pending = current)
      (sent : ∀ m ∈ before.log.flatMap (setup.sendOf party), m ∈ p.sentData)
      (received : ∀ m ∈ before.log.flatMap Action.receiveOf, ∃ channel,
        (m, channel) ∈ p.receives ∧ p.received (m, channel) = true)
      (requested : ∀ check ∈ before.log.flatMap Action.requestOf, check ∈ p.requested)
      (blocked : ∀ channel, c.waiting = some channel →
        p.answered (setup.cfg.task party) channel = false →
        ∀ check ∈ p.requested, check ∈ before.log.flatMap Action.requestOf)

/-- What the party of a queue has done is what the queue has started, without what is pending. -/
structure Queued (setup : Setup sessions δ) (party : PartyID) (p : Party) (c : Control δ) :
    Prop where
  stage : Stage setup party p c
  sends : (p.sentData ++ c.pending.flatMap (setup.sendOf party)).Perm
    (c.queue.log.flatMap (setup.sendOf party))
  wants : (p.wanted ++ c.pending.flatMap Action.receiveOf).Perm
    (c.queue.log.flatMap Action.receiveOf)
  requests : (p.requested ++ c.pending.flatMap Action.requestOf).Perm
    (c.queue.log.flatMap Action.requestOf)
  receiving : ∀ e ∈ p.receives, e ∈ c.receiving ∨ p.received e = true
  issued : ∀ e ∈ c.receiving, e ∈ p.receives
  waiting : ∀ channel, c.waiting = some channel → .wait channel ∈ p.consistencyLog

section Queued

variable {setup : Setup sessions δ} {party : PartyID} {p : Party} {c : Control δ}

theorem Stage.started (h : Stage setup party p c) : ∃ started : List (Call δ),
    setup.program party = started ++ c.program ∧
      (QueueState.initial δ party).calls setup.build setup.cfg.crypto.hash
        (started.map fun call => (call, true)) = some c.queue := by
  cases h with
  | start hinitial =>
      subst hinitial
      exact ⟨[], rfl, rfl⟩
  | @running earlier call before current hprogram hcalls hreturns =>
      refine ⟨earlier ++ [call], by simp [hprogram], ?_⟩
      rw [List.map_append, QueueState.calls, List.foldlM_append]
      exact Option.bind_eq_some_iff.mpr ⟨before, hcalls, by simp [hreturns]⟩

theorem Stage.pending_subset (h : Stage setup party p c) : c.pending ⊆ c.queue.log := by
  cases h with
  | start hinitial =>
      subst hinitial
      exact List.nil_subset _
  | running _ _ _ hlog hpending =>
      rw [hlog]
      exact fun a ha => List.mem_append_right _ (hpending ha)

/-- What a call does: it may wait first, and never later. -/
theorem log_call {s s' : QueueState δ} {call : Call δ} {build : QueueBuild}
    {hash : List Byte → Hash} (h : s.call build hash (call, true) = some s') :
    ∃ current, s'.log = s.log ++ current ∧ ∀ a ∈ current.tail, a.isWait = false := by
  obtain ⟨s₁, s₂, hensure, hround, hemits⟩ := (gated_call h).start
  obtain ⟨body, hlog, hwait, -⟩ := hemits.log
  obtain ⟨actions, hdoes, hactions⟩ := does_ensureConsistency hensure
  refine ⟨actions ++ body, ?_, ?_⟩
  · rw [hlog, (does_nextRound hround).log, hdoes.log, List.append_nil, List.append_assoc]
  · rcases hactions with rfl | rfl
    · exact fun a ha => hwait a (List.mem_of_mem_tail ha)
    · exact hwait

theorem queued_initial : Queued setup party Party.initial
    ⟨.initial δ party, setup.program party, [], none, []⟩ :=
  ⟨.start rfl, .refl _, .refl _, .refl _, nofun, nofun, nofun⟩

/-- **The next call starts** when the one before has returned. -/
theorem queued_call {call : Call δ} {program : List (Call δ)} {queue : QueueState δ}
    (h : Queued setup party p c) (hidle : c.idle p (setup.cfg.task party) = true)
    (hprogram : c.program = call :: program)
    (hcall : c.queue.call setup.build setup.cfg.crypto.hash (call, true) = some queue) :
    Queued setup party p ⟨queue, program, queue.log.drop c.queue.log.length, none, []⟩ := by
  obtain ⟨current, hlog, hfirst⟩ := log_call hcall
  obtain ⟨started, hstarted, hcalls⟩ := h.stage.started
  simp only [Control.idle, Bool.and_eq_true, List.isEmpty_iff] at hidle
  obtain ⟨⟨-, hpending⟩, hreceiving⟩ := hidle
  have hsends := h.sends
  have hwants := h.wants
  have hrequests := h.requests
  rw [hpending, List.flatMap_nil, List.append_nil] at hsends hwants hrequests
  have hreceived : ∀ e ∈ p.receives, p.received e = true := fun e he =>
    (h.receiving e he).elim (List.all_eq_true.mp hreceiving e) id
  rw [hlog, List.drop_left]
  refine ⟨.running (by rw [hstarted, hprogram]) hcalls
      hcall hlog (List.Subset.refl _) hfirst (fun _ => rfl) (fun m hm => hsends.mem_iff.mpr hm)
      (fun m hm => ?_) (fun check hcheck => hrequests.mem_iff.mpr hcheck)
      nofun, ?_, ?_, ?_,
    fun e he => .inr (hreceived e he), nofun, nofun⟩
  · obtain ⟨e, he, rfl⟩ := List.mem_map.mp (hwants.mem_iff.mpr hm)
    exact ⟨e.2, he, hreceived e he⟩
  · simp only [hlog, List.flatMap_append]
    exact hsends.append_right _
  · simp only [hlog, List.flatMap_append]
    exact hwants.append_right _
  · simp only [hlog, List.flatMap_append]
    exact hrequests.append_right _

/-- **An event that is not one of the queue.** -/
theorem queued_event {l : Label} (h : Queued setup party p c) (hsends : l.sends = [])
    (hwants : l.wants = []) (hrequests : l.requests = []) :
    Queued setup party (l.act setup.cfg p) c := by
  have hsent : (l.act setup.cfg p).sentData = p.sentData := by
    rw [sentData_act l p (by simp [hsends]), hsends, List.append_nil]
  have hrequested : (l.act setup.cfg p).requested = p.requested := by
    rw [requested_act, hrequests, List.append_nil]
  have hwanted : (l.act setup.cfg p).wanted = p.wanted := by
    rw [wanted_act, hwants, List.append_nil]
  have hreceives : (l.act setup.cfg p).receives = p.receives := by
    rw [Party.receives, dataLog_act, MessageBuffer.requests_append]
    cases l with
    | receive party message => cases hwants
    | forward party n =>
        simp only [Label.dataCommands]
        cases p.handlers[n]? <;> exact List.append_nil _
    | _ => exact List.append_nil _
  refine ⟨?_, by rw [hsent]; exact h.sends, by rw [hwanted]; exact h.wants,
    by rw [hrequested]; exact h.requests, fun e he => ?_, fun e he => hreceives ▸ h.issued e he,
    fun channel hchannel => ?_⟩
  · cases h.stage with
    | start hinitial => exact .start hinitial
    | running hprogram hcalls hreturns hlog hpending hfirst hwait hdone hreceived hasked hblocked =>
        refine .running hprogram hcalls hreturns hlog hpending hfirst hwait
          (by rw [hsent]; exact hdone) (fun m hm => ?_) (by rw [hrequested]; exact hasked)
          fun channel hchannel hanswer => ?_
        · obtain ⟨channel, hmem, hanswer⟩ := hreceived m hm
          exact ⟨channel, hreceives ▸ hmem, received_act hanswer⟩
        · rw [hrequested]
          refine hblocked channel hchannel ?_
          by_contra hnot
          rw [answered_act (by simpa using hnot)] at hanswer
          cases hanswer
  · exact (h.receiving e (hreceives ▸ he)).imp_right received_act
  · rw [consistencyLog_act]
    exact List.mem_append_left _ (h.waiting channel hchannel)

/-- What the label of an action adds to the lists of the party is what the action is. -/
theorem lists_label (action : Action δ) :
    (setup.label party action).sends = setup.sendOf party action ∧
      (setup.label party action).wants = action.receiveOf ∧
      (setup.label party action).requests = action.requestOf := by
  cases action <;> exact ⟨rfl, rfl, rfl⟩

theorem receives_label (action : Action δ) :
    ((setup.label party action).act setup.cfg p).receives =
      p.receives ++ action.receiveOf.map fun m => (m, p.nextChannel) := by
  rw [Party.receives, dataLog_act, MessageBuffer.requests_append]
  cases action <;> rfl

theorem perm_of_pending {β : Type} {f : Action δ → List β} {n : ℕ} {action : Action δ}
    {actions : List (Action δ)} (h : actions[n]? = some action) :
    (f action ++ (actions.eraseIdx n).flatMap f).Perm (actions.flatMap f) := by
  obtain ⟨hn, rfl⟩ := List.getElem?_eq_some_iff.mp h
  have hperm := (List.getElem_cons_eraseIdx_perm hn).flatMap_right f
  rwa [List.flatMap_cons] at hperm

/-- A wait is no task, and the first action of its call. -/
theorem not_wait_of_erase {pending current : List (Action δ)} {n : ℕ}
    (hfirst : ∀ a ∈ current.tail, a.isWait = false)
    (hwait : .ensureConsistency ∈ pending → pending = current)
    (htasks : (pending.take n).all Action.isTask = true)
    (h : .ensureConsistency ∈ pending.eraseIdx n) : False := by
  obtain rfl := hwait (List.mem_of_mem_eraseIdx h)
  cases pending with
  | nil => cases h
  | cons a rest =>
      cases n with
      | zero => cases hfirst _ h
      | succ n =>
          rcases List.mem_cons.mp (List.mem_of_mem_eraseIdx h) with rfl | hrest
          · simp [Action.isTask] at htasks
          · cases hfirst _ hrest

theorem Control.await_eq (c : Control δ) (n : ℕ) (channel : AnswerChannel) (action : Action δ) :
    let c' := { c with pending := c.pending.eraseIdx n }.await channel action
    c'.queue = c.queue ∧ c'.pending = c.pending.eraseIdx n ∧ c'.program = c.program := by
  cases action <;> exact ⟨rfl, rfl, rfl⟩

theorem Control.await_waiting {c : Control δ} {channel : AnswerChannel} {action : Action δ}
    (h : action ≠ .ensureConsistency) : (c.await channel action).waiting = c.waiting := by
  cases action with
  | ensureConsistency => exact absurd rfl h
  | _ => rfl

theorem Control.await_receiving (c : Control δ) (channel : AnswerChannel) (action : Action δ) :
    (c.await channel action).receiving =
      c.receiving ++ action.receiveOf.map fun m => (m, channel) := by
  cases action with
  | receive message data => rfl
  | _ => exact (List.append_nil _).symm

/-- **One action of the running call.** -/
theorem queued_act {n : ℕ} {action : Action δ} (h : Queued setup party p c)
    (hready : c.ready p (setup.cfg.task party) = true)
    (htasks : (c.pending.take n).all Action.isTask = true) (hpending : c.pending[n]? = some action)
    (hdata : ∀ m ∈ setup.sendOf party action, m.metadata.kind.isConsistencyCheck = false) :
    Queued setup party ((setup.label party action).act setup.cfg p)
      ({ c with pending := c.pending.eraseIdx n }.await p.nextChannel action) := by
  obtain ⟨hsends, hwants, hrequests⟩ : (setup.label party action).sends =
      setup.sendOf party action ∧ _ := lists_label action
  have hsent : ((setup.label party action).act setup.cfg p).sentData =
      p.sentData ++ setup.sendOf party action := by
    rw [sentData_act _ _ (by rwa [hsends]), hsends]
  have hrequested : ((setup.label party action).act setup.cfg p).requested =
      p.requested ++ action.requestOf := by
    rw [requested_act, hrequests]
  have hwanted : ((setup.label party action).act setup.cfg p).wanted =
      p.wanted ++ action.receiveOf := by
    rw [wanted_act, hwants]
  have herase {β : Type} {f : Action δ → List β} {done all : List β}
      (hperm : (done ++ c.pending.flatMap f).Perm all) :
      (done ++ f action ++ (c.pending.eraseIdx n).flatMap f).Perm all := by
    rw [List.append_assoc]
    exact ((perm_of_pending hpending).append_left done).trans hperm
  have hmem : action ∈ c.pending := List.mem_of_getElem? hpending
  obtain ⟨hqueue, hrest, hprogram⟩ := c.await_eq n p.nextChannel action
  refine ⟨?_, ?_, ?_, ?_, fun e he => ?_, fun e he => ?_, fun channel hchannel => ?_⟩
  · cases h.stage with
    | start hinitial =>
        subst hinitial
        cases hmem
    | @running earlier call before current hprogram' hcalls hreturns hlog hsubset hfirst hwait
        hdone hreceived hasked hblocked =>
        refine .running (by rw [hprogram]; exact hprogram') hcalls (by rw [hqueue]; exact hreturns)
          (by rw [hqueue]; exact hlog) ?_ hfirst (fun hagain => ?_) (fun m hm => ?_)
          (fun m hm => ?_) (fun check hcheck => ?_) fun channel hchannel hanswer check hcheck => ?_
        · rw [hrest]
          exact fun a ha => hsubset (List.mem_of_mem_eraseIdx ha)
        · rw [hrest] at hagain
          exact (not_wait_of_erase hfirst hwait htasks hagain).elim
        · rw [hsent]
          exact List.mem_append_left _ (hdone m hm)
        · obtain ⟨channel, hm, hanswer⟩ := hreceived m hm
          rw [receives_label]
          exact ⟨channel, List.mem_append_left _ hm, received_act hanswer⟩
        · rw [hrequested]
          exact List.mem_append_left _ (hasked check hcheck)
        · -- a wait is the first action of its call, so nothing of this call was requested before
          by_cases hensure : action = .ensureConsistency
          · subst hensure
            rw [hrequested] at hcheck
            have hperm := h.requests
            rw [hwait hmem, hlog, List.flatMap_append, List.perm_append_right_iff] at hperm
            exact hperm.mem_iff.mp (by simpa [Action.requestOf] using hcheck)
          · rw [Control.await_waiting hensure] at hchannel
            have hbefore : p.answered (setup.cfg.task party) channel = true :=
              (Option.all_eq_true _ _).mp hready channel hchannel
            rw [answered_act hbefore] at hanswer
            cases hanswer
  · rw [hsent, hrest, hqueue]
    exact herase h.sends
  · rw [hwanted, hrest, hqueue]
    exact herase h.wants
  · rw [hrequested, hrest, hqueue]
    exact herase h.requests
  · rw [receives_label] at he
    rw [Control.await_receiving]
    rcases List.mem_append.mp he with hold | hnew
    · exact (h.receiving e hold).imp (List.mem_append_left _) received_act
    · exact .inl (List.mem_append_right _ hnew)
  · rw [Control.await_receiving] at he
    rw [receives_label]
    exact (List.mem_append.mp he).elim (fun hold => List.mem_append_left _ (h.issued e hold))
      (List.mem_append_right _)
  · rw [consistencyLog_act]
    by_cases hensure : action = .ensureConsistency
    · subst hensure
      obtain rfl : p.nextChannel = channel := Option.some.inj hchannel
      exact List.mem_append_right _ (List.mem_singleton.mpr rfl)
    · rw [Control.await_waiting hensure] at hchannel
      exact List.mem_append_left _ (h.waiting channel hchannel)

end Queued

end Hmpc.Net
