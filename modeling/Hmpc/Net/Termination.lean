/-
# Hmpc.Net.Termination -- every session of honest parties completes

Every step uses up some of the work there is to do. A command that sends check messages counts for
all the messages it may send, a message in flight for the commands it becomes, and an action for
the message it sends. So every run ends; and where it ends, every call has returned and every
receive has got the bytes of its sender.
-/
import Mathlib.Algebra.BigOperators.Group.Finset.Basic
import Mathlib.Algebra.Group.Action.Defs
import Mathlib.Algebra.Order.BigOperators.Group.List
import Hmpc.Net.Completion

namespace Hmpc.Net

open Hmpc.Lib Hmpc.Lib.Matching

variable {sessions : Bool} {δ : Type} {setup : Setup sessions δ} {history : List Operation}

/-! ## The work there is to do -/

/-- How many parties there can be. -/
def allParties : ℕ := 2 ^ 16

def Consistency.Command.work : Consistency.Command → ℕ
  | .request _ | .receivedData _ => 1 + 2 * allParties
  | .receivedCheck _ | .wait _ => 1

/-- A stream becomes a check, or a hash and a message that a handler passes on. -/
def Config.work (cfg : Config sessions) (stream : List Byte) : ℕ :=
  match cfg.handle stream with
  | .check _ => 2
  | .message _ _ => 4 + 2 * allParties
  | _ => 1

def Party.work (p : Party) : ℕ :=
  (p.consistencyChannel.map Consistency.Command.work).sum + p.dataChannel.length +
    2 * p.handlers.length

/-- What an action becomes, and the action itself. -/
def actionWork : ℕ := 5 + 2 * allParties

/-- The number of actions of the calls that have not started. -/
def Setup.toStart (setup : Setup sessions δ) (c : Control δ) : ℕ :=
  ((c.queue.calls setup.build setup.cfg.crypto.hash (c.program.map fun call => (call, true))).map
    fun queue => queue.log.length - c.queue.log.length).getD 0

def Setup.controlWork (setup : Setup sessions δ) (c : Control δ) : ℕ :=
  c.program.length + actionWork * (c.pending.length + setup.toStart c)

def Setup.work (setup : Setup sessions δ) (s : System δ) : ℕ :=
  ∑ p ∈ setup.parties, ((s.parties p).work + setup.controlWork (s.controls p)) +
    (s.network.map fun e => setup.cfg.work e.2).sum

/-! ## Events at a party -/

theorem work_le (cfg : Config sessions) (stream : List Byte) :
    1 ≤ cfg.work stream ∧ cfg.work stream ≤ 4 + 2 * allParties := by
  unfold Config.work
  split <;> omega

theorem work_deliver (cfg : Config sessions) (stream : List Byte) (p : Party) :
    (p.deliver cfg stream).work + 1 ≤ p.work + cfg.work stream := by
  cases hread : cfg.read stream with
  | error e =>
      have hdeliver : p.deliver cfg stream = p := by simp [Party.deliver, hread]
      rw [hdeliver]
      exact Nat.add_le_add_left (work_le cfg stream).1 _
  | ok a =>
      rcases Config.handle_cases hread with ⟨-, -, ⟨check, -, hhandle⟩ | hhandle⟩ | ⟨-, hhandle⟩
      · simp only [Party.deliver, hread, hhandle, Config.work, Party.work, List.map_append,
          List.sum_append, List.map_cons, List.map_nil, List.sum_cons, List.sum_nil,
          Consistency.Command.work]
        omega
      · simp only [Party.deliver, hread, hhandle, Config.work, Party.work]
        omega
      · have hdata : (((a.1.tryIntoData cfg.crypto a.2).map
            Consistency.Command.receivedData).toList.map Consistency.Command.work).sum ≤
              1 + 2 * allParties := by
          cases a.1.tryIntoData cfg.crypto a.2 with
          | none => exact Nat.zero_le _
          | some data => exact Nat.le_of_eq (List.sum_singleton)
        simp only [Party.deliver, hread, hhandle, Config.work, Party.work, List.map_append,
          List.sum_append, List.length_append, List.length_singleton]
        omega

theorem work_forward {p : Party} {n : ℕ} (hn : n < p.handlers.length) :
    (p.forward n).work < p.work := by
  simp only [Party.forward, List.getElem?_eq_getElem hn, Party.work, List.length_append,
    List.length_singleton, List.length_eraseIdx_of_lt hn]
  omega

theorem work_dataStep {p : Party} (hsent : p.dataChannel ≠ []) : p.dataStep.work < p.work := by
  obtain ⟨command, rest, hchannel⟩ := List.exists_cons_of_ne_nil hsent
  simp only [Party.dataStep, hchannel, Party.work, List.length_cons]
  omega

theorem length_le_of_nodup {parties : List PartyID} (h : parties.Nodup) :
    parties.length ≤ allParties := by
  have hcard := (h.map fun (_ _ : PartyID) heq => BitVec.eq_of_toFin_eq heq).length_le_card
  rw [List.length_map, Fintype.card_fin] at hcard
  exact hcard

theorem length_notifyParties {id : PartyID} {key : Consistency.Key} {received : Option
    Consistency.CheckData} {receivers : List PartyID} (h : receivers.Nodup) :
    (Consistency.checksSent (received.elim [] fun data =>
      Consistency.notifyParties id key data (fun _ => .ok) receivers)).length ≤ allParties := by
  cases received with
  | none => exact Nat.zero_le _
  | some data =>
      rw [Option.elim_some, Consistency.checksSent_notifyParties fun _ => rfl, List.length_map]
      exact length_le_of_nodup h

/-- A command sends at most one check message to each party. -/
theorem length_notified {f : Features} (t : Consistency.Task f) (entry : Option Consistency.Value)
    (op : Consistency.Op) :
    (Consistency.checksSent (Consistency.notified t (fun _ => .ok) entry op)).length ≤
      allParties := by
  cases entry with
  | none => cases op <;> exact Nat.zero_le _
  | some v =>
      cases op with
      | request key receivers =>
          simp only [Consistency.notified, Option.elim_some, Consistency.onRequest]
          split
          · exact Nat.zero_le _
          · exact Nat.zero_le _
          · exact length_notifyParties receivers.nodup
      | data key received =>
          simp only [Consistency.notified, Option.elim_some, Consistency.onData]
          split
          · exact Nat.zero_le _
          · exact Nat.zero_le _
          · exact length_notifyParties (AList.keys_nodup _)
      | _ => exact Nat.zero_le _

theorem work_checksSent {f : Features} (t : Consistency.Task f) (s : Consistency.State)
    (command : Consistency.Command) :
    2 * (Consistency.checksSent
      (Consistency.step t s ⟨command, fun _ => .ok⟩).2).length + 1 ≤ command.work := by
  have hsent {key : Consistency.Key} (hkey : command.op.key? = some key) :
      Consistency.checksSent (Consistency.step t s ⟨command, fun _ => .ok⟩).2 =
        Consistency.checksSent (Consistency.notified t (fun _ => .ok)
          (s.consistency.lookup key) command.op) :=
    Consistency.checksSent_stepOp t _ s hkey
  have hlength {key : Consistency.Key} (hkey : command.op.key? = some key) :
      (Consistency.checksSent (Consistency.step t s ⟨command, fun _ => .ok⟩).2).length ≤
        allParties := by
    rw [hsent hkey]
    exact length_notified t _ _
  cases command with
  | wait channel =>
      have hnone : Consistency.checksSent
          (Consistency.step t s ⟨.wait channel, fun _ => .ok⟩).2 = [] := by
        simp only [Consistency.step, Consistency.stepOp, Consistency.Command.op]
        split <;> rfl
      rw [hnone]
      exact Nat.le_refl 1
  | receivedCheck check =>
      rw [hsent rfl]
      exact Nat.le_refl 1
  | request check =>
      have := hlength rfl
      rw [Consistency.Command.work]
      omega
  | receivedData data =>
      have := hlength rfl
      rw [Consistency.Command.work]
      omega

/-- A check message counts for its arrival and the command it becomes. -/
theorem work_checkMessage (p : PartyID) (key : Consistency.Key) (data : Consistency.CheckData) :
    setup.cfg.work (setup.stream p (Consistency.checkMessage p key data)) ≤ 2 := by
  unfold Config.work
  cases hread : setup.cfg.read (setup.stream p (Consistency.checkMessage p key data)) with
  | error e =>
      rw [Config.handle_of_error hread]
      exact Nat.le_succ 1
  | ok a =>
      obtain ⟨hmeta, -⟩ := eq_of_readFrom_writeTo hread
      rcases Config.handle_cases hread with
        ⟨-, -, ⟨check, -, hhandle⟩ | hhandle⟩ | ⟨hkind, -⟩
      · rw [hhandle]
      · rw [hhandle]
        exact Nat.le_succ 1
      · exfalso
        have hcheck := MessageKind.toCheck_isConsistencyCheck key.kind
        rw [show a.1.metadata.kind = MessageKind.toCheck key.kind from
          congrArg (fun m : ReceiveMessage => m.metadata.kind) hmeta, hcheck] at hkind
        cases hkind

theorem work_consistencyStep (setup : Setup sessions δ) (p : PartyID) {x : Party}
    (hsent : x.consistencyChannel ≠ []) :
    (x.consistencyStep (setup.cfg.task p) fun _ => .ok).work +
      ((setup.checkStreams p x).map fun e => setup.cfg.work e.2).sum < x.work := by
  obtain ⟨command, rest, hchannel⟩ := List.exists_cons_of_ne_nil hsent
  have hcommand := work_checksSent (setup.cfg.task p) (x.consistency (setup.cfg.task p)).1 command
  have hstreams : ((setup.checkStreams p x).map fun e => setup.cfg.work e.2).sum ≤
      (setup.checkStreams p x).length * 2 := by
    have hle := List.sum_le_card_nsmul ((setup.checkStreams p x).map fun e => setup.cfg.work e.2) 2
      fun w hw => ?_
    · rwa [List.length_map, smul_eq_mul] at hle
    · obtain ⟨e, he, rfl⟩ := List.mem_map.mp hw
      simp only [Setup.checkStreams, hchannel, List.mem_map] at he
      obtain ⟨⟨m, r⟩, hm, rfl⟩ := he
      obtain ⟨key, -, hnotified⟩ := Consistency.notified_of_checksSent hm
      obtain ⟨key', data, -, rfl, -⟩ := Consistency.mem_notified hnotified
      exact work_checkMessage p key' data
  have hlength : (setup.checkStreams p x).length =
      (Consistency.checksSent (Consistency.step (setup.cfg.task p)
        (x.consistency (setup.cfg.task p)).1 ⟨command, fun _ => .ok⟩).2).length := by
    simp only [Setup.checkStreams, hchannel, List.length_map]
  have hwork : x.work = command.work + (rest.map Consistency.Command.work).sum +
      x.dataChannel.length + 2 * x.handlers.length := by
    simp only [Party.work, hchannel, List.map_cons, List.sum_cons]
  simp only [Party.consistencyStep, hchannel, Party.work] at hwork ⊢
  omega

/-- An action becomes less than it counted for. -/
theorem work_label (setup : Setup sessions δ) (p : PartyID) (x : Party) (action : Action δ) :
    ((setup.label p action).act setup.cfg x).work +
      ((setup.streams p action).map fun e => setup.cfg.work e.2).sum < x.work + actionWork := by
  cases action with
  | send message data =>
      have hle := (work_le setup.cfg (setup.stream p (setup.sent p message data))).2
      show x.work + (List.map _ [_]).sum < _
      rw [List.map_singleton, List.sum_singleton, actionWork]
      simp only
      omega
  | _ =>
      simp only [Setup.label, Label.act, Party.wait, Party.request, Party.receive, Party.work,
        Setup.streams, List.map_append, List.sum_append, List.map_cons, List.map_nil,
        List.sum_cons, List.sum_nil, Consistency.Command.work, actionWork, List.length_append,
        List.length_singleton]
      omega

/-! ## Every step -/

/-- One term of a sum and something besides it change. -/
theorem sum_add_lt {α : Type} [DecidableEq α] {parties : Finset α} {f g : α → ℕ} {p : α} {a b : ℕ}
    (hp : p ∈ parties) (hsame : ∀ q ∈ parties, q ≠ p → f q = g q) (hlt : f p + a < g p + b) :
    ∑ q ∈ parties, f q + a < ∑ q ∈ parties, g q + b := by
  have hrest : ∑ q ∈ parties.erase p, f q = ∑ q ∈ parties.erase p, g q :=
    Finset.sum_congr rfl fun q hq =>
      hsame q (Finset.mem_of_mem_erase hq) (Finset.ne_of_mem_erase hq)
  rw [← Finset.add_sum_erase parties f hp, ← Finset.add_sum_erase parties g hp, hrest]
  omega

/-- The calls of a queue go on as planned. -/
theorem Queued.exists_final {p : PartyID} {x : Party} {c : Control δ}
    (hvalid : setup.Valid history) (hp : p ∈ setup.parties) (h : Queued setup p x c) :
    ∃ queue, c.queue.calls setup.build setup.cfg.crypto.hash
      (c.program.map fun call => (call, true)) = some queue := by
  obtain ⟨started, hstarted, hcalls⟩ := h.stage.started
  obtain ⟨queue, hqueue⟩ := Option.isSome_iff_exists.mp (hvalid.returns p hp)
  rw [hstarted, List.map_append, QueueState.calls, List.foldlM_append] at hqueue
  obtain ⟨before, hbefore, hrest⟩ := Option.bind_eq_some_iff.mp hqueue
  obtain rfl : c.queue = before := Option.some.inj (hcalls.symm.trans hbefore)
  exact ⟨queue, hrest⟩

/-- Calls only add to the log. -/
theorem length_log_calls {s s' : QueueState δ} {build : QueueBuild} {hash : List Byte → Hash}
    {calls : List (Call δ)}
    (h : s.calls build hash (calls.map fun call => (call, true)) = some s') :
    s.log.length ≤ s'.log.length := by
  induction calls generalizing s with
  | nil =>
      obtain rfl := Option.some.inj h
      exact Nat.le_refl _
  | cons call calls ih =>
      obtain ⟨s₁, hcall, hrest⟩ := Option.bind_eq_some_iff.mp h
      obtain ⟨current, hlog, -⟩ := log_call hcall
      have hle := ih hrest
      rw [hlog, List.length_append] at hle
      omega

theorem toStart_await (c : Control δ) (n : ℕ) (channel : AnswerChannel) (action : Action δ) :
    setup.controlWork ({ c with pending := c.pending.eraseIdx n }.await channel action) =
      c.program.length + actionWork * ((c.pending.eraseIdx n).length + setup.toStart c) := by
  cases action <;> rfl

/-- **Every step uses up work.** -/
theorem work_step {s s' : System δ} (h : setup.Inv s) (hvalid : setup.Valid history)
    (hstep : setup.Step s s') : setup.work s' < setup.work s := by
  cases hstep with
  | @call party call program queue hidle hrest hreturns =>
      have hparty : party ∈ setup.parties := by
        by_contra hout
        rw [(h.outside party hout).2.1] at hrest
        cases hrest
      refine sum_add_lt hparty (fun q _ hq => by simp only [Function.update_of_ne hq]) ?_
      -- the actions of the call are no longer to start, but pending
      obtain ⟨final, hfinal⟩ := (h.queued party hparty).exists_final hvalid hparty
      rw [hrest, List.map_cons, QueueState.calls, List.foldlM_cons, hreturns] at hfinal
      have hfinal' : queue.calls setup.build setup.cfg.crypto.hash
          (program.map fun call => (call, true)) = some final := hfinal
      have hbefore : setup.toStart (s.controls party) =
          final.log.length - (s.controls party).queue.log.length := by
        rw [Setup.toStart, hrest, List.map_cons, QueueState.calls, List.foldlM_cons, hreturns]
        exact congrArg (fun x : Option ℕ => x.getD 0) (congrArg (Option.map _) hfinal')
      have hlog := length_log_calls hfinal'
      obtain ⟨current, hcurrent, -⟩ := log_call hreturns
      simp only [Function.update_self, Setup.controlWork, hbefore]
      rw [show setup.toStart ⟨queue, program, _, none, []⟩ = final.log.length - queue.log.length by
        rw [Setup.toStart, hfinal']; rfl, hcurrent, List.drop_left, hrest, List.length_cons]
      rw [hcurrent, List.length_append] at hlog
      have hlength : current.length + (final.log.length -
          ((s.controls party).queue.log ++ current).length) =
            final.log.length - (s.controls party).queue.log.length := by
        rw [List.length_append]
        omega
      rw [hlength]
      have hmul : actionWork * (final.log.length - (s.controls party).queue.log.length) ≤
          actionWork * ((s.controls party).pending.length +
            (final.log.length - (s.controls party).queue.log.length)) :=
        Nat.mul_le_mul_left _ (Nat.le_add_left _ _)
      omega
  | @event l c network hcause hfits =>
      have hparty := h.party_of_cause hvalid hcause
      refine sum_add_lt hparty (fun q _ hq => ?_) ?_
      · simp only [step_eq, if_neg hq, Function.update_of_ne hq]
      simp only [step_eq, if_true, Function.update_self]
      cases hcause with
      | @act party n action hready htasks hpending =>
          obtain ⟨hlt, -⟩ := List.getElem?_eq_some_iff.mp hpending
          have hlabel := work_label setup party (s.parties party) action
          rw [toStart_await, List.map_append, List.sum_append, Setup.controlWork,
            List.length_eraseIdx_of_lt hlt]
          simp only [Setup.party_label] at *
          have hmul : actionWork * ((s.controls party).pending.length - 1 +
              setup.toStart (s.controls party)) + actionWork =
                actionWork * ((s.controls party).pending.length +
                  setup.toStart (s.controls party)) := by
            rw [← Nat.mul_succ]
            congr 1
            omega
          omega
      | @arrive party n stream hflight =>
          obtain ⟨hlt, hget⟩ := List.getElem?_eq_some_iff.mp hflight
          have hdeliver := work_deliver setup.cfg stream (s.parties party)
          have hsum := ((List.getElem_cons_eraseIdx_perm hlt).map
            fun e => setup.cfg.work e.2).sum_eq
          rw [List.map_cons, List.sum_cons, hget] at hsum
          simp only [Label.act, Label.party] at *
          omega
      | @forward party n hwaiting =>
          have := work_forward hwaiting
          simp only [Label.act, Label.party] at *
          omega
      | @dataStep party hsent =>
          have := work_dataStep hsent
          simp only [Label.act, Label.party] at *
          omega
      | @consistencyStep party hsent =>
          have := work_consistencyStep setup party hsent
          rw [List.map_append, List.sum_append]
          simp only [Label.act, Label.party] at *
          omega

theorem progress_of_move (hvalid : setup.Valid history) (s : System δ) (m : Move) (s' : System δ)
    (h : setup.Inv s) (hmove : setup.move s m = some s') :
    setup.Inv s' ∧ setup.work s' < setup.work s :=
  ⟨h.step hvalid (Setup.step_of_move hmove), work_step h hvalid (Setup.step_of_move hmove)⟩

/-! ## Completion -/

/-- **No deadlock.** A run that cannot be continued has finished: every queue is at the end of its
program, every wait was answered and every receive has returned. -/
theorem stuck_is_finished (setup : Setup sessions δ) (history : List Operation)
    (hvalid : setup.Valid history) (moves : List Move) (s : System δ)
    (hrun : setup.run moves = some s) (hstuck : ∀ m, setup.move s m = none) :
    setup.Finished s :=
  finished_of_stuck (Setup.inv_run hvalid hrun) hvalid (Setup.fits_run hrun) hstuck

theorem stuck_is_finished_three : ∃ moves s, Recorded.threeParties.run moves = some s ∧
    Recorded.threeParties.Finished s := by
  obtain ⟨moves, s, hrun, hstuck⟩ :=
    exists_run_to_end (Setup.inv_initial Recorded.threeParties_valid)
      (progress_of_move Recorded.threeParties_valid)
  exact ⟨moves, s, hrun, stuck_is_finished Recorded.threeParties Recorded.history
    Recorded.threeParties_valid moves s hrun hstuck⟩

/-- **Every session of honest parties completes.** No run is longer than the work there is at the
start, and every run can be continued to one in which all queues have finished. -/
theorem every_session_completes (setup : Setup sessions δ) (history : List Operation)
    (hvalid : setup.Valid history) (moves : List Move) (s : System δ)
    (hrun : setup.run moves = some s) :
    moves.length ≤ setup.work setup.initial ∧
      ∃ more s', setup.run (moves ++ more) = some s' ∧ setup.Finished s' := by
  have hprogress := progress_of_move hvalid
  have hlength := length_le_of_measure (Setup.inv_initial hvalid) hprogress hrun
  refine ⟨by omega, ?_⟩
  obtain ⟨more, s', hmore, hstuck⟩ := exists_run_to_end (Setup.inv_run hvalid hrun) hprogress
  have hall : setup.run (moves ++ more) = some s' := by
    rw [Setup.run, List.foldlM_append]
    exact Option.bind_eq_some_iff.mpr ⟨s, hrun, hmore⟩
  exact ⟨more, s', hall,
    finished_of_stuck (Setup.inv_run hvalid hall) hvalid (Setup.fits_run hall) hstuck⟩

theorem every_session_completes_three :
    ∃ more s, Recorded.threeParties.run (Recorded.firstBroadcast ++ more) = some s ∧
      Recorded.threeParties.Finished s :=
  (every_session_completes Recorded.threeParties Recorded.history Recorded.threeParties_valid
    Recorded.firstBroadcast Recorded.afterFirst Recorded.run_firstBroadcast).2

/-- A receive is answered at most once. -/
theorem Setup.Inv.length_answers_le {s : System δ} (h : setup.Inv s) (hvalid : setup.Valid history)
    {p : PartyID} (hp : p ∈ setup.parties) (m : Message) :
    (valuesAt m (MessageBuffer.answers (s.parties p).buffer.2)).length ≤ 1 := by
  have hcounted := (MessageBuffer.sourced_run (s.parties p).commands).counted
    fun m' => decide (m' = m)
  have hnodup : ((MessageBuffer.requests (s.parties p).commands).map Prod.fst).Nodup := by
    have hwants : (s.parties p).wanted.Nodup := ((h.queued p hp).wants_nodup hvalid hp).of_map
    rw [Party.wanted, Party.receives, Party.dataLog, MessageBuffer.requests_append,
      List.map_append] at hwants
    exact hwants.of_append_left
  have hone := List.nodup_iff_count_le_one.mp hnodup m
  rw [List.count_eq_countP, List.countP_map] at hone
  rw [valuesAt, List.length_map, ← List.countP_eq_length_filter]
  have hsame : (MessageBuffer.requests (s.parties p).commands).countP
      (fun e => decide (e.1 = m)) ≤ 1 := hone
  exact (Nat.le_of_add_right_le hcounted).trans hsame

section Returned

variable {s : System δ} (h : setup.Inv s) (hvalid : setup.Valid history) {p : PartyID}
  (hp : p ∈ setup.parties) (hprogram : (s.controls p).program = [])
include h hvalid hp hprogram

omit hvalid in
/-- The queue of a party at the end of its program. -/
theorem Setup.Inv.calls_eq : (QueueState.initial δ p).calls setup.build setup.cfg.crypto.hash
    ((setup.program p).map fun call => (call, true)) = some (s.controls p).queue := by
  obtain ⟨started, hstarted, hcalls⟩ := (h.queued p hp).stage.started
  rw [hprogram, List.append_nil] at hstarted
  exact hstarted ▸ hcalls

/-- Its log is that of the whole history. -/
theorem Setup.Inv.saying : Says setup.cfg.crypto.hash p history (s.controls p).queue.log :=
  hvalid.says_of_calls hp List.prefix_rfl (h.calls_eq hp hprogram) (hvalid.programs p hp)

omit hprogram in
/-- A receive that has returned has one answer, with what the sender had at its pointer. -/
theorem Setup.Inv.valuesAt_receive
    (hidle : (s.controls p).idle (s.parties p) (setup.cfg.task p) = true) {m : Message} {data : δ}
    (hreceive : .receive m data ∈ (s.controls p).queue.log) :
    ∃ sent, .send m sent ∈ (s.controls m.sender).queue.log ∧
      (valuesAt m (MessageBuffer.answers (s.parties p).buffer.2)).map Prod.snd =
        [m.dataAsSlice (setup.memory m.sender sent)] := by
  have hqueued := h.queued p hp
  simp only [Control.idle, Bool.and_eq_true, List.isEmpty_iff] at hidle
  obtain ⟨⟨-, hpending⟩, hreceiving⟩ := hidle
  have hwants := hqueued.wants
  rw [hpending, List.flatMap_nil, List.append_nil] at hwants
  have hwanted : m ∈ (s.parties p).wanted := hwants.mem_iff.mpr
    (List.mem_flatMap.mpr ⟨_, hreceive, List.mem_singleton.mpr rfl⟩)
  obtain ⟨e, he, rfl⟩ := List.mem_map.mp hwanted
  have hreceived : (s.parties p).received e = true :=
    (hqueued.receiving _ he).elim (List.all_eq_true.mp hreceiving _) id
  obtain ⟨⟨m', channel, payload⟩, hanswer, hsame⟩ := List.any_eq_true.mp hreceived
  obtain ⟨rfl, -, -⟩ := of_decide_eq_true hsame
  obtain ⟨-, hsender, x, hx, hmeta, rfl⟩ := h.answer hvalid hp hanswer
  obtain ⟨sent, hsend, hdata⟩ := (h.queued _ hsender).send_of_sent hx
  refine ⟨sent, hmeta ▸ hsend, ?_⟩
  -- there is an answer, and no second one
  have hmem := mem_valuesAt.mpr hanswer
  have hlength := h.length_answers_le hvalid hp e.1
  obtain ⟨first, rest, hvalues⟩ := List.exists_cons_of_ne_nil (List.ne_nil_of_mem hmem)
  rw [hvalues] at hmem hlength ⊢
  obtain rfl : rest = [] := List.eq_nil_of_length_eq_zero (by simpa using hlength)
  rw [← List.mem_singleton.mp hmem, hdata]
  rfl

end Returned

/-- **The result of a session does not depend on the order of its steps.** When all queues have
finished, each has done the calls of its program, and each of its receives has returned once, with
the bytes at the pointer of the send in the log of its sender. -/
theorem finished_is_delivered (setup : Setup sessions δ) (history : List Operation)
    (hvalid : setup.Valid history) (moves : List Move) (s : System δ)
    (hrun : setup.run moves = some s) (hfinished : setup.Finished s) (p : PartyID)
    (hp : p ∈ setup.parties) :
    (QueueState.initial δ p).calls setup.build setup.cfg.crypto.hash
      ((setup.program p).map fun call => (call, true)) = some (s.controls p).queue ∧
    ∀ m data, .receive m data ∈ (s.controls p).queue.log →
      ∃ sent, .send m sent ∈ (s.controls m.sender).queue.log ∧
        (valuesAt m (MessageBuffer.answers (s.parties p).buffer.2)).map Prod.snd =
          [m.dataAsSlice (setup.memory m.sender sent)] := by
  have h := Setup.inv_run hvalid hrun
  obtain ⟨hprogram, hidle⟩ := hfinished p hp
  exact ⟨h.calls_eq hp hprogram, fun m data => h.valuesAt_receive hvalid hp hidle⟩

/-- However the session of the three parties runs, party 1 ends with the bytes of party 0. -/
theorem finished_is_delivered_three : ∃ moves s, Recorded.threeParties.run moves = some s ∧
    let m : Message := ⟨.broadcast, 6, 0, 1, 0x2868168c2202213b, 8⟩
    (valuesAt m (MessageBuffer.answers (s.parties 1).buffer.2)).map Prod.snd =
      [[0, 0, 0, 0, 0, 0, 0, 0]] := by
  obtain ⟨moves, s, hrun, hstuck⟩ :=
    exists_run_to_end (Setup.inv_initial Recorded.threeParties_valid)
      (progress_of_move Recorded.threeParties_valid)
  refine ⟨moves, s, hrun, ?_⟩
  intro m
  obtain ⟨hcalls, hdelivered⟩ := finished_is_delivered Recorded.threeParties Recorded.history
    Recorded.threeParties_valid moves s hrun
    (finished_of_stuck (Setup.inv_run Recorded.threeParties_valid hrun)
      Recorded.threeParties_valid (Setup.fits_run hrun) hstuck) 1 (by decide)
  have hlog : m ∈ (s.controls 1).queue.log.flatMap Action.receiveOf := by
    have hmem : ∀ queue ∈ (QueueState.initial Unit 1).calls Recorded.threeParties.build
        Recorded.threeParties.cfg.crypto.hash
        ((Recorded.threeParties.program 1).map fun call => (call, true)),
          m ∈ queue.log.flatMap Action.receiveOf := by decide +kernel
    exact hmem _ hcalls
  obtain ⟨action, haction, hm⟩ := List.mem_flatMap.mp hlog
  cases action with
  | receive m' data =>
      obtain rfl := List.mem_singleton.mp hm
      obtain ⟨sent, -, hvalues⟩ := hdelivered m data haction
      exact hvalues
  | _ => cases hm

end Hmpc.Net
