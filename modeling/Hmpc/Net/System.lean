/-
# Hmpc.Net.System -- a session of honest parties, from the calls to the streams

`Server` has the events of one party and leaves the network to the adversary. Here every party runs
this code, and the network is reliable: a stream that was sent stays in flight until it arrives.
A `Control` is a queue in the middle of a program. A call is computed at its start, as
`Net.Queue` does it, and its actions are then done one by one: waiting for the consistency task and
requesting checks in order, because these are awaited; sending and receiving in any order, because
these are spawned tasks. The call returns when all of its tasks have.

`Move` is one step of the whole system, in any interleaving. The channels to the two tasks are
bounded, so that a move is possible only when its message fits.
-/
import Hmpc.Net.QueueChecks
import Hmpc.Net.Session

namespace Hmpc.Net

open Hmpc.Lib

variable {sessions : Bool} {δ : Type}

/-- The parties of a session, what they run, and what their pointers point to. -/
structure Setup (sessions : Bool) (δ : Type) where
  cfg : Config sessions
  build : QueueBuild
  parties : Finset PartyID
  program : PartyID → List (Call δ)
  memory : PartyID → δ → ReadData
  /-- `CHANNEL_CAPACITY` -/
  capacity : ℕ

/-! ## One party -/

/-- A queue in the middle of its program. -/
structure Control (δ : Type) where
  queue : QueueState δ
  /-- the calls that have not started -/
  program : List (Call δ)
  /-- what the running call has not done yet -/
  pending : List (Action δ)
  /-- the wait the running call has issued -/
  waiting : Option AnswerChannel
  /-- the receives the running call has issued -/
  receiving : List (Message × AnswerChannel)

def Action.isTask : Action δ → Bool
  | .send _ _ | .receive _ _ => true
  | _ => false

/-- `receive_answer.await` of a wait. -/
def Party.answered (p : Party) (t : Consistency.Task (collective sessions))
    (channel : AnswerChannel) : Bool :=
  decide (channel ∈ Consistency.answersOf (p.consistency t).2)

/-- `receive_message` returns: it has an answer, and `check_size` finds the expected size. -/
def Party.received (p : Party) (e : Message × AnswerChannel) : Bool :=
  (MessageBuffer.answers p.buffer.2).any fun a =>
    decide (a.1 = e.1 ∧ a.2.1 = e.2 ∧ a.2.2.length = e.1.size.toNat)

/-- Nothing is awaited before the next action. -/
def Control.ready (c : Control δ) (p : Party) (t : Consistency.Task (collective sessions)) :
    Bool :=
  c.waiting.all (p.answered t)

/-- The running call has returned, if there is one. -/
def Control.idle (c : Control δ) (p : Party) (t : Consistency.Task (collective sessions)) : Bool :=
  c.ready p t && c.pending.isEmpty && c.receiving.all p.received

/-- What the running call waits for after an action, which has this channel for its answer. -/
def Control.await (c : Control δ) (channel : AnswerChannel) : Action δ → Control δ
  | .ensureConsistency => { c with waiting := some channel }
  | .receive message _ => { c with receiving := c.receiving ++ [(message, channel)] }
  | _ => c

/-! ## The system -/

structure System (δ : Type) where
  parties : State
  controls : PartyID → Control δ
  /-- the streams in flight, each with the party it goes to -/
  network : List (PartyID × List Byte)

inductive Move where
  /-- the next call of the party starts -/
  | call (party : PartyID)
  /-- the `n`-th of the pending actions is done -/
  | act (party : PartyID) (n : ℕ)
  /-- the `n`-th stream in flight arrives -/
  | arrive (n : ℕ)
  /-- the `n`-th waiting handler sends its message to the message buffer -/
  | forward (party : PartyID) (n : ℕ)
  | dataStep (party : PartyID)
  | consistencyStep (party : PartyID)

namespace Setup

variable (setup : Setup sessions δ)

def initial : System δ where
  parties := State.initial
  controls party := ⟨.initial δ party, setup.program party, [], none, []⟩
  network := []

/-- A message of `party`, signed and on its way. -/
def stream (party : PartyID) (message : SendMessage) : List Byte :=
  message.writeTo setup.cfg.crypto setup.cfg.session (setup.cfg.signingKey party)

/-- The channels of a party hold no more than their capacity. -/
def fits (p : Party) : Bool :=
  decide (p.consistencyChannel.length ≤ setup.capacity ∧ p.dataChannel.length ≤ setup.capacity)

/-- An event at one party, unless a channel is full. -/
def event (s : System δ) (l : Label) : Option (System δ) :=
  let parties := (step setup.cfg s.parties l).1
  if setup.fits (parties l.party) then some { s with parties := parties } else none

/-- The message of a send, with the bytes at its pointer. -/
def sent (party : PartyID) (message : Message) (data : δ) : SendMessage :=
  ⟨message, setup.memory party data⟩

/-- What an action is to the tasks of its party. -/
def label (party : PartyID) : Action δ → Label
  | .ensureConsistency => .wait party
  | .checkConsistency check => .request party check
  | .send message data => .send party (setup.sent party message data)
  | .receive message _ => .receive party message

/-- What an action puts into the network. -/
def streams (party : PartyID) : Action δ → List (PartyID × List Byte)
  | .send message data => [(message.receiver, setup.stream party (setup.sent party message data))]
  | _ => []

/-- The check messages of one step of the consistency task, on their way. -/
def checkStreams (party : PartyID) (p : Party) : List (PartyID × List Byte) :=
  match p.consistencyChannel with
  | [] => []
  | command :: _ =>
      let t := setup.cfg.task party
      let step := Consistency.step t (p.consistency t).1 ⟨command, fun _ => .ok⟩
      (Consistency.checksSent step.2).map fun e => (e.2, setup.stream party e.1)

/-- One step of the system, if it is possible. -/
def move (s : System δ) : Move → Option (System δ)
  | .call party =>
      let c := s.controls party
      if c.idle (s.parties party) (setup.cfg.task party) then
        match c.program with
        | [] => none
        | call :: program => do
            let queue ← c.queue.call setup.build setup.cfg.crypto.hash (call, true)
            let c := ⟨queue, program, queue.log.drop c.queue.log.length, none, []⟩
            some { s with controls := Function.update s.controls party c }
      else none
  | .act party n =>
      let c := s.controls party
      if c.ready (s.parties party) (setup.cfg.task party) &&
          (c.pending.take n).all Action.isTask then
        match c.pending[n]? with
        | none => none
        | some action => do
            let c := { c with pending := c.pending.eraseIdx n }
            let c := c.await (s.parties party).nextChannel action
            let s' ← setup.event s (setup.label party action)
            some { s' with
              controls := Function.update s.controls party c
              network := s.network ++ setup.streams party action }
      else none
  | .arrive n =>
      match s.network[n]? with
      | none => none
      | some (party, stream) =>
          (setup.event s (.deliver party stream)).map fun s' =>
            { s' with network := s.network.eraseIdx n }
  | .forward party n =>
      if n < (s.parties party).handlers.length then setup.event s (.forward party n) else none
  | .dataStep party =>
      if (s.parties party).dataChannel.isEmpty then none else setup.event s (.dataStep party)
  | .consistencyStep party =>
      if (s.parties party).consistencyChannel.isEmpty then none
      else
        (setup.event s (.consistencyStep party fun _ => .ok)).map fun s' =>
          { s' with network := s.network ++ setup.checkStreams party (s.parties party) }

/-- A sequence of steps from the start. -/
def run (moves : List Move) : Option (System δ) := moves.foldlM setup.move setup.initial

/-- Every program is at its end and all its calls have returned. -/
def Finished (s : System δ) : Prop :=
  ∀ party ∈ setup.parties, (s.controls party).program = [] ∧
    (s.controls party).idle (s.parties party) (setup.cfg.task party) = true

/-! ## What a step is -/

/-- Why an event happens, with the control of its party and the network after it. -/
inductive Cause (s : System δ) : Label → Control δ → List (PartyID × List Byte) → Prop
  | act {party : PartyID} {n : ℕ} {action : Action δ}
      (ready : (s.controls party).ready (s.parties party) (setup.cfg.task party) = true)
      (tasks : ((s.controls party).pending.take n).all Action.isTask = true)
      (pending : (s.controls party).pending[n]? = some action) :
      Cause s (setup.label party action)
        ({ s.controls party with pending := (s.controls party).pending.eraseIdx n }.await
          (s.parties party).nextChannel action)
        (s.network ++ setup.streams party action)
  | arrive {party : PartyID} {n : ℕ} {stream : List Byte}
      (flight : s.network[n]? = some (party, stream)) :
      Cause s (.deliver party stream) (s.controls party) (s.network.eraseIdx n)
  | forward {party : PartyID} {n : ℕ} (waiting : n < (s.parties party).handlers.length) :
      Cause s (.forward party n) (s.controls party) s.network
  | dataStep {party : PartyID} (sent : (s.parties party).dataChannel ≠ []) :
      Cause s (.dataStep party) (s.controls party) s.network
  | consistencyStep {party : PartyID} (sent : (s.parties party).consistencyChannel ≠ []) :
      Cause s (.consistencyStep party fun _ => .ok) (s.controls party)
        (s.network ++ setup.checkStreams party (s.parties party))

/-- A call starts, or there is an event at one party. -/
inductive Step (s : System δ) : System δ → Prop
  | call {party : PartyID} {call : Call δ} {program : List (Call δ)} {queue : QueueState δ}
      (idle : (s.controls party).idle (s.parties party) (setup.cfg.task party) = true)
      (rest : (s.controls party).program = call :: program)
      (returns : (s.controls party).queue.call setup.build setup.cfg.crypto.hash (call, true) =
        some queue) :
      Step s { s with
        controls := Function.update s.controls party
          ⟨queue, program, queue.log.drop (s.controls party).queue.log.length, none, []⟩ }
  | event {l : Label} {c : Control δ} {network : List (PartyID × List Byte)}
      (cause : setup.Cause s l c network)
      (fits : setup.fits (l.act setup.cfg (s.parties l.party)) = true) :
      Step s ⟨(step setup.cfg s.parties l).1, Function.update s.controls l.party c, network⟩

@[simp] theorem party_label (party : PartyID) (action : Action δ) :
    (setup.label party action).party = party := by
  cases action <;> rfl

variable {setup}

theorem event_eq (s : System δ) (l : Label) : setup.event s l =
    if setup.fits (l.act setup.cfg (s.parties l.party)) then
      some { s with parties := (step setup.cfg s.parties l).1 }
    else none := by
  rw [event]
  simp only [step_eq, if_true]

/-- An event that leaves the queue of its party alone. -/
theorem Step.quiet {s : System δ} {l : Label} {network : List (PartyID × List Byte)}
    (cause : setup.Cause s l (s.controls l.party) network)
    (fits : setup.fits (l.act setup.cfg (s.parties l.party)) = true) :
    setup.Step s ⟨(step setup.cfg s.parties l).1, s.controls, network⟩ := by
  have h := Step.event cause fits
  rwa [Function.update_eq_self] at h

/-- **Every step of the system is one of the two.** -/
theorem step_of_move {s s' : System δ} {m : Move} (h : setup.move s m = some s') :
    setup.Step s s' := by
  cases m with
  | call party =>
      simp only [move] at h
      split at h
      · rename_i hidle
        split at h
        · cases h
        · rename_i call program hprogram
          obtain ⟨queue, hcall, heq⟩ := Option.bind_eq_some_iff.mp h
          rw [← Option.some.inj heq]
          exact .call hidle hprogram hcall
      · cases h
  | act party n =>
      simp only [move] at h
      split at h
      · rename_i hready
        obtain ⟨hready, htasks⟩ := Bool.and_eq_true_iff.mp hready
        split at h
        · cases h
        · rename_i action hpending
          obtain ⟨s₁, hevent, heq⟩ := Option.bind_eq_some_iff.mp h
          rw [event_eq] at hevent
          split at hevent
          · rename_i hfits
            rw [← Option.some.inj heq, ← Option.some.inj hevent]
            have := Step.event (.act hready htasks hpending) hfits
            rwa [party_label] at this
          · cases hevent
      · cases h
  | arrive n =>
      simp only [move] at h
      split at h
      · cases h
      · rename_i party stream hflight
        obtain ⟨s₁, hevent, heq⟩ := Option.map_eq_some_iff.mp h
        rw [event_eq] at hevent
        split at hevent
        · rename_i hfits
          rw [← heq, ← Option.some.inj hevent]
          exact .quiet (.arrive hflight) hfits
        · cases hevent
  | forward party n =>
      simp only [move] at h
      split at h
      · rename_i hwaiting
        rw [event_eq] at h
        split at h
        · rename_i hfits
          rw [← Option.some.inj h]
          exact .quiet (.forward hwaiting) hfits
        · cases h
      · cases h
  | dataStep party =>
      simp only [move] at h
      split at h
      · cases h
      · rename_i hsent
        rw [event_eq] at h
        split at h
        · rename_i hfits
          rw [← Option.some.inj h]
          exact .quiet (.dataStep (by simpa using hsent)) hfits
        · cases h
  | consistencyStep party =>
      simp only [move] at h
      split at h
      · cases h
      · rename_i hsent
        obtain ⟨s₁, hevent, heq⟩ := Option.map_eq_some_iff.mp h
        rw [event_eq] at hevent
        split at hevent
        · rename_i hfits
          rw [← heq, ← Option.some.inj hevent]
          exact .quiet (.consistencyStep (by simpa using hsent)) hfits
        · cases hevent

end Setup

end Hmpc.Net
