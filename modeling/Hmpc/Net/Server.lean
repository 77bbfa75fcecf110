/-
# Hmpc.Net.Server -- the parties of a session and the network between them

`handle_connection` reads a stream and passes the message on: a check to the consistency task, any
other message to the message buffer, and its hash and signature to the consistency task before
that. These are two sends to two channels, with other connections in between.

`State` is the honest parties of a session, `step` one event at one party: a stream arrives, a
handler does its second send, a task takes the next command from its channel, or the queue issues a
request, a receive, a wait or a message of its own. The tasks are the machines of `Buffer` and
`Consistency`; a party keeps the commands each of them has processed, which determine its state.
Everything else is in the hands of the adversary: any stream may arrive at any time (`Genuine`
keeps it from forging signatures).
-/
import Hmpc.Net.ConsistencyHonest
import Hmpc.Net.Signed

namespace Hmpc.Net

open Hmpc.Lib

/-! ## The server -/

/-- What the parties of a session share, and their keys. -/
structure Config (sessions : Bool) where
  crypto : Crypto
  session : Cfg (collective sessions).sessions SessionID
  signingKey : PartyID → PrivateKey
  verificationKeys : PartyID → Option PublicKey
  honest : PartyID → Bool

variable {sessions : Bool} (cfg : Config sessions)

def Config.task (party : PartyID) : Consistency.Task (collective sessions) :=
  ⟨cfg.crypto, party, cfg.session, cfg.verificationKeys⟩

/-- `read_from` with the keys of the session. -/
def Config.read (stream : List Byte) : Except ServerError (ReceiveMessage × Signature) :=
  ReceiveMessage.readFrom cfg.crypto cfg.session cfg.verificationKeys stream

/-- What the handler of a stream does: it logs an error, it panics on a check whose payload is not
a hash and a signature (`try_into().unwrap()`), it sends a check to the consistency task, or it
sends the message to the message buffer, after its hash and signature to the consistency task when
its kind needs a check. -/
inductive Handled where
  | rejected (error : ServerError)
  | panicked
  | check (message : CheckMessage)
  | message (data : Option DataMessage) (message : ReceiveMessage)

def Config.handle (stream : List Byte) : Handled :=
  match cfg.read stream with
  | .error e => .rejected e
  | .ok (message, signature) =>
      if message.metadata.kind.isConsistencyCheck then
        match message.tryIntoCheck with
        | .ok check => .check check
        | .error _ => .panicked
      else .message (message.tryIntoData cfg.crypto signature) message

/-! ## Parties -/

/-- An honest party. `accepted` and `sent` are logs, of the messages `read_from` has accepted and
of the messages that were signed. -/
structure Party where
  accepted : List (ReceiveMessage × Signature)
  sent : List SendMessage
  /-- messages whose handler has not sent them to the message buffer yet -/
  handlers : List ReceiveMessage
  consistencyChannel : List Consistency.Command
  /-- what the consistency task has processed -/
  inputs : List Consistency.Input
  dataChannel : List DataCommand
  /-- what the message buffer has processed -/
  commands : List DataCommand
  /-- the next oneshot channel -/
  nextChannel : AnswerChannel

def Party.initial : Party := ⟨[], [], [], [], [], [], [], 0⟩

/-- The consistency task after what it has processed, and what it has done. -/
def Party.consistency (p : Party) (t : Consistency.Task (collective sessions)) :
    Consistency.State × List Consistency.Event := Consistency.run t p.inputs

def Party.buffer (p : Party) : MessageBuffer.State × List MessageBuffer.Event :=
  MessageBuffer.run p.commands

/-- Everything sent to the consistency task so far. -/
def Party.consistencyLog (p : Party) : List Consistency.Command :=
  p.inputs.map Consistency.Input.command ++ p.consistencyChannel

/-- Everything sent to the message buffer so far. -/
def Party.dataLog (p : Party) : List DataCommand := p.commands ++ p.dataChannel

/-! ## Events -/

inductive Label where
  /-- a stream arrives at the server of the party -/
  | deliver (party : PartyID) (stream : List Byte)
  /-- the `n`-th waiting handler sends its message to the message buffer -/
  | forward (party : PartyID) (n : ℕ)
  | dataStep (party : PartyID)
  | consistencyStep (party : PartyID) (net : PartyID → Consistency.NetOutcome)
  /-- `QueueState::check_consistency` -/
  | request (party : PartyID) (check : ConsistencyCheck)
  /-- `QueueState::receive_message` -/
  | receive (party : PartyID) (message : Message)
  /-- `QueueState::ensure_consistency` -/
  | wait (party : PartyID)
  /-- `QueueState::send_message` -/
  | send (party : PartyID) (message : SendMessage)

def Label.party : Label → PartyID
  | .deliver party _ => party
  | .forward party _ => party
  | .dataStep party => party
  | .consistencyStep party _ => party
  | .request party _ => party
  | .receive party _ => party
  | .wait party => party
  | .send party _ => party

inductive ServerEvent where
  | rejected (party : PartyID) (error : ServerError)
  | panicked (party : PartyID)
  deriving DecidableEq

def Party.deliver (stream : List Byte) (p : Party) : Party :=
  match cfg.read stream with
  | .error _ => p
  | .ok accepted =>
      let p := { p with accepted := p.accepted ++ [accepted] }
      match cfg.handle stream with
      | .rejected _ => p
      | .panicked => p
      | .check check =>
          { p with consistencyChannel := p.consistencyChannel ++ [.receivedCheck check] }
      | .message data message =>
          { p with
            consistencyChannel :=
              p.consistencyChannel ++ (data.map Consistency.Command.receivedData).toList
            handlers := p.handlers ++ [message] }

def Party.forward (n : ℕ) (p : Party) : Party :=
  match p.handlers[n]? with
  | none => p
  | some message =>
      { p with
        handlers := p.handlers.eraseIdx n
        dataChannel := p.dataChannel ++ [.received message] }

def Party.dataStep (p : Party) : Party :=
  match p.dataChannel with
  | [] => p
  | command :: rest => { p with dataChannel := rest, commands := p.commands ++ [command] }

/-- The consistency task takes a command; the check messages it sends are signed on their way. -/
def Party.consistencyStep (t : Consistency.Task (collective sessions))
    (net : PartyID → Consistency.NetOutcome) (p : Party) : Party :=
  match p.consistencyChannel with
  | [] => p
  | command :: rest =>
      let input : Consistency.Input := ⟨command, net⟩
      let events := (Consistency.step t (p.consistency t).1 input).2
      { p with
        consistencyChannel := rest
        inputs := p.inputs ++ [input]
        sent := p.sent ++ (Consistency.checksSent events).map Prod.fst }

def Party.request (check : ConsistencyCheck) (p : Party) : Party :=
  { p with consistencyChannel := p.consistencyChannel ++ [.request check] }

def Party.receive (message : Message) (p : Party) : Party :=
  { p with
    dataChannel := p.dataChannel ++ [.receive message p.nextChannel]
    nextChannel := p.nextChannel + 1 }

def Party.wait (p : Party) : Party :=
  { p with
    consistencyChannel := p.consistencyChannel ++ [.wait p.nextChannel]
    nextChannel := p.nextChannel + 1 }

def Party.send (message : SendMessage) (p : Party) : Party :=
  { p with sent := p.sent ++ [message] }

/-- What an event does to its party. -/
def Label.act : Label → Party → Party
  | .deliver _ stream => Party.deliver cfg stream
  | .forward _ n => Party.forward n
  | .dataStep _ => Party.dataStep
  | .consistencyStep party net => Party.consistencyStep (cfg.task party) net
  | .request _ check => Party.request check
  | .receive _ message => Party.receive message
  | .wait _ => Party.wait
  | .send _ message => Party.send message

/-- What the server logs. -/
def Label.log : Label → List ServerEvent
  | .deliver party stream =>
      match cfg.handle stream with
      | .rejected e => [.rejected party e]
      | .panicked => [.panicked party]
      | _ => []
  | _ => []

abbrev State := PartyID → Party

def State.initial : State := fun _ => Party.initial

/-- One event at one party. -/
def step (s : State) (l : Label) : State × List ServerEvent :=
  (Function.update s l.party (l.act cfg (s l.party)), l.log cfg)

def run (labels : List Label) : State := (exec (step cfg) State.initial labels).1

theorem run_concat (labels : List Label) (l : Label) :
    run cfg (labels ++ [l]) =
      Function.update (run cfg labels) l.party (l.act cfg (run cfg labels l.party)) := by
  rw [run, exec_concat]
  rfl

/-! ## Honest use -/

/-- The message is one of the operation of this key. -/
def Consistency.Key.isOf (key : Consistency.Key) (m : Message) : Bool :=
  decide (m.kind = key.kind.1 ∧ m.datatype = key.datatype ∧ m.sender = key.sender ∧ m.id = key.id)

def requestKey (check : ConsistencyCheck) : Consistency.Key :=
  ⟨check.kind, check.datatype, check.sender, check.id⟩

/-- The operations a party has requested, and the messages it wants to receive. -/
def Party.requests (p : Party) : List Consistency.Key :=
  (p.consistencyLog.map Consistency.Command.op).filterMap Consistency.Op.requested?

def Party.receives (p : Party) : List (Message × AnswerChannel) :=
  MessageBuffer.requests p.dataLog

/-- Two messages of the same operation. -/
def Message.sameOperation (m n : Message) : Bool :=
  decide (m.kind = n.kind ∧ m.datatype = n.datatype ∧ m.sender = n.sender ∧ m.id = n.id)

/-- **What an honest party does.** It runs this code, requests and receives each operation once,
and its queue sends no check messages. -/
def Honest (s : State) (l : Label) : Bool :=
  cfg.honest l.party &&
    match l with
    | .request party check => !decide (requestKey check ∈ (s party).requests)
    | .receive party message => (s party).receives.all fun e => !e.1.sameOperation message
    | .send _ message => !message.metadata.kind.isConsistencyCheck
    | _ => true

/-- **Signatures of honest parties cannot be forged.** If a stream is accepted under the key of an
honest party, that party has signed the same byte string before. -/
def Genuine (s : State) (l : Label) : Bool :=
  match l with
  | .deliver _ stream =>
      match cfg.read stream with
      | .error _ => true
      | .ok (message, _) =>
          !cfg.honest message.signer ||
            (s message.signer).sent.any fun m =>
              decide (m.signedMetadata cfg.crypto cfg.session =
                message.signedMetadata cfg.crypto cfg.session)
  | _ => true

/-- The recorded session, with these honest parties. -/
def Recorded.config (honest : List PartyID) : Config true where
  crypto := Recorded.crypto
  session := Recorded.session
  signingKey := Recorded.privateKey
  verificationKeys := Recorded.publicKey
  honest party := decide (party ∈ honest)

end Hmpc.Net
