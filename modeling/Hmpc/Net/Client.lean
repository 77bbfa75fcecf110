/-
# Hmpc.Net.Client -- the task that sends

Sending a message is a command to the client task of the party. The task keeps one connection for
each receiver and never takes it out again; it connects when there is none, and panics when it
cannot. The stream of the message is opened, written and finished by a task of its own, which
answers the command. A connection may close at any time. Commands are answered at most once, and a
stream is finished exactly for each answer without an error, on a connection to its receiver
(`client_sends_once`). What has no stream when the connection closes is not sent, nor is anything
later that goes to the same party: `closed_is_final`.
-/
import Hmpc.Lib.Progress
import Hmpc.Net.Tasks

namespace Hmpc.Net

open Hmpc.Lib

/-- `NetCommand` -/
inductive NetCommand where
  | send (message : SendMessage) (answerChannel : AnswerChannel)
  | sendCheck (message : SendMessage) (receiver : PartyID) (answerChannel : AnswerChannel)

namespace NetCommand

def message : NetCommand → SendMessage
  | send message _ => message
  | sendCheck message _ _ => message

/-- The party that the task connects to. -/
def receiver : NetCommand → PartyID
  | send message _ => message.metadata.receiver
  | sendCheck _ receiver _ => receiver

def answerChannel : NetCommand → AnswerChannel
  | send _ channel => channel
  | sendCheck _ _ channel => channel

end NetCommand

namespace Client

/-! ## The state -/

/-- A connection, by the order in which they were established. -/
abbrev Connection := ℕ

inductive Stage where
  | opening
  | writing
  | finishing
  deriving DecidableEq

/-- A task of `handle_connection`, with what it does next. -/
structure Handler where
  command : NetCommand
  connection : Connection
  stage : Stage

/-- A stream that was finished. -/
structure FinishedStream where
  connection : Connection
  command : NetCommand
  bytes : List Byte

structure State where
  receiveChannel : List NetCommand
  outgoing : PartyID → Option Connection
  handlers : List Handler
  panicked : Bool
  answers : List (NetCommand × Option ClientError)
  /-- the party that each connection leads to -/
  connections : List PartyID
  closed : Finset Connection
  streams : List FinishedStream
  /-- the commands that a panic leaves without an answer -/
  dropped : List NetCommand
  /-- all commands, from the start -/
  sent : List NetCommand

def State.initial : State := ⟨[], fun _ => none, [], false, [], [], ∅, [], [], []⟩

/-- An answer of the `n`-th handler, which is its end. -/
def State.answer (s : State) (n : ℕ) (command : NetCommand) (error : Option ClientError) : State :=
  { s with
    handlers := s.handlers.eraseIdx n
    answers := s.answers ++ [(command, error)] }

/-- The `n`-th handler goes on to its next stage, unless there is an error. Nothing succeeds on a
connection that is closed. -/
def State.goOn (s : State) (n : ℕ) (stage stage' : Stage) (error : Option ClientError) :
    Option State := do
  let handler ← s.handlers[n]?
  guard (handler.stage = stage)
  match error with
  | some error => return s.answer n handler.command (some error)
  | none =>
      guard (handler.connection ∉ s.closed)
      return { s with handlers := s.handlers.set n { handler with stage := stage' } }

/-- `make_connection`; there is none if the task has to connect and cannot. -/
def State.makeConnection (s : State) (receiver : PartyID) (connects : Bool) :
    Option (State × Connection) :=
  match s.outgoing receiver with
  | some connection => some (s, connection)
  | none =>
      if connects then
        some ({ s with
          outgoing := Function.update s.outgoing receiver (some s.connections.length)
          connections := s.connections ++ [receiver] }, s.connections.length)
      else none

inductive Move where
  /-- another task sends a command -/
  | command (command : NetCommand)
  /-- an iteration of `run`, in which a connect may succeed -/
  | receive (connects : Bool)
  /-- the `n`-th handler goes on; what fails has an error -/
  | openUni (n : ℕ) (error : Option ConnectionError)
  | writeTo (n : ℕ) (error : Option WriteError)
  | finish (n : ℕ) (isClosed : Bool)
  /-- a connection closes -/
  | close (connection : Connection)

section

variable {f : Features} (crypto : Crypto) (session : Cfg f.sessions SessionID)
  (signingKey : Cfg f.signing PrivateKey)

/-- One step of the client, its handlers or its connections, if it is possible. -/
def move (s : State) : Move → Option State
  | .command command =>
      if s.panicked then none
      else some { s with
        receiveChannel := s.receiveChannel ++ [command]
        sent := s.sent ++ [command] }
  | .receive connects =>
      match s.receiveChannel with
      | [] => none
      | command :: commands =>
          match s.makeConnection command.receiver connects with
          | some (s', connection) => some { s' with
              receiveChannel := commands
              handlers := s'.handlers ++ [⟨command, connection, .opening⟩] }
          | none => some { s with
              receiveChannel := []
              panicked := true
              dropped := s.dropped ++ command :: commands }
  | .openUni n error => s.goOn n .opening .writing (error.map .connection)
  | .writeTo n error => s.goOn n .writing .finishing (error.map .write)
  | .finish n isClosed =>
      match s.handlers[n]? with
      | none => none
      | some handler =>
          if handler.stage ≠ .finishing then none
          else if isClosed then some (s.answer n handler.command (some (.write .closedStream)))
          else some { s.answer n handler.command none with
            streams := s.streams ++ [⟨handler.connection, handler.command,
              handler.command.message.writeTo crypto session signingKey⟩] }
  | .close connection => some { s with closed := insert connection s.closed }

/-- A sequence of steps from the start. -/
def run (moves : List Move) : Option State :=
  moves.foldlM (move crypto session signingKey) .initial

/-! ## What a step is -/

/-- The steps, apart from how they come about. -/
inductive Step (s : State) : State → Prop
  | command {command : NetCommand} (running : s.panicked = false) : Step s { s with
      receiveChannel := s.receiveChannel ++ [command]
      sent := s.sent ++ [command] }
  | reuse {command : NetCommand} {commands : List NetCommand} {connection : Connection}
      (first : s.receiveChannel = command :: commands)
      (outgoing : s.outgoing command.receiver = some connection) : Step s { s with
        receiveChannel := commands
        handlers := s.handlers ++ [⟨command, connection, .opening⟩] }
  | connect {command : NetCommand} {commands : List NetCommand}
      (first : s.receiveChannel = command :: commands)
      (outgoing : s.outgoing command.receiver = none) : Step s { s with
        receiveChannel := commands
        outgoing := Function.update s.outgoing command.receiver (some s.connections.length)
        handlers := s.handlers ++ [⟨command, s.connections.length, .opening⟩]
        connections := s.connections ++ [command.receiver] }
  | panic {command : NetCommand} {commands : List NetCommand}
      (first : s.receiveChannel = command :: commands) : Step s { s with
        receiveChannel := []
        panicked := true
        dropped := s.dropped ++ command :: commands }
  | goesOn {n : ℕ} {handler : Handler} {stage : Stage} (nth : s.handlers[n]? = some handler)
      (isOpen : handler.connection ∉ s.closed) :
      Step s { s with handlers := s.handlers.set n { handler with stage := stage } }
  | fails {n : ℕ} {handler : Handler} {error : ClientError}
      (nth : s.handlers[n]? = some handler) : Step s (s.answer n handler.command (some error))
  | finish {n : ℕ} {handler : Handler} (nth : s.handlers[n]? = some handler)
      (stage : handler.stage = .finishing) : Step s { s.answer n handler.command none with
        streams := s.streams ++ [⟨handler.connection, handler.command,
          handler.command.message.writeTo crypto session signingKey⟩] }
  | close {connection : Connection} : Step s { s with closed := insert connection s.closed }

variable {crypto session signingKey}

theorem step_of_goOn {s s' : State} {n : ℕ} {stage stage' : Stage} {error : Option ClientError}
    (h : s.goOn n stage stage' error = some s') : Step crypto session signingKey s s' := by
  obtain ⟨handler, hnth, h⟩ := Option.bind_eq_some_iff.mp h
  obtain ⟨-, -, h⟩ := Option.bind_eq_some_iff.mp h
  cases error with
  | some error =>
      obtain rfl := Option.some.inj h
      exact .fails hnth
  | none =>
      obtain ⟨_, hopen, h⟩ := Option.bind_eq_some_iff.mp h
      obtain rfl := Option.some.inj h
      exact .goesOn hnth ((Option.guard_eq_some' _).mp hopen)

/-- **Every move is one of the steps.** -/
theorem step_of_move {s s' : State} {m : Move} (h : move crypto session signingKey s m = some s') :
    Step crypto session signingKey s s' := by
  cases m with
  | command command =>
      simp only [move] at h
      split at h
      · cases h
      · rename_i hrunning
        obtain rfl := Option.some.inj h
        exact .command (Bool.eq_false_of_not_eq_true hrunning)
  | receive connects =>
      simp only [move] at h
      split at h
      · cases h
      · rename_i command commands hfirst
        unfold State.makeConnection at h
        cases houtgoing : s.outgoing command.receiver with
        | some connection =>
            simp only [houtgoing] at h
            obtain rfl := Option.some.inj h
            exact .reuse hfirst houtgoing
        | none =>
            cases connects <;> simp only [houtgoing] at h <;> obtain rfl := Option.some.inj h
            · exact .panic hfirst
            · exact .connect hfirst houtgoing
  | openUni n error => exact step_of_goOn h
  | writeTo n error => exact step_of_goOn h
  | finish n isClosed =>
      simp only [move] at h
      split at h
      · cases h
      · rename_i hnth
        split at h
        · cases h
        · rename_i hstage
          split at h <;> obtain rfl := Option.some.inj h
          · exact .fails hnth
          · exact .finish hnth (not_not.mp hstage)
  | close connection =>
      obtain rfl := Option.some.inj h
      exact .close

/-! ## Every run -/

variable (crypto session signingKey) in
/-- Where commands are, where connections lead, and which streams there are. -/
structure Inv (s : State) : Prop where
  /-- A command waits, is handled, has an answer or was dropped. -/
  accounted : s.sent.Perm (s.receiveChannel ++ s.handlers.map Handler.command ++
    s.answers.map Prod.fst ++ s.dropped)
  dropped : s.panicked = false → s.dropped = []
  /-- There is one connection for each receiver. -/
  outgoing (r : PartyID) (c : Connection) : s.outgoing r = some c ↔ s.connections[c]? = some r
  handlers : ∀ h ∈ s.handlers, s.outgoing h.command.receiver = some h.connection
  streams : s.streams.map FinishedStream.command =
    (s.answers.filter fun a => a.2.isNone).map Prod.fst
  written : ∀ e ∈ s.streams, s.outgoing e.command.receiver = some e.connection ∧
    e.bytes = e.command.message.writeTo crypto session signingKey

theorem inv_initial : Inv crypto session signingKey .initial where
  accounted := List.Perm.refl _
  dropped _ := rfl
  outgoing _ _ := by simp [State.initial]
  handlers _ h := by cases h
  streams := rfl
  written _ h := by cases h

/-- A connection to a party that had none. -/
theorem update_outgoing {outgoing : PartyID → Option ℕ} {connections : List PartyID}
    (h : ∀ r c, outgoing r = some c ↔ connections[c]? = some r) {receiver : PartyID}
    (hnone : outgoing receiver = none) (r : PartyID) (c : ℕ) :
    Function.update outgoing receiver (some connections.length) r = some c ↔
      (connections ++ [receiver])[c]? = some r := by
  have hnew := h receiver c
  rw [hnone] at hnew
  rw [List.getElem?_append, List.getElem?_singleton]
  by_cases heq : r = receiver
  · subst heq
    rw [Function.update_self]
    split
    · rename_i hlt
      exact ⟨fun hc => absurd (Option.some.inj hc) hlt.ne', fun hc => by cases hnew.mpr hc⟩
    · rename_i hge
      split <;> simp <;> omega
  · rw [Function.update_of_ne heq, h r c]
    split
    · exact Iff.rfl
    · rename_i hge
      rw [List.getElem?_eq_none (Nat.le_of_not_lt hge)]
      split
      · simp [Ne.symm heq]
      · exact Iff.rfl

/-- A handler that ends, with or without a stream, hands its command over to the answers. -/
theorem Inv.perm_answer {s : State} (h : Inv crypto session signingKey s) {n : ℕ}
    {handler : Handler} (hnth : s.handlers[n]? = some handler) (error : Option ClientError) :
    s.sent.Perm (s.receiveChannel ++ (s.handlers.eraseIdx n).map Handler.command ++
      (s.answers ++ [(handler.command, error)]).map Prod.fst ++ s.dropped) := by
  obtain ⟨hn, rfl⟩ := List.getElem?_eq_some_iff.mp hnth
  have hperm := ((List.getElem_cons_eraseIdx_perm hn).map Handler.command).symm
  refine h.accounted.trans (List.Perm.append_right _ ?_)
  rw [List.append_assoc, List.append_assoc, List.map_append]
  refine List.Perm.append_left _ ((hperm.append_right _).trans ?_)
  rw [List.map_cons, List.cons_append, ← List.append_assoc]
  exact (List.perm_append_singleton _ _).symm

theorem inv_step {s s' : State} (h : Inv crypto session signingKey s)
    (hstep : Step crypto session signingKey s s') : Inv crypto session signingKey s' := by
  classical
  have hcount (c : NetCommand) := h.accounted.count_eq c
  cases hstep with
  | command running =>
      refine { h with accounted := List.perm_iff_count.mpr fun c => ?_ }
      have := hcount c
      simp only [List.count_append] at this ⊢
      omega
  | reuse first outgoing =>
      refine { h with
        accounted := List.perm_iff_count.mpr fun c => ?_
        handlers :=
          List.forall_mem_append.mpr ⟨h.handlers, List.forall_mem_singleton.mpr outgoing⟩ }
      have := hcount c
      simp only [first, List.map_append, List.map_singleton, List.count_append, List.count_cons,
        List.count_nil] at this ⊢
      omega
  | @connect command commands first outgoing =>
      have hkeeps {r : PartyID} {c : Connection} (hr : s.outgoing r = some c) :
          Function.update s.outgoing command.receiver (some s.connections.length) r = some c := by
        rw [Function.update_of_ne, hr]
        rintro rfl
        rw [outgoing] at hr
        cases hr
      exact {
        accounted := List.perm_iff_count.mpr fun c => by
          have := hcount c
          simp only [first, List.map_append, List.map_singleton, List.count_append,
            List.count_cons, List.count_nil] at this ⊢
          omega
        dropped := h.dropped
        outgoing := update_outgoing h.outgoing outgoing
        handlers := List.forall_mem_append.mpr ⟨fun e he => hkeeps (h.handlers e he),
          List.forall_mem_singleton.mpr (Function.update_self ..)⟩
        streams := h.streams
        written := fun e he => ⟨hkeeps (h.written e he).1, (h.written e he).2⟩ }
  | panic first =>
      refine { h with
        accounted := List.perm_iff_count.mpr fun c => ?_
        dropped := nofun }
      have := hcount c
      simp only [first, List.count_append, List.nil_append] at this ⊢
      omega
  | @goesOn n _ stage nth isOpen =>
      obtain ⟨hn, rfl⟩ := List.getElem?_eq_some_iff.mp nth
      have hcommands : (s.handlers.set n { s.handlers[n] with stage := stage }).map
          Handler.command = s.handlers.map Handler.command := by
        rw [List.map_set]
        exact (congrArg _ (List.getElem_map Handler.command).symm).trans
          (List.set_getElem_self (by rwa [List.length_map]))
      refine { h with
        accounted := hcommands ▸ h.accounted
        handlers := fun e he => ?_ }
      rcases List.mem_or_eq_of_mem_set he with he | rfl
      · exact h.handlers e he
      · exact h.handlers s.handlers[n] (List.getElem_mem hn)
  | fails nth =>
      exact { h with
        accounted := h.perm_answer nth _
        handlers := fun e he => h.handlers e (List.mem_of_mem_eraseIdx he)
        streams := by
          show _ = (List.filter _ (_ ++ _)).map _
          rw [List.filter_append, List.map_append]
          exact h.streams.trans (List.append_nil _).symm }
  | finish nth stage =>
      exact { h with
        accounted := h.perm_answer nth _
        handlers := fun e he => h.handlers e (List.mem_of_mem_eraseIdx he)
        streams := by
          show List.map _ (_ ++ _) = (List.filter _ (_ ++ _)).map _
          rw [List.filter_append, List.map_append, List.map_append]
          exact congrArg (· ++ _) h.streams
        written := List.forall_mem_append.mpr ⟨h.written, List.forall_mem_singleton.mpr
          ⟨h.handlers _ (List.mem_of_getElem? nth), rfl⟩⟩ }
  | close => exact { h with }

theorem inv_run {moves : List Move} {s : State} (h : run crypto session signingKey moves = some s) :
    Inv crypto session signingKey s :=
  invariant_of_move inv_initial (fun _ _ _ h hm => inv_step h (step_of_move hm)) h

theorem Inv.nodup_connections {s : State} (h : Inv crypto session signingKey s) :
    s.connections.Nodup := by
  refine List.nodup_iff_getElem?_ne_getElem?.mpr fun i j hij hj heq => hij.ne ?_
  have hi := (h.outgoing s.connections[j] i).mpr (heq.trans (List.getElem?_eq_getElem hj))
  have hj := (h.outgoing s.connections[j] j).mpr (List.getElem?_eq_getElem hj)
  exact Option.some.inj (hi.symm.trans hj)

/-- The commands that have an answer are among those that were sent. -/
theorem Inv.answers_subperm {s : State} (h : Inv crypto session signingKey s) :
    (s.answers.map Prod.fst).Subperm s.sent := by
  refine List.Subperm.trans (List.Sublist.subperm ?_) h.accounted.symm.subperm
  exact (List.sublist_append_right _ _).trans (List.sublist_append_left _ _)

variable (crypto session signingKey) in
/-- **A client sends once.** Whatever fails: no command has two answers, no party two connections,
and the streams are those of the commands that have an answer without an error, each on the
connection to its receiver and with the bytes of its message. When nothing is left to do, every
command has its answer, unless a connect has panicked. -/
theorem client_sends_once (moves : List Move) (s : State)
    (hrun : run crypto session signingKey moves = some s)
    (hchannels : (s.sent.map NetCommand.answerChannel).Nodup) :
    (s.answers.map fun a => a.1.answerChannel).Nodup ∧ s.connections.Nodup ∧
      s.streams.map FinishedStream.command =
        (s.answers.filter fun a => a.2.isNone).map Prod.fst ∧
      (∀ e ∈ s.streams, s.connections[e.connection]? = some e.command.receiver ∧
        e.bytes = e.command.message.writeTo crypto session signingKey) ∧
      (s.panicked = false → s.receiveChannel = [] → s.handlers = [] →
        (s.answers.map Prod.fst).Perm s.sent) := by
  have h := inv_run hrun
  refine ⟨?_, h.nodup_connections, h.streams, fun e he => ?_, fun hrunning hchannel hdone => ?_⟩
  · obtain ⟨commands, hperm, hsub⟩ := h.answers_subperm
    have hnodup := (hperm.map NetCommand.answerChannel).nodup_iff.mp
      ((hsub.map NetCommand.answerChannel).nodup hchannels)
    rwa [List.map_map] at hnodup
  · obtain ⟨houtgoing, hbytes⟩ := h.written e he
    exact ⟨(h.outgoing _ _).mp houtgoing, hbytes⟩
  · have hperm := h.accounted
    rw [hchannel, hdone, h.dropped hrunning, List.append_nil] at hperm
    exact hperm.symm

/-! ## A connection that is closed -/

/-- What can still be sent on a connection when it has closed after `s₀`: streams that were open. -/
structure Shut (s₀ : State) (r : PartyID) (c : Connection) (s : State) : Prop where
  closed : c ∈ s.closed
  /-- A connection is never taken out. -/
  outgoing : s.outgoing r = some c
  handlers : ∀ h ∈ s.handlers, h.connection = c → h.stage ≠ .opening →
    ∃ h₀ ∈ s₀.handlers, h₀.command = h.command ∧ h₀.stage ≠ .opening
  streams : ∀ e ∈ s.streams, e.connection = c →
    e ∈ s₀.streams ∨ ∃ h₀ ∈ s₀.handlers, h₀.command = e.command ∧ h₀.stage ≠ .opening

theorem shut_step {s₀ s s' : State} {r : PartyID} {c : Connection} (h : Shut s₀ r c s)
    (hstep : Step crypto session signingKey s s') : Shut s₀ r c s' := by
  cases hstep with
  | command | panic => exact { h with }
  | reuse =>
      exact { h with
        handlers := List.forall_mem_append.mpr ⟨h.handlers, List.forall_mem_singleton.mpr
          fun _ hstage => absurd rfl hstage⟩ }
  | connect first outgoing =>
      refine { h with
        outgoing := (Function.update_of_ne ?_ _ _).trans h.outgoing
        handlers := List.forall_mem_append.mpr ⟨h.handlers, List.forall_mem_singleton.mpr
          fun _ hstage => absurd rfl hstage⟩ }
      rintro rfl
      rw [h.outgoing] at outgoing
      cases outgoing
  | goesOn nth isOpen =>
      refine { h with handlers := fun e he hconnection => ?_ }
      rcases List.mem_or_eq_of_mem_set he with he | rfl
      · exact h.handlers e he hconnection
      · exact absurd (hconnection ▸ h.closed) isOpen
  | fails nth => exact { h with handlers := fun e he => h.handlers e (List.mem_of_mem_eraseIdx he) }
  | finish nth stage =>
      exact { h with
        handlers := fun e he => h.handlers e (List.mem_of_mem_eraseIdx he)
        streams := List.forall_mem_append.mpr ⟨h.streams, List.forall_mem_singleton.mpr
          fun hconnection => Or.inr (h.handlers _ (List.mem_of_getElem? nth) hconnection
            (stage ▸ nofun))⟩ }
  | close => exact { h with closed := Finset.mem_insert_of_mem h.closed }

variable (crypto session signingKey) in
/-- **A closed connection is final.** When the connection to a party has closed, no command to this
party succeeds, however the run goes on, unless its stream was open before. -/
theorem closed_is_final (before after : List Move) (s s' : State)
    (hrun : run crypto session signingKey before = some s)
    (hrest : after.foldlM (move crypto session signingKey) s = some s') (r : PartyID)
    (c : Connection) (houtgoing : s.outgoing r = some c) (hclosed : c ∈ s.closed) :
    s'.outgoing r = some c ∧ ∀ a ∈ s'.answers, a.1.receiver = r → a.2 = none →
      a ∈ s.answers ∨ ∃ h ∈ s.handlers, h.command = a.1 ∧ h.stage ≠ .opening := by
  have hinv := inv_run hrun
  have hinv' : Inv crypto session signingKey s' := by
    have hboth : run crypto session signingKey (before ++ after) = some s' := by
      rw [run, List.foldlM_append]
      exact Option.bind_eq_some_iff.mpr ⟨s, hrun, hrest⟩
    exact inv_run hboth
  have hstart : Shut s r c s := ⟨hclosed, houtgoing, fun h hh _ hstage => ⟨h, hh, rfl, hstage⟩,
    fun e he _ => Or.inl he⟩
  have hshut : Shut s r c s' := invariant_of_move hstart
    (fun _ _ _ h hm => shut_step h (step_of_move hm)) hrest
  refine ⟨hshut.outgoing, fun a ha hr hnone => ?_⟩
  have hmem {s : State} (h : Inv crypto session signingKey s) :
      a ∈ s.answers ↔ a.1 ∈ s.streams.map FinishedStream.command := by
    obtain ⟨command, error⟩ := a
    subst hnone
    simp [h.streams]
  obtain ⟨e, he, hcommand⟩ := List.mem_map.mp ((hmem hinv').mp ha)
  have hconnection : e.connection = c := by
    have hleads := (hinv'.written e he).1
    rw [hcommand, hr, hshut.outgoing] at hleads
    exact (Option.some.inj hleads).symm
  rcases hshut.streams e he hconnection with hbefore | ⟨h, hh, hsame, hstage⟩
  · exact Or.inl ((hmem hinv).mpr (hcommand ▸ List.mem_map_of_mem hbefore))
  · exact Or.inr ⟨h, hh, hsame.trans hcommand, hstage⟩

end

/-! ## A connection that times out -/

/-- Two messages to party 1; the first is written when the connection closes. -/
def closing : List Move :=
  let message := Recorded.broadcastTo1.toSend
  [ .command (.send message 0), .command (.send message 1), .receive true, .receive true,
    .openUni 0 none, .writeTo 0 none, .close 0 ]

/-- The first message is finished, and the second has no stream. -/
def closed : List Move := [.finish 0 false, .openUni 0 (some .timedOut)]

/-- The move of party 0. -/
abbrev moveRecorded : State → Move → Option State :=
  move Recorded.crypto Recorded.session (Recorded.privateKey 0 : Cfg Recorded.features.signing _)

def whenClosing : State := (closing.foldlM moveRecorded .initial).getD .initial

def whenClosed : State := (closed.foldlM moveRecorded whenClosing).getD .initial

theorem run_closing : closing.foldlM moveRecorded .initial = some whenClosing := by
  have hsome : (closing.foldlM moveRecorded .initial).isSome = true := by decide +kernel
  obtain ⟨s, hs⟩ := Option.isSome_iff_exists.mp hsome
  rw [whenClosing, hs, Option.getD_some]

theorem run_closed : closed.foldlM moveRecorded whenClosing = some whenClosed := by
  have hsome : (closed.foldlM moveRecorded whenClosing).isSome = true := by decide +kernel
  obtain ⟨s, hs⟩ := Option.isSome_iff_exists.mp hsome
  rw [whenClosed, hs, Option.getD_some]

theorem client_sends_once_closed :
    whenClosed.answers.map (fun a => (a.1.answerChannel, a.2)) =
      [(0, none), (1, some (.connection .timedOut))] ∧
    whenClosed.streams.map FinishedStream.command =
      (whenClosed.answers.filter fun a => a.2.isNone).map Prod.fst := by
  have hrun : (closing ++ closed).foldlM moveRecorded .initial = some whenClosed := by
    rw [List.foldlM_append]
    exact Option.bind_eq_some_iff.mpr ⟨whenClosing, run_closing, run_closed⟩
  exact ⟨by decide +kernel, (client_sends_once _ _ _ (closing ++ closed) whenClosed hrun
    (by decide +kernel)).2.2.1⟩

theorem closed_is_final_closed : whenClosed.outgoing 1 = some 0 ∧
    ∀ a ∈ whenClosed.answers, a.1.receiver = 1 → a.2 = none →
      a ∈ whenClosing.answers ∨ ∃ h ∈ whenClosing.handlers, h.command = a.1 ∧ h.stage ≠ .opening :=
  closed_is_final _ _ _ closing closed whenClosing whenClosed run_closing run_closed 1 0
    (by decide +kernel) (by decide +kernel)

end Client

end Hmpc.Net
