/-
# Hmpc.Net.Session -- what holds of every honest party in every run of a session

The logs of a party explain everything in it: every check and every hash given to the consistency
task is of an accepted message, the hashes in the order of acceptance; every message given to the
message buffer is an accepted one; every signed message is either a message of the queue or a check
about the first data of its operation; and every accepted message of an honest signer was signed by
that signer. The two security arguments, `Agreement` and `Replay`, rest on these facts alone.
-/
import Hmpc.Net.Server

namespace Hmpc.Net

open Hmpc.Lib

variable {sessions : Bool} {cfg : Config sessions}

/-! ## What an event adds to the logs -/

def Config.accepts (cfg : Config sessions) (stream : List Byte) :
    List (ReceiveMessage × Signature) :=
  match cfg.read stream with
  | .ok accepted => [accepted]
  | .error _ => []

/-- What the handler of an accepted message sends to the consistency task. -/
def Config.checked (cfg : Config sessions) (stream : List Byte) : List Consistency.Command :=
  match cfg.handle stream with
  | .check check => [.receivedCheck check]
  | .message data _ => (data.map Consistency.Command.receivedData).toList
  | _ => []

def Label.accepts (cfg : Config sessions) : Label → List (ReceiveMessage × Signature)
  | .deliver _ stream => cfg.accepts stream
  | _ => []

def Label.commands (cfg : Config sessions) (p : Party) : Label → List Consistency.Command
  | .deliver _ stream => cfg.checked stream
  | .request _ check => [.request check]
  | .wait _ => [.wait p.nextChannel]
  | _ => []

def Label.dataCommands (p : Party) : Label → List DataCommand
  | .forward _ n => (p.handlers[n]?.map DataCommand.received).toList
  | .receive _ message => [.receive message p.nextChannel]
  | _ => []

theorem Config.handle_of_error {stream : List Byte} {e : ServerError}
    (h : cfg.read stream = .error e) : cfg.handle stream = .rejected e := by
  rw [handle, h]

/-- The ways a stream is handled, by what was accepted. -/
theorem Config.handle_cases {stream : List Byte} {a : ReceiveMessage × Signature}
    (h : cfg.read stream = .ok a) :
    (a.1.metadata.kind.isConsistencyCheck = true ∧ a.1.tryIntoData cfg.crypto a.2 = none ∧
      ((∃ check, a.1.tryIntoCheck = .ok check ∧ cfg.handle stream = .check check) ∨
        cfg.handle stream = .panicked)) ∨
    (a.1.metadata.kind.isConsistencyCheck = false ∧
      cfg.handle stream = .message (a.1.tryIntoData cfg.crypto a.2) a.1) := by
  obtain ⟨message, signature⟩ := a
  by_cases hkind : message.metadata.kind.isConsistencyCheck = true
  · refine .inl ⟨hkind, dif_neg fun hneeds => ?_, ?_⟩
    · rw [MessageKind.not_isConsistencyCheck_of_needsCheck hneeds] at hkind
      cases hkind
    · simp only [handle, h, hkind, if_true]
      cases hcheck : message.tryIntoCheck with
      | ok check => exact .inl ⟨check, rfl, rfl⟩
      | error e => exact .inr rfl
  · refine .inr ⟨by simpa using hkind, ?_⟩
    simp [handle, h, hkind]

theorem Party.deliver_eq (cfg : Config sessions) (stream : List Byte) (p : Party) :
    (p.deliver cfg stream).accepted = p.accepted ++ cfg.accepts stream ∧
      (p.deliver cfg stream).consistencyChannel = p.consistencyChannel ++ cfg.checked stream ∧
      (p.deliver cfg stream).inputs = p.inputs ∧ (p.deliver cfg stream).sent = p.sent ∧
      (p.deliver cfg stream).dataChannel = p.dataChannel ∧
      (p.deliver cfg stream).commands = p.commands ∧
      (∀ m ∈ (p.deliver cfg stream).handlers,
        m ∈ p.handlers ∨ ∃ a ∈ cfg.accepts stream, a.1 = m) := by
  cases hread : cfg.read stream with
  | error e =>
      simp +contextual [Party.deliver, Config.accepts, Config.checked, hread,
        Config.handle_of_error hread]
  | ok a =>
      rcases Config.handle_cases hread with ⟨-, -, ⟨check, -, hhandle⟩ | hhandle⟩ | ⟨-, hhandle⟩
      · simp +contextual [Party.deliver, Config.accepts, Config.checked, hread, hhandle]
      · simp +contextual [Party.deliver, Config.accepts, Config.checked, hread, hhandle]
      · refine ⟨?_, ?_, ?_, ?_, ?_, ?_, ?_⟩
        all_goals simp only [Party.deliver, Config.accepts, Config.checked, hread, hhandle]
        intro m hm
        rcases List.mem_append.mp hm with hold | hnew
        · exact .inl hold
        · exact .inr ⟨a, by simp, (List.mem_singleton.mp hnew).symm⟩

theorem accepted_act (l : Label) (p : Party) :
    (l.act cfg p).accepted = p.accepted ++ l.accepts cfg := by
  cases l with
  | deliver party stream => exact (p.deliver_eq cfg stream).1
  | forward party n =>
      simp only [Label.act, Party.forward, Label.accepts]
      split <;> simp
  | dataStep party =>
      simp only [Label.act, Party.dataStep, Label.accepts]
      split <;> simp
  | consistencyStep party net =>
      simp only [Label.act, Party.consistencyStep, Label.accepts]
      split <;> simp
  | _ => exact (List.append_nil _).symm

theorem consistencyLog_act (l : Label) (p : Party) :
    (l.act cfg p).consistencyLog = p.consistencyLog ++ l.commands cfg p := by
  cases l with
  | deliver party stream =>
      obtain ⟨-, hchannel, hinputs, -⟩ := p.deliver_eq cfg stream
      simp only [Label.act, Party.consistencyLog, hchannel, hinputs, Label.commands,
        List.append_assoc]
  | forward party n =>
      simp only [Label.act, Party.forward, Label.commands]
      split <;> simp [Party.consistencyLog]
  | dataStep party =>
      simp only [Label.act, Party.dataStep, Label.commands]
      split <;> simp [Party.consistencyLog]
  | consistencyStep party net =>
      simp only [Label.act, Party.consistencyStep, Label.commands, Party.consistencyLog]
      split
      · simp
      · rename_i command rest hchannel
        simp [hchannel]
  | request party check => simp [Label.act, Party.request, Party.consistencyLog, Label.commands]
  | receive party message => simp [Label.act, Party.receive, Party.consistencyLog, Label.commands]
  | wait party => simp [Label.act, Party.wait, Party.consistencyLog, Label.commands]
  | send party message => simp [Label.act, Party.send, Party.consistencyLog, Label.commands]

theorem dataLog_act (l : Label) (p : Party) :
    (l.act cfg p).dataLog = p.dataLog ++ l.dataCommands p := by
  cases l with
  | deliver party stream =>
      obtain ⟨-, -, -, -, hdata, hcommands, -⟩ := p.deliver_eq cfg stream
      simp [Label.act, Party.dataLog, hdata, hcommands, Label.dataCommands]
  | forward party n =>
      simp only [Label.act, Party.forward, Label.dataCommands]
      split
      · rename_i hnone
        simp [hnone]
      · rename_i message hsome
        simp [hsome, Party.dataLog]
  | dataStep party =>
      simp only [Label.act, Party.dataStep, Label.dataCommands, Party.dataLog]
      split
      · simp
      · rename_i command rest hchannel
        simp [hchannel]
  | consistencyStep party net =>
      simp only [Label.act, Party.consistencyStep, Label.dataCommands]
      split <;> simp [Party.dataLog]
  | request party check => simp [Label.act, Party.request, Party.dataLog, Label.dataCommands]
  | receive party message => simp [Label.act, Party.receive, Party.dataLog, Label.dataCommands]
  | wait party => simp [Label.act, Party.wait, Party.dataLog, Label.dataCommands]
  | send party message => simp [Label.act, Party.send, Party.dataLog, Label.dataCommands]

/-! ## What the log of the consistency task says -/

/-- The first accepted message of an operation. -/
def Party.first (p : Party) (key : Consistency.Key) : Option (ReceiveMessage × Signature) :=
  p.accepted.find? fun a => key.isOf a.1.metadata

/-- What the consistency task records of an accepted message. -/
def Config.record (cfg : Config sessions) (a : ReceiveMessage × Signature) :
    Consistency.CheckData :=
  ⟨cfg.crypto.hash a.1.data, a.2⟩

theorem Consistency.Key.isOf_iff {key : Consistency.Key} {m : Message} :
    key.isOf m = true ↔
      m.kind = key.kind.1 ∧ m.datatype = key.datatype ∧ m.sender = key.sender ∧ m.id = key.id :=
  decide_eq_true_iff

theorem dataOf_receivedData (key : Consistency.Key) {a : ReceiveMessage × Signature}
    {data : DataMessage} (h : a.1.tryIntoData cfg.crypto a.2 = some data) :
    (Consistency.Command.receivedData data).op.dataOf key =
      if key.isOf a.1.metadata then some (cfg.record a) else none := by
  unfold ReceiveMessage.tryIntoData at h
  split at h
  · rw [← Option.some.inj h]
    obtain ⟨kind, datatype, sender, id⟩ := key
    simp only [Consistency.Command.op, Consistency.Op.dataOf, Config.record]
    refine if_congr ?_ rfl rfl
    rw [Consistency.Key.isOf_iff, Consistency.Key.mk.injEq, Subtype.ext_iff]
  · cases h

theorem not_isOf_of_tryIntoData (key : Consistency.Key) {a : ReceiveMessage × Signature}
    (h : a.1.tryIntoData cfg.crypto a.2 = none) : key.isOf a.1.metadata = false := by
  by_contra hkey
  rw [Bool.not_eq_false, Consistency.Key.isOf_iff] at hkey
  have hkind : a.1.metadata.kind.needsCheck = true := by
    rw [hkey.1]
    exact key.kind.2
  rw [ReceiveMessage.tryIntoData, dif_pos hkind] at h
  cases h

/-- The hash given to the consistency task is that of the accepted message. -/
theorem findSome_checked (stream : List Byte) (key : Consistency.Key) :
    ((cfg.checked stream).map Consistency.Command.op).findSome? (Consistency.Op.dataOf key) =
      ((cfg.accepts stream).find? fun a => key.isOf a.1.metadata).map cfg.record := by
  cases hread : cfg.read stream with
  | error e => simp [Config.checked, Config.accepts, hread, Config.handle_of_error hread]
  | ok a =>
      have haccepts : cfg.accepts stream = [a] := by simp [Config.accepts, hread]
      rw [haccepts]
      rcases Config.handle_cases hread with ⟨-, hnone, ⟨check, -, hhandle⟩ | hhandle⟩ | ⟨-, hhandle⟩
      · have hother := not_isOf_of_tryIntoData key hnone
        simp [Config.checked, hhandle, hother, Consistency.Command.op, Consistency.Op.dataOf]
      · have hother := not_isOf_of_tryIntoData key hnone
        simp [Config.checked, hhandle, hother]
      · cases hdata : a.1.tryIntoData cfg.crypto a.2 with
        | none =>
            have hother := not_isOf_of_tryIntoData key hdata
            simp [Config.checked, hhandle, hdata, hother]
        | some data =>
            have hof := dataOf_receivedData key hdata
            by_cases hkey : key.isOf a.1.metadata = true
            · simp [Config.checked, hhandle, hdata, hof, hkey]
            · simp [Config.checked, hhandle, hdata, hof, hkey]

theorem findSome_commands (l : Label) (p : Party) (key : Consistency.Key) :
    ((l.commands cfg p).map Consistency.Command.op).findSome? (Consistency.Op.dataOf key) =
      ((l.accepts cfg).find? fun a => key.isOf a.1.metadata).map cfg.record := by
  cases l with
  | deliver party stream => exact findSome_checked stream key
  | _ => rfl

theorem requested_commands (l : Label) (p : Party) :
    ((l.commands cfg p).map Consistency.Command.op).filterMap Consistency.Op.requested? =
      match l with
      | .request _ check => [requestKey check]
      | _ => [] := by
  cases l with
  | deliver party stream =>
      show ((cfg.checked stream).map _).filterMap _ = []
      unfold Config.checked
      split
      · rfl
      · rename_i data _ _
        cases data <;> rfl
      · rfl
  | _ => rfl

/-- A command about an accepted message is the conversion of that message. -/
def Config.explains (cfg : Config sessions) (a : ReceiveMessage × Signature) :
    Consistency.Command → Prop
  | .receivedCheck check => a.1.tryIntoCheck = .ok check
  | .receivedData data => a.1.tryIntoData cfg.crypto a.2 = some data
  | _ => False

theorem explains_checked {stream : List Byte} {command : Consistency.Command}
    (h : command ∈ cfg.checked stream) : ∃ a ∈ cfg.accepts stream, cfg.explains a command := by
  cases hread : cfg.read stream with
  | error e => simp [Config.checked, Config.handle_of_error hread] at h
  | ok a =>
      refine ⟨a, by simp [Config.accepts, hread], ?_⟩
      rcases Config.handle_cases hread with
        ⟨-, -, ⟨check, hcheck, hhandle⟩ | hhandle⟩ | ⟨-, hhandle⟩
      · simp only [Config.checked, hhandle, List.mem_singleton] at h
        rw [h]
        exact hcheck
      · simp [Config.checked, hhandle] at h
      · cases hdata : a.1.tryIntoData cfg.crypto a.2 with
        | none => simp [Config.checked, hhandle, hdata] at h
        | some data =>
            simp only [Config.checked, hhandle, hdata, Option.map_some, Option.toList_some,
              List.mem_singleton] at h
            rw [h]
            exact hdata

/-! ## Every party in every run -/

theorem step_eq (s : State) (l : Label) (party : PartyID) :
    (step cfg s l).1 party = if party = l.party then l.act cfg (s l.party) else s party :=
  Function.update_apply s l.party _ party

/-- An assertion about a party that its own events preserve. -/
theorem party_invariant {ok : State → Label → Prop} (Inv : PartyID → Party → Prop)
    (hinit : ∀ party, Inv party Party.initial)
    (hstep : ∀ s l, ok s l → Inv l.party (s l.party) → Inv l.party (l.act cfg (s l.party)))
    {labels : List Label} (hrun : Admits (step cfg) ok State.initial labels) (party : PartyID) :
    Inv party (run cfg labels party) := by
  refine invariant_of_step (fun _ _ s => ∀ party, Inv party (s party)) hinit ?_ hrun party
  intro _ _ s l h hok party
  rw [step_eq]
  split
  · rename_i hparty
    exact hparty ▸ hstep s l hok (h l.party)
  · exact h party

/-- A message of the queue, or a check about known data of its operation. -/
def Signed (party : PartyID) (inputs : List Consistency.Input) (m : SendMessage) : Prop :=
  m.metadata.kind.isConsistencyCheck = false ∨
    ∃ key data, m = Consistency.checkMessage party key data ∧
      (Consistency.known key (Consistency.ops inputs)).data = some data

/-- The logs of an honest party. -/
structure Party.Sound (cfg : Config sessions) (party : PartyID) (p : Party) : Prop where
  /-- each operation is requested once -/
  requests : p.requests.Nodup
  /-- and received once -/
  receives : ∀ key : Consistency.Key, p.receives.countP (fun e => key.isOf e.1) ≤ 1
  /-- the first hash of an operation is that of its first accepted message -/
  data : ∀ key, (p.consistencyLog.map Consistency.Command.op).findSome?
    (Consistency.Op.dataOf key) = (p.first key).map cfg.record
  /-- every hash and every check is of an accepted message -/
  explained : ∀ command ∈ p.consistencyLog, (∃ a ∈ p.accepted, cfg.explains a command) ∨
    (∃ check, command = .request check) ∨ ∃ channel, command = .wait channel
  handlers : ∀ m ∈ p.handlers, ∃ a ∈ p.accepted, a.1 = m
  /-- every message in the message buffer is an accepted one -/
  arrivals : ∀ m data, (m, data) ∈ MessageBuffer.arrivals p.dataLog →
    ∃ a ∈ p.accepted, a.1.metadata = m ∧ a.1.data = data
  /-- every check that was signed is about the first message of its operation -/
  sent : ∀ m ∈ p.sent, Signed party p.inputs m

theorem Party.sound_initial (party : PartyID) : Party.initial.Sound cfg party := by
  constructor
  · exact List.nodup_nil
  · intro key
    exact Nat.zero_le _
  · intro key
    rfl
  all_goals simp [Party.initial, Party.consistencyLog, Party.dataLog, MessageBuffer.arrivals]

variable {s : State} {l : Label} {p : Party}

theorem requests_act (l : Label) (p : Party) :
    (l.act cfg p).requests = p.requests ++
      match l with
      | .request _ check => [requestKey check]
      | _ => [] := by
  rw [Party.requests, consistencyLog_act, List.map_append, List.filterMap_append,
    requested_commands]
  rfl

theorem receives_act (l : Label) (p : Party) :
    (l.act cfg p).receives = p.receives ++
      match l with
      | .receive _ message => [(message, p.nextChannel)]
      | _ => [] := by
  rw [Party.receives, dataLog_act, MessageBuffer.requests_append]
  congr 1
  cases l with
  | forward party n =>
      simp only [Label.dataCommands]
      cases p.handlers[n]? <;> rfl
  | _ => rfl

theorem nodup_requests_act (hhonest : Honest cfg s l = true) (h : (s l.party).requests.Nodup) :
    (l.act cfg (s l.party)).requests.Nodup := by
  rw [requests_act]
  cases l with
  | request party check =>
      have hnew : requestKey check ∉ (s party).requests := by
        simpa [Honest] using (Bool.and_eq_true_iff.mp hhonest).2
      refine List.nodup_append.mpr ⟨h, List.nodup_singleton _, fun key hkey key' hkey' => ?_⟩
      rintro rfl
      exact hnew (List.mem_singleton.mp hkey' ▸ hkey)
  | _ => simpa using h

theorem countP_receives_act (hhonest : Honest cfg s l = true) (key : Consistency.Key)
    (h : (s l.party).receives.countP (fun e => key.isOf e.1) ≤ 1) :
    (l.act cfg (s l.party)).receives.countP (fun e => key.isOf e.1) ≤ 1 := by
  rw [receives_act]
  cases l with
  | receive party message =>
      have hnew : ∀ e ∈ (s party).receives, e.1.sameOperation message = false := by
        simpa [Honest] using (Bool.and_eq_true_iff.mp hhonest).2
      rw [List.countP_append, List.countP_singleton]
      split
      · rename_i hkey
        have hnone : (s party).receives.countP (fun e => key.isOf e.1) = 0 := by
          refine List.countP_eq_zero.mpr fun e he hekey => ?_
          have hdiffer := hnew e he
          rw [Consistency.Key.isOf_iff] at hkey hekey
          rw [Message.sameOperation, decide_eq_false_iff_not] at hdiffer
          apply hdiffer
          exact ⟨hekey.1.trans hkey.1.symm, hekey.2.1.trans hkey.2.1.symm,
            hekey.2.2.1.trans hkey.2.2.1.symm, hekey.2.2.2.trans hkey.2.2.2.symm⟩
        show (s party).receives.countP (fun e => key.isOf e.1) + 1 ≤ 1
        omega
      · exact h
  | _ => simpa using h

theorem data_act (l : Label) (p : Party) (key : Consistency.Key)
    (h : (p.consistencyLog.map Consistency.Command.op).findSome? (Consistency.Op.dataOf key) =
      (p.first key).map cfg.record) :
    ((l.act cfg p).consistencyLog.map Consistency.Command.op).findSome?
        (Consistency.Op.dataOf key) =
      ((l.act cfg p).first key).map cfg.record := by
  rw [Party.first, accepted_act, consistencyLog_act, List.map_append, List.findSome?_append,
    List.find?_append, findSome_commands, h, Option.map_or]
  rfl

theorem explained_act (l : Label) (p : Party)
    (h : ∀ command ∈ p.consistencyLog, (∃ a ∈ p.accepted, cfg.explains a command) ∨
      (∃ check, command = .request check) ∨ ∃ channel, command = .wait channel) :
    ∀ command ∈ (l.act cfg p).consistencyLog,
      (∃ a ∈ (l.act cfg p).accepted, cfg.explains a command) ∨
        (∃ check, command = .request check) ∨ ∃ channel, command = .wait channel := by
  intro command hcommand
  rw [accepted_act]
  rw [consistencyLog_act] at hcommand
  rcases List.mem_append.mp hcommand with hold | hnew
  · rcases h command hold with ⟨a, ha, hexplains⟩ | hown
    · exact .inl ⟨a, List.mem_append_left _ ha, hexplains⟩
    · exact .inr hown
  · cases l with
    | deliver party stream =>
        obtain ⟨a, ha, hexplains⟩ := explains_checked hnew
        exact .inl ⟨a, List.mem_append_right _ ha, hexplains⟩
    | request party check => exact .inr (.inl ⟨check, List.mem_singleton.mp hnew⟩)
    | wait party => exact .inr (.inr ⟨p.nextChannel, List.mem_singleton.mp hnew⟩)
    | _ => cases hnew

theorem handlers_act (l : Label) (p : Party) (h : ∀ m ∈ p.handlers, ∃ a ∈ p.accepted, a.1 = m) :
    ∀ m ∈ (l.act cfg p).handlers, ∃ a ∈ (l.act cfg p).accepted, a.1 = m := by
  intro m hm
  rw [accepted_act]
  have hkeep (hold : m ∈ p.handlers) : ∃ a ∈ p.accepted ++ l.accepts cfg, a.1 = m := by
    obtain ⟨a, ha, heq⟩ := h m hold
    exact ⟨a, List.mem_append_left _ ha, heq⟩
  cases l with
  | deliver party stream =>
      rcases (p.deliver_eq cfg stream).2.2.2.2.2.2 m hm with hold | ⟨a, ha, heq⟩
      · exact hkeep hold
      · exact ⟨a, List.mem_append_right _ ha, heq⟩
  | forward party n =>
      apply hkeep
      simp only [Label.act, Party.forward] at hm
      split at hm
      · exact hm
      · exact List.mem_of_mem_eraseIdx hm
  | dataStep party =>
      apply hkeep
      simp only [Label.act, Party.dataStep] at hm
      split at hm <;> exact hm
  | consistencyStep party net =>
      apply hkeep
      simp only [Label.act, Party.consistencyStep] at hm
      split at hm <;> exact hm
  | _ => exact hkeep hm

theorem arrivals_act (l : Label) (p : Party)
    (hhandlers : ∀ m ∈ p.handlers, ∃ a ∈ p.accepted, a.1 = m)
    (h : ∀ m data, (m, data) ∈ MessageBuffer.arrivals p.dataLog →
      ∃ a ∈ p.accepted, a.1.metadata = m ∧ a.1.data = data) (m : Message) (data : OwnedData)
    (hmem : (m, data) ∈ MessageBuffer.arrivals (l.act cfg p).dataLog) :
    ∃ a ∈ (l.act cfg p).accepted, a.1.metadata = m ∧ a.1.data = data := by
  rw [accepted_act]
  rw [dataLog_act, MessageBuffer.arrivals_append] at hmem
  rcases List.mem_append.mp hmem with hold | hnew
  · obtain ⟨a, ha, heq⟩ := h m data hold
    exact ⟨a, List.mem_append_left _ ha, heq⟩
  · cases l with
    | forward party n =>
        simp only [Label.dataCommands] at hnew
        cases hmessage : p.handlers[n]? with
        | none => simp [hmessage, MessageBuffer.arrivals] at hnew
        | some message =>
            obtain ⟨a, ha, rfl⟩ := hhandlers message (List.mem_of_getElem? hmessage)
            refine ⟨a, List.mem_append_left _ ha, ?_⟩
            simpa [hmessage, MessageBuffer.arrivals, eq_comm] using hnew
    | _ => simp [Label.dataCommands, MessageBuffer.arrivals] at hnew

/-- What a party has processed is part of what it was sent. -/
theorem Party.ops_inputs_append (p : Party) :
    Consistency.ops p.inputs ++ p.consistencyChannel.map Consistency.Command.op =
      p.consistencyLog.map Consistency.Command.op := by
  simp [Party.consistencyLog, Consistency.ops]

theorem Party.oneRequest {p : Party} (h : p.requests.Nodup) : Consistency.OneRequest p.inputs := by
  rw [Party.requests, ← p.ops_inputs_append, List.filterMap_append] at h
  exact h.of_append_left

/-- A party processes the commands in the order in which they were sent. -/
theorem inputs_act (cfg : Config sessions) (l : Label) (p : Party) :
    (l.act cfg p).inputs = p.inputs ∨
      ∃ party net command rest, l = .consistencyStep party net ∧
        p.consistencyChannel = command :: rest ∧
        (l.act cfg p).inputs = p.inputs ++ [⟨command, net⟩] := by
  cases l with
  | deliver party stream => exact .inl (p.deliver_eq cfg stream).2.2.1
  | forward party n =>
      left
      simp only [Label.act, Party.forward]
      split <;> rfl
  | dataStep party =>
      left
      simp only [Label.act, Party.dataStep]
      split <;> rfl
  | consistencyStep party net =>
      cases hchannel : p.consistencyChannel with
      | nil =>
          left
          simp [Label.act, Party.consistencyStep, hchannel]
      | cons command rest =>
          exact .inr ⟨party, net, command, rest, rfl, rfl,
            by simp [Label.act, Party.consistencyStep, hchannel]⟩
  | _ => exact .inl rfl

/-- What a party signs. -/
def Label.signs (cfg : Config sessions) (p : Party) : Label → List SendMessage
  | .consistencyStep party net =>
      match p.consistencyChannel with
      | [] => []
      | command :: _ =>
          let t := cfg.task party
          (Consistency.checksSent
            (Consistency.step t (p.consistency t).1 ⟨command, net⟩).2).map Prod.fst
  | .send _ message => [message]
  | _ => []

theorem sent_act (l : Label) (p : Party) : (l.act cfg p).sent = p.sent ++ l.signs cfg p := by
  cases l with
  | deliver party stream =>
      rw [Label.act, (p.deliver_eq cfg stream).2.2.2.1]
      exact (List.append_nil _).symm
  | forward party n =>
      simp only [Label.act, Party.forward, Label.signs]
      split <;> simp
  | dataStep party =>
      simp only [Label.act, Party.dataStep, Label.signs]
      split <;> simp
  | consistencyStep party net =>
      cases hchannel : p.consistencyChannel with
      | nil => simp [Label.act, Party.consistencyStep, Label.signs, hchannel]
      | cons command rest => simp [Label.act, Party.consistencyStep, Label.signs, hchannel]
  | send party message => rfl
  | _ => exact (List.append_nil _).symm

theorem signed_signs (hhonest : Honest cfg s l = true)
    (honce : (l.act cfg (s l.party)).requests.Nodup) :
    ∀ m ∈ l.signs cfg (s l.party), Signed l.party (l.act cfg (s l.party)).inputs m := by
  intro m hm
  cases l with
  | consistencyStep party net =>
      simp only [Label.signs, Label.party] at hm
      split at hm
      · cases hm
      · rename_i command rest hchannel
        right
        obtain ⟨⟨m', receiver⟩, hsent, rfl⟩ := List.mem_map.mp hm
        have honce' := Party.oneRequest honce
        simp only [Label.act, Party.consistencyStep, Label.party, hchannel] at honce' ⊢
        exact Consistency.data_of_checksSent honce' hsent
  | send party message =>
      left
      rw [List.mem_singleton.mp hm]
      simpa [Honest] using (Bool.and_eq_true_iff.mp hhonest).2
  | _ => cases hm

theorem signed_act (hhonest : Honest cfg s l = true)
    (honce : (l.act cfg (s l.party)).requests.Nodup)
    (h : ∀ m ∈ (s l.party).sent, Signed l.party (s l.party).inputs m) :
    ∀ m ∈ (l.act cfg (s l.party)).sent, Signed l.party (l.act cfg (s l.party)).inputs m := by
  intro m hm
  rw [sent_act] at hm
  rcases List.mem_append.mp hm with hold | hnew
  · rcases h m hold with hkind | ⟨key, data, rfl, hdata⟩
    · exact .inl hkind
    · refine .inr ⟨key, data, rfl, ?_⟩
      rcases inputs_act cfg l (s l.party) with heq | ⟨_, _, _, _, -, -, heq⟩
      · rw [heq]
        exact hdata
      · rw [heq, Consistency.ops_append]
        exact Consistency.known_data_append _ hdata
  · exact signed_signs hhonest honce m hnew

/-- One event of an honest party. -/
theorem sound_act (hhonest : Honest cfg s l = true) (h : (s l.party).Sound cfg l.party) :
    (l.act cfg (s l.party)).Sound cfg l.party := by
  have hrequests := nodup_requests_act hhonest h.requests
  exact ⟨hrequests, fun key => countP_receives_act hhonest key (h.receives key),
    fun key => data_act l _ key (h.data key), explained_act l _ h.explained,
    handlers_act l _ h.handlers, arrivals_act l _ h.handlers h.arrivals,
    signed_act hhonest hrequests h.sent⟩

/-- **The logs of every honest party in every run.** -/
theorem sound_run {ok : State → Label → Prop} (hok : ∀ s l, ok s l → Honest cfg s l = true)
    {labels : List Label} (hrun : Admits (step cfg) ok State.initial labels) (party : PartyID) :
    (run cfg labels party).Sound cfg party := by
  refine party_invariant (fun party p => p.Sound cfg party) Party.sound_initial ?_ hrun party
  intro s l hl h
  exact sound_act (hok s l hl) h

/-- The data known to the task is what it records of the first accepted message. -/
theorem Party.Sound.first_of_known {party : PartyID} (h : p.Sound cfg party)
    {key : Consistency.Key} {data : Consistency.CheckData}
    (hdata : (Consistency.known key (Consistency.ops p.inputs)).data = some data) :
    ∃ a, p.first key = some a ∧ data = cfg.record a := by
  have hlog := Consistency.known_data_append (p.consistencyChannel.map Consistency.Command.op) hdata
  rw [p.ops_inputs_append] at hlog
  obtain ⟨a, ha, heq⟩ := Option.map_eq_some_iff.mp ((h.data key).symm.trans hlog)
  exact ⟨a, ha, heq.symm⟩

/-- An operation the task has processed is that of an accepted message, or of a call. -/
theorem Party.Sound.explained_of_op {party : PartyID} (h : p.Sound cfg party)
    {op : Consistency.Op} (hop : op ∈ Consistency.ops p.inputs) :
    (∃ a ∈ p.accepted, ∃ command, cfg.explains a command ∧ command.op = op) ∨
      (∃ key receivers, op = .request key receivers) ∨ ∃ channel, op = .wait channel := by
  obtain ⟨⟨command, net⟩, hinput, rfl⟩ := List.mem_map.mp hop
  have hlog : command ∈ p.consistencyLog :=
    List.mem_append_left _ (List.mem_map.mpr ⟨_, hinput, rfl⟩)
  rcases h.explained command hlog with ⟨a, ha, hexplains⟩ | ⟨check, rfl⟩ | ⟨channel, rfl⟩
  · exact .inl ⟨a, ha, command, hexplains, rfl⟩
  · exact .inr (.inl ⟨_, _, rfl⟩)
  · exact .inr (.inr ⟨channel, rfl⟩)

/-- A check the task has processed was accepted, from the party it is of. -/
theorem Party.Sound.accepted_of_check {party : PartyID} (h : p.Sound cfg party)
    {key : Consistency.Key} {receiver : PartyID} {check : Consistency.CheckData}
    (hcheck : .check key receiver check ∈ Consistency.ops p.inputs) :
    ∃ a ∈ p.accepted, a.1.signer = receiver ∧
      a.1.metadata.kind = MessageKind.toCheck key.kind ∧ a.1.metadata.datatype = key.datatype ∧
      a.1.metadata.sender = key.sender ∧ a.1.metadata.receiver = receiver ∧
      a.1.metadata.id = key.id ∧ a.1.data = check.hash.1 ++ check.signature.1 := by
  rcases h.explained_of_op hcheck with ⟨a, ha, command, hexplains, hop⟩ | ⟨_, _, hop⟩ | ⟨_, hop⟩
  · cases command with
    | receivedCheck m =>
        obtain ⟨hmeta, hdata⟩ := ReceiveMessage.tryIntoCheck_eq_ok hexplains
        obtain ⟨⟨metadata, hash, signature⟩, hkind⟩ := m
        obtain ⟨rfl, rfl, rfl⟩ := (Consistency.Op.check.injEq ..).mp hop
        dsimp only at hmeta hdata hkind
        refine ⟨a, ha, ?_, ?_, congrArg Message.datatype hmeta.symm,
          congrArg Message.sender hmeta.symm, congrArg Message.receiver hmeta.symm,
          congrArg Message.id hmeta.symm, hdata⟩
        · rw [ReceiveMessage.signer, ← hmeta, if_pos hkind]
        · rw [← hmeta]
          exact (MessageKind.toCheck_fromCheck _ hkind).symm
    | _ => cases hop
  · cases hop
  · cases hop

/-- A hash the task has processed is that of an accepted message. -/
theorem Party.Sound.accepted_of_data {party : PartyID} (h : p.Sound cfg party)
    {key : Consistency.Key} {data : Consistency.CheckData}
    (hdata : .data key data ∈ Consistency.ops p.inputs) :
    ∃ a ∈ p.accepted, key.isOf a.1.metadata = true ∧ data = cfg.record a := by
  rcases h.explained_of_op hdata with ⟨a, ha, command, hexplains, hop⟩ | ⟨_, _, hop⟩ | ⟨_, hop⟩
  · cases command with
    | receivedData m =>
        have hof := dataOf_receivedData key hexplains
        rw [hop, Consistency.Op.dataOf, if_pos rfl] at hof
        split at hof
        · rename_i hkey
          exact ⟨a, ha, hkey, Option.some.inj hof⟩
        · cases hof
    | _ => cases hop
  · cases hop
  · cases hop

/-! ## Between parties -/

theorem sent_subset_step (s : State) (l : Label) (party : PartyID) :
    (s party).sent ⊆ ((step cfg s l).1 party).sent := by
  rw [step_eq]
  split
  · rename_i hparty
    rw [hparty, sent_act]
    exact List.subset_append_left _ _
  · exact fun _ h => h

/-- **Where accepted messages come from.** When every accepted message of an honest signer relates
to a message that signer has signed before, the same holds after the run. -/
theorem signed_run {ok : State → Label → Prop} (R : ReceiveMessage × Signature → SendMessage → Prop)
    (hok : ∀ s l, ok s l → ∀ a ∈ l.accepts cfg, cfg.honest a.1.signer = true →
      ∃ m ∈ (s a.1.signer).sent, R a m)
    {labels : List Label} (hrun : Admits (step cfg) ok State.initial labels) (party : PartyID) :
    ∀ a ∈ (run cfg labels party).accepted, cfg.honest a.1.signer = true →
      ∃ m ∈ (run cfg labels a.1.signer).sent, R a m := by
  refine invariant_of_step (fun _ _ s => ∀ party, ∀ a ∈ (s party).accepted,
    cfg.honest a.1.signer = true → ∃ m ∈ (s a.1.signer).sent, R a m) ?_ ?_ hrun party
  · intro party a ha
    cases ha
  · intro _ _ s l h hl party a ha hsigner
    have hbefore : ∃ m ∈ (s a.1.signer).sent, R a m := by
      rw [step_eq] at ha
      split at ha
      · rw [accepted_act] at ha
        rcases List.mem_append.mp ha with hold | hnew
        · exact h l.party a hold hsigner
        · exact hok s l hl a hnew hsigner
      · exact h party a ha hsigner
    obtain ⟨m, hm, hR⟩ := hbefore
    exact ⟨m, sent_subset_step s l _ hm, hR⟩

theorem genuine_accepts (h : Genuine cfg s l = true) : ∀ a ∈ l.accepts cfg,
    cfg.honest a.1.signer = true → ∃ m ∈ (s a.1.signer).sent,
      m.signedMetadata cfg.crypto cfg.session = a.1.signedMetadata cfg.crypto cfg.session := by
  intro a ha hsigner
  cases l with
  | deliver party stream =>
      simp only [Label.accepts, Config.accepts] at ha
      split at ha
      · rename_i a' hread
        obtain rfl := List.mem_singleton.mp ha
        simpa [Genuine, hread, hsigner] using h
      · cases ha
  | _ => cases ha

end Hmpc.Net
