/-
# Hmpc.Net.SystemInvariant -- what holds in every state of a session of honest parties

Messages are conserved: what a party sends is in flight until it is accepted, as it was sent, and
nothing else is ever in flight or accepted. With that every run of the system is a run of `Server`
in which the parties are honest and signatures genuine, so that the results about such runs hold
here. No request is dropped either: the checks of others that a request finds are those of its own
receivers, because any two receivers of a message name each other.
-/
import Hmpc.Net.Agreement
import Hmpc.Net.SystemHistory

namespace Hmpc.Net

open Hmpc.Lib

variable {sessions : Bool} {δ : Type} {setup : Setup sessions δ} {history : List Operation}

/-! ## What the parties send -/

/-- The check messages of a party, each with the party it goes to. -/
def Party.checkMessages (p : Party) (t : Consistency.Task (collective sessions)) :
    List (PartyID × SendMessage) :=
  (Consistency.checksSent (p.consistency t).2).map fun e => (e.2, e.1)

/-- Everything a party has sent. -/
def Setup.outgoing (setup : Setup sessions δ) (s : State) (party : PartyID) :
    List (PartyID × SendMessage) :=
  ((s party).sentData.map fun m => (m.metadata.receiver, m)) ++
    (s party).checkMessages (setup.cfg.task party)

/-- A message of a party as it is accepted. -/
def Setup.delivered (setup : Setup sessions δ) (party : PartyID) (m : SendMessage) :
    ReceiveMessage × Signature :=
  (⟨m.metadata, m.metadata.dataAsSlice m.data⟩,
    setup.cfg.crypto.sign (setup.cfg.signingKey party)
      (m.signedMetadata setup.cfg.crypto setup.cfg.session))

/-- The check messages an event adds. -/
def Label.checksOf (cfg : Config sessions) (p : Party) : Label → List (SendMessage × PartyID)
  | .consistencyStep party net =>
      match p.consistencyChannel with
      | [] => []
      | command :: _ =>
          let t := cfg.task party
          Consistency.checksSent (Consistency.step t (p.consistency t).1 ⟨command, net⟩).2
  | _ => []

theorem checkMessages_act {cfg : Config sessions} (l : Label) (p : Party) :
    (l.act cfg p).checkMessages (cfg.task l.party) =
      p.checkMessages (cfg.task l.party) ++ (l.checksOf cfg p).map fun e => (e.2, e.1) := by
  have hquiet (h : (l.act cfg p).inputs = p.inputs) (hnone : l.checksOf cfg p = []) :
      (l.act cfg p).checkMessages (cfg.task l.party) =
        p.checkMessages (cfg.task l.party) ++ (l.checksOf cfg p).map fun e => (e.2, e.1) := by
    rw [hnone, List.map_nil, List.append_nil, Party.checkMessages, Party.consistency, h]
    rfl
  rcases inputs_act cfg l p with heq | ⟨party, net, command, rest, rfl, hchannel, heq⟩
  · refine hquiet heq ?_
    cases l with
    | consistencyStep party net =>
        cases hchannel : p.consistencyChannel with
        | nil => simp [Label.checksOf, hchannel]
        | cons command rest =>
            simp [Label.act, Party.consistencyStep, hchannel] at heq
    | _ => rfl
  · rw [Party.checkMessages, Party.consistency, heq, Consistency.run_concat,
      Consistency.checksSent_append, List.map_append]
    simp only [Label.checksOf, hchannel, Label.party]
    rfl

/-- Check messages are signed on their way, so they are among the signed messages. -/
theorem signs_eq (cfg : Config sessions) (l : Label) (p : Party) :
    l.signs cfg p = l.sends ++ (l.checksOf cfg p).map Prod.fst := by
  cases l with
  | consistencyStep party net =>
      simp only [Label.signs, Label.checksOf, Label.sends, List.nil_append]
      cases p.consistencyChannel <;> rfl
  | send party message => exact (List.append_nil _).symm
  | _ => rfl

theorem checkMessages_subset {cfg : Config sessions} {ok : State → Label → Prop}
    {labels : List Label} (hrun : Admits (step cfg) ok State.initial labels) (party : PartyID) :
    ∀ e ∈ (run cfg labels party).checkMessages (cfg.task party),
      e.2 ∈ (run cfg labels party).sent := by
  refine party_invariant (fun party p => ∀ e ∈ p.checkMessages (cfg.task party), e.2 ∈ p.sent)
    (fun _ _ h => by cases h) (fun s l _ h e he => ?_) hrun party
  rw [checkMessages_act] at he
  rw [sent_act, signs_eq]
  rcases List.mem_append.mp he with hold | hnew
  · exact List.mem_append_left _ (h e hold)
  · obtain ⟨e', he', rfl⟩ := List.mem_map.mp hnew
    exact List.mem_append_right _ (List.mem_append_right _ (List.mem_map_of_mem he'))

/-! ## What the handlers pass on -/

/-- An accepted message waits in its handler, or it was given to the message buffer, and the
consistency task was given what is in it for that task. -/
structure Party.Forwards (cfg : Config sessions) (p : Party) : Prop where
  buffered : ∀ a ∈ p.accepted, a.1.metadata.kind.isConsistencyCheck = false →
    a.1 ∈ p.handlers ∨ (a.1.metadata, a.1.data) ∈ MessageBuffer.arrivals p.dataLog
  explained : ∀ a ∈ p.accepted, ∀ command, cfg.explains a command → command ∈ p.consistencyLog

theorem mem_checked_of_explains {cfg : Config sessions} {stream : List Byte}
    {a : ReceiveMessage × Signature} {command : Consistency.Command} (ha : a ∈ cfg.accepts stream)
    (h : cfg.explains a command) : command ∈ cfg.checked stream := by
  cases hread : cfg.read stream with
  | error e => simp [Config.accepts, hread] at ha
  | ok accepted =>
      obtain rfl : a = accepted := by simpa [Config.accepts, hread] using ha
      rcases Config.handle_cases hread with ⟨hkind, hnone, hcase⟩ | ⟨hkind, hhandle⟩
      · cases command with
        | receivedCheck check =>
            have hcheck : a.1.tryIntoCheck = .ok check := h
            rcases hcase with ⟨check', hcheck', hhandle⟩ | hhandle
            · rw [hcheck] at hcheck'
              rw [← Except.ok.inj hcheck'] at hhandle
              simp [Config.checked, hhandle]
            · rw [Config.handle, hread] at hhandle
              simp [hkind, hcheck] at hhandle
        | receivedData data =>
            have hdata : a.1.tryIntoData cfg.crypto a.2 = some data := h
            rw [hnone] at hdata
            cases hdata
        | request check => exact h.elim
        | wait channel => exact h.elim
      · cases command with
        | receivedCheck check =>
            have hcheck : a.1.tryIntoCheck = .ok check := h
            rw [ReceiveMessage.tryIntoCheck, dif_neg (by simp [hkind])] at hcheck
            cases hcheck
        | receivedData data =>
            have hdata : a.1.tryIntoData cfg.crypto a.2 = some data := h
            simp [Config.checked, hhandle, hdata]
        | request check => exact h.elim
        | wait channel => exact h.elim

theorem handlers_of_accepts {cfg : Config sessions} {stream : List Byte}
    {a : ReceiveMessage × Signature} (ha : a ∈ cfg.accepts stream)
    (hkind : a.1.metadata.kind.isConsistencyCheck = false) (p : Party) :
    (p.deliver cfg stream).handlers = p.handlers ++ [a.1] := by
  cases hread : cfg.read stream with
  | error e => simp [Config.accepts, hread] at ha
  | ok accepted =>
      obtain rfl : a = accepted := by simpa [Config.accepts, hread] using ha
      rcases Config.handle_cases hread with ⟨hcheck, -, -⟩ | ⟨-, hhandle⟩
      · rw [hkind] at hcheck
        cases hcheck
      · simp [Party.deliver, hread, hhandle]

theorem forwards_act {cfg : Config sessions} (l : Label) {p : Party} (h : p.Forwards cfg) :
    (l.act cfg p).Forwards cfg := by
  refine ⟨fun a ha hkind => ?_, fun a ha command hcommand => ?_⟩
  · rw [accepted_act] at ha
    rw [dataLog_act, MessageBuffer.arrivals_append]
    have hold (ha : a ∈ p.accepted) : a.1 ∈ p.handlers ∨
        (a.1.metadata, a.1.data) ∈ MessageBuffer.arrivals p.dataLog ++
          MessageBuffer.arrivals (l.dataCommands p) :=
      (h.buffered a ha hkind).imp_right (List.mem_append_left _)
    cases l with
    | deliver party stream =>
        rcases List.mem_append.mp ha with ha | ha
        · refine (hold ha).imp_left fun hmem => ?_
          cases hread : cfg.read stream with
          | error e => simpa [Label.act, Party.deliver, hread] using hmem
          | ok accepted =>
              rcases Config.handle_cases hread with
                ⟨-, -, ⟨check, -, hhandle⟩ | hhandle⟩ | ⟨-, hhandle⟩ <;>
                simp [Label.act, Party.deliver, hread, hhandle, hmem]
        · left
          rw [Label.act, handlers_of_accepts ha hkind]
          exact List.mem_append_right _ (List.mem_singleton.mpr rfl)
    | forward party n =>
        simp only [Label.accepts, List.append_nil] at ha
        simp only [Label.act, Party.forward, Label.dataCommands]
        cases hn : p.handlers[n]? with
        | none => simpa [Label.dataCommands, hn] using hold ha
        | some message =>
            rcases h.buffered a ha hkind with hmem | harrived
            · -- the handler of this message is the one that sends it on, or another one
              obtain ⟨hlt, hmessage⟩ := List.getElem?_eq_some_iff.mp hn
              have hperm := List.getElem_cons_eraseIdx_perm hlt
              rcases List.mem_cons.mp (hperm.mem_iff.mpr hmem) with heq | hrest
              · right
                rw [hmessage] at heq
                exact List.mem_append_right _ (by simp [heq, MessageBuffer.arrivals])
              · exact .inl hrest
            · exact .inr (List.mem_append_left _ harrived)
    | dataStep party =>
        simp only [Label.accepts, List.append_nil] at ha
        simp only [Label.act, Party.dataStep]
        split <;> exact hold ha
    | consistencyStep party net =>
        simp only [Label.accepts, List.append_nil] at ha
        simp only [Label.act, Party.consistencyStep]
        split <;> exact hold ha
    | _ =>
        simp only [Label.accepts, List.append_nil] at ha
        exact hold ha
  · rw [accepted_act] at ha
    rw [consistencyLog_act]
    rcases List.mem_append.mp ha with hold | hnew
    · exact List.mem_append_left _ (h.explained a hold command hcommand)
    · refine List.mem_append_right _ ?_
      cases l with
      | deliver party stream => exact mem_checked_of_explains hnew hcommand
      | _ => cases hnew

theorem forwards_run {cfg : Config sessions} {ok : State → Label → Prop} {labels : List Label}
    (hrun : Admits (step cfg) ok State.initial labels) (party : PartyID) :
    (run cfg labels party).Forwards cfg :=
  party_invariant (fun _ p => p.Forwards cfg) (fun _ => ⟨nofun, nofun⟩)
    (fun _ l _ h => forwards_act l h) hrun party

/-! ## Where the lists of a queue come from -/

theorem Says.mem_of_perm {β : Type} {f : Action δ → List β} {done all : List β}
    {pending : List (Action δ)} (hperm : (done ++ pending.flatMap f).Perm all) {b : β}
    (hb : b ∈ done) : b ∈ all :=
  hperm.mem_iff.mp (List.mem_append_left _ hb)

section Queued

variable {p : PartyID} {x : Party} {c : Control δ}

/-- The calls a queue has started are its part of the first operations of the history. -/
theorem Setup.Valid.exists_saying (hvalid : setup.Valid history) (hp : p ∈ setup.parties)
    (h : Queued setup p x c) :
    ∃ first, first <+: history ∧ Says setup.cfg.crypto.hash p first c.queue.log := by
  obtain ⟨started, hprogram, hcalls⟩ := h.stage.started
  have hfilter := hvalid.programs p hp
  rw [hprogram, List.map_append] at hfilter
  obtain ⟨first, rest, rfl, hfirst, -⟩ := List.filter_eq_append_iff.mp hfilter.symm
  exact ⟨first, List.prefix_append _ _,
    hvalid.says_of_calls hp (List.prefix_append _ _) hcalls hfirst.symm⟩

variable (hvalid : setup.Valid history) (hp : p ∈ setup.parties) (h : Queued setup p x c)
include hvalid hp h

/-- A message the party has sent is one of a collective, with the bytes at its pointer. -/
theorem Queued.sent {m : SendMessage} (hm : m ∈ x.sentData) :
    ∃ e ∈ numbered setup.cfg.crypto.hash history, e.1.sends p m.metadata.receiver = true ∧
      m.metadata = e.message setup.cfg.crypto.hash p m.metadata.receiver := by
  obtain ⟨first, hpre, hlog⟩ := hvalid.exists_saying hp h
  obtain ⟨action, haction, hmem⟩ := List.mem_flatMap.mp (Says.mem_of_perm h.sends hm)
  cases action with
  | send message data =>
      obtain rfl := List.mem_singleton.mp hmem
      obtain ⟨e, he, hsends, hmessage⟩ := (hlog.sends message).mp ⟨data, haction⟩
      exact ⟨e, (numbered_initial hpre).subset he, hsends, hmessage⟩
  | _ => cases hmem

theorem Queued.requested {check : ConsistencyCheck} (hcheck : check ∈ x.requested) :
    ∃ e ∈ numbered setup.cfg.crypto.hash history, e.1.sends check.sender p = true ∧
      check ∈ e.1.checks check.sender p (e.id setup.cfg.crypto.hash) := by
  obtain ⟨first, hpre, hlog⟩ := hvalid.exists_saying hp h
  obtain ⟨e, he, hsends, hmem⟩ :=
    (hlog.requests check).mp (Says.mem_of_perm h.requests hcheck)
  exact ⟨e, (numbered_initial hpre).subset he, hsends, hmem⟩

theorem Queued.requests_nodup : (x.requested.map requestKey).Nodup := by
  obtain ⟨first, hpre, hlog⟩ := hvalid.exists_saying hp h
  have hnodup := ((h.requests.map requestKey).nodup_iff).mpr hlog.requestsOnce
  rw [List.map_append] at hnodup
  exact hnodup.of_append_left

theorem Queued.wants_nodup :
    (x.wanted.map fun m => (m.kind, m.datatype, m.sender, m.id)).Nodup := by
  obtain ⟨first, hpre, hlog⟩ := hvalid.exists_saying hp h
  have hnodup := ((h.wants.map fun m => (m.kind, m.datatype, m.sender, m.id)).nodup_iff).mpr
    hlog.wantsOnce
  rw [List.map_append] at hnodup
  exact hnodup.of_append_left

end Queued

/-- What a check of a collective says. -/
theorem Collective.mem_checks {i : Collective} {q p : PartyID} {id : MessageID}
    {check : ConsistencyCheck} (h : check ∈ i.checks q p id) :
    i.kind.needsCheck = true ∧ check.kind.1 = i.kind ∧ check.datatype = i.datatype ∧
      check.sender = q ∧ check.receivers = i.others q p ∧ check.id = id := by
  unfold checks at h
  split at h
  · rename_i hkind
    rw [List.mem_singleton.mp h]
    exact ⟨hkind, rfl, rfl, rfl, rfl, rfl⟩
  · cases h

/-- The requests the consistency task has processed are requests of the queue. -/
theorem Party.requested_of_op {x : Party} {key : Consistency.Key} {receivers : Communicator}
    (h : .request key receivers ∈ Consistency.ops x.inputs) :
    ∃ check ∈ x.requested, requestKey check = key ∧ check.receivers = receivers := by
  obtain ⟨⟨command, net⟩, hinput, hop⟩ := List.mem_map.mp h
  cases command with
  | request check =>
      obtain ⟨rfl, rfl⟩ := (Consistency.Op.request.injEq ..).mp hop
      refine ⟨check, List.mem_flatMap.mpr ⟨.request check, ?_, List.mem_singleton.mpr rfl⟩,
        rfl, rfl⟩
      exact List.mem_append_left _ (List.mem_map.mpr ⟨_, hinput, rfl⟩)
  | _ => cases hop

theorem Party.requests_eq (x : Party) : x.requests = x.requested.map requestKey := by
  rw [Party.requests, Party.requested, List.filterMap_map, List.map_flatMap]
  induction x.consistencyLog with
  | nil => rfl
  | cons command log ih =>
      rw [List.flatMap_cons, List.filterMap_cons, ih]
      cases command <;> rfl

end Hmpc.Net
