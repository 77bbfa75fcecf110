/-
# Hmpc.Net.Completion -- a session of honest parties does not get stuck

In a state in which no step is possible the network and all channels are empty, so that all that was
sent has been processed. If some queue has not returned, take one whose running call comes first in
the common history. All parties are past the operations before it, so the checks of these are
complete and its wait is answered; this holds of every party in the same operation, so that all of
them have sent what belongs to it, and its receives are answered, too.
-/
import Hmpc.Net.Delivery

namespace Hmpc.Net

open Hmpc.Lib

variable {sessions : Bool} {δ : Type} {setup : Setup sessions δ} {history : List Operation}

/-! ## A receive and its message meet -/

namespace MessageBuffer

/-- What the buffer knows of the receives and the messages, also when a message comes again. -/
structure Meeting (commands : List DataCommand) (events : List Event) (s : State) : Prop where
  requested : ∀ m ch, (m, ch) ∈ requests commands →
    (∃ data, (m, ch, data) ∈ answers events) ∨ s.openRequests.lookup m = some ch
  waiting : ∀ m ∈ s.openRequests,
    m ∈ (requests commands).map Prod.fst ∧ m ∉ (arrivals commands).map Prod.fst
  stored : ∀ m ∈ (arrivals commands).map Prod.fst, m ∉ (requests commands).map Prod.fst →
    m ∈ s.messageBuffer

theorem meeting_receive {cs : List DataCommand} {es : List Event} {s : State} {m : Message}
    {ch : AnswerChannel} (h : Meeting cs es s) (hnew : m ∉ (requests cs).map Prod.fst) :
    Meeting (cs ++ [.receive m ch]) (es ++ (step s (.receive m ch)).2)
      (step s (.receive m ch)).1 := by
  have hother {m' : Message} (h' : m' ∈ (requests cs).map Prod.fst) : m' ≠ m :=
    fun heq => hnew (heq ▸ h')
  cases hlookup : s.messageBuffer.lookup m with
  | some data =>
      refine ⟨fun m' ch' hmem => ?_, fun m' hm' => ?_, fun m' harrived hrequested => ?_⟩
      · rw [requests_receive, List.mem_append, List.mem_singleton] at hmem
        simp only [step, hlookup, answers_append, List.mem_append]
        rcases hmem with hold | hnow
        · exact (h.requested m' ch' hold).imp_left (Exists.imp fun _ => Or.inl)
        · obtain ⟨rfl, rfl⟩ := Prod.mk.inj hnow
          exact .inl ⟨data, .inr (List.mem_singleton.mpr rfl)⟩
      · simp only [step, hlookup] at hm'
        rw [requests_receive, arrivals_receive, List.map_append, List.mem_append]
        exact ⟨.inl (h.waiting m' hm').1, (h.waiting m' hm').2⟩
      · rw [arrivals_receive] at harrived
        rw [requests_receive, List.map_append, List.mem_append, not_or] at hrequested
        simp only [step, hlookup, AList.mem_erase]
        exact ⟨fun heq => hrequested.2 (List.mem_singleton.mpr heq),
          h.stored m' harrived hrequested.1⟩
  | none =>
      refine ⟨fun m' ch' hmem => ?_, fun m' hm' => ?_, fun m' harrived hrequested => ?_⟩
      · rw [requests_receive, List.mem_append, List.mem_singleton] at hmem
        simp only [step, hlookup, answers_append, List.mem_append]
        rcases hmem with hold | hnow
        · rw [AList.lookup_insert_ne (hother (List.mem_map_of_mem hold))]
          exact (h.requested m' ch' hold).imp_left (Exists.imp fun _ => Or.inl)
        · obtain ⟨rfl, rfl⟩ := Prod.mk.inj hnow
          exact .inr (AList.lookup_insert _)
      · simp only [step, hlookup, AList.mem_insert] at hm'
        rw [requests_receive, arrivals_receive, List.map_append, List.mem_append]
        rcases hm' with rfl | hold
        · -- a message that came before would be in the buffer
          refine ⟨.inr (List.mem_singleton.mpr rfl), fun harrived => ?_⟩
          have hstored := h.stored m' harrived hnew
          rw [AList.lookup_eq_none] at hlookup
          exact hlookup hstored
        · exact ⟨.inl (h.waiting m' hold).1, (h.waiting m' hold).2⟩
      · rw [arrivals_receive] at harrived
        rw [requests_receive, List.map_append, List.mem_append, not_or] at hrequested
        simp only [step, hlookup]
        exact h.stored m' harrived hrequested.1

theorem meeting_received {cs : List DataCommand} {es : List Event} {s : State}
    {r : ReceiveMessage} (h : Meeting cs es s) :
    Meeting (cs ++ [.received r]) (es ++ (step s (.received r)).2) (step s (.received r)).1 := by
  cases hlookup : s.openRequests.lookup r.metadata with
  | some ch =>
      have hopen : r.metadata ∈ s.openRequests :=
        AList.lookup_isSome.mp (by rw [hlookup]; rfl)
      refine ⟨fun m' ch' hmem => ?_, fun m' hm' => ?_, fun m' harrived hrequested => ?_⟩
      · rw [requests_received] at hmem
        simp only [step, hlookup, answers_append, List.mem_append]
        rcases h.requested m' ch' hmem with ⟨data, hdata⟩ | hwaiting
        · exact .inl ⟨data, .inl hdata⟩
        · by_cases heq : m' = r.metadata
          · subst heq
            obtain rfl : ch = ch' := Option.some.inj (hlookup.symm.trans hwaiting)
            exact .inl ⟨r.data, .inr (List.mem_singleton.mpr rfl)⟩
          · exact .inr (by rw [AList.lookup_erase_ne heq]; exact hwaiting)
      · simp only [step, hlookup, AList.mem_erase] at hm'
        obtain ⟨hrequested, harrived⟩ := h.waiting m' hm'.2
        rw [requests_received, arrivals_received, List.map_append, List.mem_append, not_or]
        exact ⟨hrequested, harrived, fun hnow => hm'.1 (List.mem_singleton.mp hnow)⟩
      · rw [requests_received] at hrequested
        rw [arrivals_received, List.map_append, List.mem_append] at harrived
        simp only [step, hlookup]
        rcases harrived with hold | hnow
        · exact h.stored m' hold hrequested
        · rw [List.mem_singleton.mp hnow] at hrequested
          exact absurd (h.waiting _ hopen).1 hrequested
  | none =>
      refine ⟨fun m' ch' hmem => ?_, fun m' hm' => ?_, fun m' harrived hrequested => ?_⟩
      · rw [requests_received] at hmem
        simp only [step, hlookup, answers_append, List.mem_append]
        exact (h.requested m' ch' hmem).imp_left (Exists.imp fun _ => Or.inl)
      · simp only [step, hlookup] at hm'
        obtain ⟨hrequested, harrived⟩ := h.waiting m' hm'
        rw [requests_received, arrivals_received, List.map_append, List.mem_append, not_or]
        refine ⟨hrequested, harrived, fun hnow => ?_⟩
        rw [List.mem_singleton.mp hnow] at hm'
        exact AList.lookup_eq_none.mp hlookup hm'
      · rw [requests_received] at hrequested
        rw [arrivals_received, List.map_append, List.mem_append] at harrived
        simp only [step, hlookup, AList.mem_insert]
        rcases harrived with hold | hnow
        · exact .inr (h.stored m' hold hrequested)
        · exact .inl (List.mem_singleton.mp hnow)

/-- **A receive whose message has come is answered.** -/
theorem answered_of_arrived {commands : List DataCommand}
    (honce : ((requests commands).map Prod.fst).Nodup) {m : Message} {ch : AnswerChannel}
    (hrequest : (m, ch) ∈ requests commands) (harrived : m ∈ (arrivals commands).map Prod.fst) :
    ∃ data, (m, ch, data) ∈ answers (run commands).2 := by
  suffices h : ∀ cs, ((requests cs).map Prod.fst).Nodup → Meeting cs (run cs).2 (run cs).1 by
    have hmeeting := h commands honce
    rcases hmeeting.requested m ch hrequest with hanswer | hopen
    · exact hanswer
    · exact absurd harrived (hmeeting.waiting m (AList.lookup_isSome.mp (by rw [hopen]; rfl))).2
  intro cs hcs
  induction cs using List.reverseRecOn with
  | nil =>
      exact ⟨fun m ch h => (by cases h), fun m h => absurd h (AList.notMem_empty m),
        fun m h => (by cases h)⟩
  | append_singleton cs c ih =>
      rw [requests_append, List.map_append, List.nodup_append] at hcs
      have hold := ih hcs.1
      rw [run, exec_concat]
      cases c with
      | receive m ch =>
          exact meeting_receive hold fun hmem => hcs.2.2 m hmem m (List.mem_singleton.mpr rfl) rfl
      | received r => exact meeting_received hold

end MessageBuffer

/-! ## Nothing is on its way -/

/-- The network, the channels and the handlers are empty. -/
structure System.Quiet (s : System δ) : Prop where
  network : s.network = []
  consistencyChannel : ∀ p, (s.parties p).consistencyChannel = []
  dataChannel : ∀ p, (s.parties p).dataChannel = []
  handlers : ∀ p, (s.parties p).handlers = []

namespace Setup.Inv

variable {s : System δ} (h : setup.Inv s) (hquiet : s.Quiet)
include h hquiet

theorem accepted_of_outgoing {q : PartyID} (hq : q ∈ setup.parties) {o : PartyID × SendMessage}
    (ho : o ∈ setup.outgoing s.parties q) :
    setup.delivered q o.2 ∈ (s.parties o.1).accepted := by
  rcases h.conserved.kept q hq o ho with hflight | hdone
  · rw [hquiet.network] at hflight
    cases hflight
  · exact hdone

omit h in
/-- The consistency task has processed all its commands. -/
theorem op_of_log {p : PartyID} {command : Consistency.Command}
    (hlog : command ∈ (s.parties p).consistencyLog) :
    command.op ∈ Consistency.ops (s.parties p).inputs := by
  rw [Party.consistencyLog, hquiet.consistencyChannel p, List.append_nil] at hlog
  obtain ⟨input, hinput, rfl⟩ := List.mem_map.mp hlog
  exact List.mem_map.mpr ⟨input, hinput, rfl⟩

omit h in
theorem op_of_requested {p : PartyID} {check : ConsistencyCheck}
    (hcheck : check ∈ (s.parties p).requested) :
    .request (requestKey check) check.receivers ∈ Consistency.ops (s.parties p).inputs := by
  obtain ⟨command, hlog, hmem⟩ := List.mem_flatMap.mp hcheck
  cases command with
  | request check' =>
      obtain rfl := List.mem_singleton.mp hmem
      exact op_of_log hquiet hlog
  | _ => cases hmem

theorem accepted_of_sent {q : PartyID} (hq : q ∈ setup.parties) {m : SendMessage}
    (hm : m ∈ (s.parties q).sentData) :
    setup.delivered q m ∈ (s.parties m.metadata.receiver).accepted :=
  h.accepted_of_outgoing hquiet hq (List.mem_append_left _ (List.mem_map.mpr ⟨m, hm, rfl⟩))

/-- A message that was sent has come to the message buffer. -/
theorem arrived_of_sent {q : PartyID} (hq : q ∈ setup.parties) {m : SendMessage}
    (hm : m ∈ (s.parties q).sentData) :
    m.metadata ∈ (MessageBuffer.arrivals
      (s.parties m.metadata.receiver).commands).map Prod.fst := by
  have hkind : m.metadata.kind.isConsistencyCheck = false := by
    simpa using (List.mem_filter.mp hm).2
  rcases (h.forwards m.metadata.receiver).buffered _ (h.accepted_of_sent hquiet hq hm) hkind with
    hhandler | harrived
  · rw [hquiet.handlers] at hhandler
    cases hhandler
  · rw [Party.dataLog, hquiet.dataChannel, List.append_nil] at harrived
    exact List.mem_map_of_mem harrived

/-- A message of a checked kind has come to the consistency task, too. -/
theorem known_of_sent {q : PartyID} (hq : q ∈ setup.parties) {m : SendMessage}
    (hm : m ∈ (s.parties q).sentData) {key : Consistency.Key} (hkey : key.isOf m.metadata = true) :
    (Consistency.known key
      (Consistency.ops (s.parties m.metadata.receiver).inputs)).data.isSome := by
  have hneeds : m.metadata.kind.needsCheck = true := by
    rw [(Consistency.Key.isOf_iff.mp hkey).1]
    exact key.kind.2
  have hdata : (setup.delivered q m).1.tryIntoData setup.cfg.crypto (setup.delivered q m).2 =
      some ⟨⟨m.metadata, setup.cfg.crypto.hash (m.metadata.dataAsSlice m.data),
        (setup.delivered q m).2⟩, hneeds⟩ := dif_pos hneeds
  have hlog := (h.forwards m.metadata.receiver).explained _ (h.accepted_of_sent hquiet hq hm)
    (.receivedData _) hdata
  have hof := (dataOf_receivedData key hdata).trans (if_pos hkey)
  rw [Consistency.Op.dataOf_eq_some_iff] at hof
  have hop := op_of_log hquiet hlog
  rw [hof] at hop
  exact Consistency.known_data_isSome hop

/-- The check of a party that has requested the operation and got its data has come. -/
theorem check_of_request {p r : PartyID} (hr : r ∈ setup.parties) {key : Consistency.Key}
    {receivers : Communicator}
    (hrequest : .request key receivers ∈ Consistency.ops (s.parties r).inputs)
    (hmem : p ∈ receivers)
    (hdata : (Consistency.known key (Consistency.ops (s.parties r).inputs)).data.isSome) :
    ∃ check, .check key r check ∈ Consistency.ops (s.parties p).inputs := by
  obtain ⟨data, hdata⟩ := Option.isSome_iff_exists.mp hdata
  obtain ⟨receivers', hknown⟩ :=
    Option.isSome_iff_exists.mp (Consistency.known_request_isSome hrequest)
  obtain rfl := (h.once r).request_unique hrequest (Consistency.mem_of_known_request hknown)
  have hsent := Consistency.checksSent_of_due (h.once r) (h.expected r key) (h.net r)
    (Consistency.mem_due.mpr ⟨receivers, data, hknown, hdata, hmem, rfl⟩)
  have ho : (p, Consistency.checkMessage r key data) ∈ setup.outgoing s.parties r :=
    List.mem_append_right _ (List.mem_map.mpr ⟨_, hsent, rfl⟩)
  have haccepted := h.accepted_of_outgoing hquiet hr ho
  obtain ⟨check, hcheck, hop⟩ := tryIntoCheck_checkMessage r key data
  rw [← dataAsSlice_checkMessage r key data] at hcheck
  have hlog := (h.forwards p).explained _ haccepted (.receivedCheck check) hcheck
  exact ⟨data, hop ▸ op_of_log hquiet hlog⟩

end Setup.Inv

/-! ## What the parties have done -/

/-- A party has sent and requested all that it has to for the operations `h`. -/
structure Setup.Emitted (setup : Setup sessions δ) (p : PartyID) (x : Party)
    (h : List Operation) : Prop where
  sends : ∀ e ∈ numbered setup.cfg.crypto.hash h, ∀ r, e.1.sends p r = true →
    ∃ m ∈ x.sentData, m.metadata = e.message setup.cfg.crypto.hash p r
  requests : ∀ e ∈ numbered setup.cfg.crypto.hash h, ∀ r, e.1.sends r p = true →
    ∀ check ∈ e.1.checks r p (e.id setup.cfg.crypto.hash), check ∈ x.requested

theorem emitted_of_log {p : PartyID} {x : Party} {h h' : List Operation} {log : List (Action δ)}
    (hpre : h <+: h') (hlog : Says setup.cfg.crypto.hash p h' log)
    (hsends : ∀ m ∈ log.flatMap (setup.sendOf p), m ∈ x.sentData)
    (hrequests : ∀ check ∈ log.flatMap Action.requestOf, check ∈ x.requested) :
    setup.Emitted p x h := by
  refine ⟨fun e he r hsend => ?_, fun e he r hsend check hcheck => ?_⟩
  · obtain ⟨data, hmem⟩ := (hlog.sends (e.message setup.cfg.crypto.hash p r)).mpr
      ⟨e, (numbered_initial hpre).subset he, hsend, rfl⟩
    refine ⟨setup.sent p (e.message setup.cfg.crypto.hash p r) data, hsends _ ?_, rfl⟩
    exact List.mem_flatMap.mpr ⟨_, hmem, List.mem_singleton.mpr rfl⟩
  · obtain ⟨-, -, -, hsender, -⟩ := Collective.mem_checks hcheck
    subst hsender
    exact hrequests check ((hlog.requests check).mpr
      ⟨e, (numbered_initial hpre).subset he, hsend, hcheck⟩)

section Emitted

variable {s : System δ} (h : setup.Inv s) (hvalid : setup.Valid history) (hquiet : s.Quiet)
include h hvalid hquiet

/-- **The checks of operations for which all parties have done their part are complete.** -/
theorem complete_of_emitted {first : List Operation} (hpre : first <+: history)
    (hall : ∀ q ∈ setup.parties, setup.Emitted q (s.parties q) first) {p : PartyID}
    (hp : p ∈ setup.parties) {e : Numbered} (he : e ∈ numbered setup.cfg.crypto.hash first)
    {check : ConsistencyCheck} (hsends : e.1.sends check.sender p = true)
    (hcheck : check ∈ e.1.checks check.sender p (e.id setup.cfg.crypto.hash)) :
    (Consistency.known (requestKey check) (Consistency.ops (s.parties p).inputs)).Complete
      (setup.cfg.task p) (requestKey check) := by
  obtain ⟨hkind, h₁, h₂, -, h₄, h₅⟩ := Collective.mem_checks hcheck
  have hparties : ∀ r ∈ e.1.parties, r ∈ setup.parties := by
    obtain ⟨operation, hoperation, hcollective⟩ := exists_operation he
    exact hvalid.closed operation (hpre.subset hoperation) e.1 hcollective
  have hq : check.sender ∈ setup.parties :=
    hparties _ (of_decide_eq_true (Collective.party_of_sends hsends).1)
  -- the data of the operation has come to everybody it was sent to
  have hdata {r : PartyID} (hr : e.1.sends check.sender r = true) :
      (Consistency.known (requestKey check)
        (Consistency.ops (s.parties r).inputs)).data.isSome := by
    obtain ⟨m, hm, hmessage⟩ := (hall _ hq).sends e he r hr
    have hkey : (requestKey check).isOf m.metadata = true := by
      rw [Consistency.Key.isOf_iff, hmessage]
      exact ⟨h₁.symm, h₂.symm, rfl, h₅.symm⟩
    have hknown := h.known_of_sent hquiet hq hm hkey
    rw [hmessage] at hknown
    exact hknown
  have hrequest :=
    Setup.Inv.op_of_requested hquiet ((hall p hp).requests e he _ hsends check hcheck)
  obtain ⟨receivers, hreceivers⟩ :=
    Option.isSome_iff_exists.mp (Consistency.known_request_isSome hrequest)
  obtain rfl := (h.once p).request_unique hrequest (Consistency.mem_of_known_request hreceivers)
  obtain ⟨data, hknown⟩ := Option.isSome_iff_exists.mp (hdata hsends)
  refine ⟨check.receivers, data, hreceivers, hknown, fun r hr => ?_⟩
  have hother := hr
  rw [h₄] at hother
  obtain ⟨hreceiver, hne⟩ := Communicator.mem_filter.mp hother
  obtain ⟨hnep, hneq⟩ := of_decide_eq_true hne
  have hr' : r ∈ setup.parties :=
    hparties r (List.mem_append_left _ (List.mem_append_right _ hreceiver))
  have hsends' := sends_of_receiver hkind hsends hreceiver hneq
  -- the other receiver requests the same check, with this party among its receivers
  obtain ⟨check', hcheck', hkey', hmem'⟩ : ∃ check' ∈ (s.parties r).requested,
      requestKey check' = requestKey check ∧ p ∈ check'.receivers := by
    refine ⟨⟨⟨e.1.kind, hkind⟩, e.1.datatype, check.sender, e.1.others check.sender r,
      e.id setup.cfg.crypto.hash⟩, (hall r hr').requests e he _ hsends' _ ?_, ?_, ?_⟩
    · rw [Collective.checks, dif_pos hkind]
      exact List.mem_singleton.mpr rfl
    · rw [requestKey, requestKey, Consistency.Key.mk.injEq, Subtype.ext_iff]
      exact ⟨h₁.symm, h₂.symm, rfl, h₅.symm⟩
    · have hself : p ≠ check.sender := by
        rintro rfl
        simp [Collective.sends] at hsends
      exact Communicator.mem_filter.mpr
        ⟨receiver_of_sends hkind hsends, decide_eq_true ⟨Ne.symm hnep, hself⟩⟩
  have hrequest' := Setup.Inv.op_of_requested hquiet hcheck'
  rw [hkey'] at hrequest'
  obtain ⟨sent, hsent⟩ := h.check_of_request hquiet hr' hrequest' hmem' (hdata hsends')
  obtain ⟨told, htold⟩ := Option.isSome_iff_exists.mp (Consistency.known_checks_isSome hsent)
  exact ⟨told, htold, h.all_valid hvalid p _ _ _ hrequest (Consistency.mem_of_known_data hknown)
    r hr told (Consistency.mem_of_known_checks htold)⟩

/-- **A wait for operations for which all parties have done their part is answered.** -/
theorem answered_of_emitted {first : List Operation} (hpre : first <+: history)
    (hall : ∀ q ∈ setup.parties, setup.Emitted q (s.parties q) first) {p : PartyID}
    (hp : p ∈ setup.parties) {log : List (Action δ)}
    (hlog : Says setup.cfg.crypto.hash p first log)
    (hrequested : ∀ check ∈ (s.parties p).requested, check ∈ log.flatMap Action.requestOf)
    {channel : AnswerChannel} (hwait : .wait channel ∈ (s.parties p).consistencyLog) :
    (s.parties p).answered (setup.cfg.task p) channel = true := by
  obtain ⟨-, hanswers⟩ := Consistency.answered_of_complete (t := setup.cfg.task p) (h.once p)
    (h.expected p) fun key receivers hrequest => by
      obtain ⟨check, hcheck, rfl, -⟩ := Party.requested_of_op hrequest
      obtain ⟨e, he, hsends, hmem⟩ := (hlog.requests check).mp (hrequested check hcheck)
      exact complete_of_emitted h hvalid hquiet hpre hall hp he hsends hmem
  rw [Party.answered, decide_eq_true_eq]
  show channel ∈ Consistency.answersOf (Consistency.run (setup.cfg.task p) _).2
  rw [hanswers]
  exact List.mem_flatMap.mpr ⟨_, Setup.Inv.op_of_log hquiet hwait, List.mem_singleton.mpr rfl⟩

/-- **A receive whose sender has done its part returns.** -/
theorem received_of_emitted {first : List Operation} {p : PartyID} (hp : p ∈ setup.parties)
    {m : Message} {channel : AnswerChannel} (hreceive : (m, channel) ∈ (s.parties p).receives)
    {e : Numbered} (he : e ∈ numbered setup.cfg.crypto.hash first)
    (hsends : e.1.sends m.sender p = true)
    (hmessage : m = e.message setup.cfg.crypto.hash m.sender p) (hq : m.sender ∈ setup.parties)
    (hemitted : setup.Emitted m.sender (s.parties m.sender) first) :
    (s.parties p).received (m, channel) = true := by
  obtain ⟨x, hx, hmeta⟩ := hemitted.sends e he p hsends
  rw [← hmessage] at hmeta
  have hreceiver : m.receiver = p := by
    rw [hmessage]
    rfl
  have harrived := h.arrived_of_sent hquiet hq hx
  rw [hmeta, hreceiver] at harrived
  have hnodup : ((MessageBuffer.requests (s.parties p).commands).map Prod.fst).Nodup := by
    have hwants := (h.queued p hp).wants_nodup hvalid hp
    have hall : (s.parties p).wanted.Nodup := hwants.of_map
    rw [Party.wanted, Party.receives, Party.dataLog, MessageBuffer.requests_append,
      List.map_append] at hall
    exact hall.of_append_left
  have hrequest : (m, channel) ∈ MessageBuffer.requests (s.parties p).commands := by
    rw [Party.receives, Party.dataLog, hquiet.dataChannel p, List.append_nil] at hreceive
    exact hreceive
  obtain ⟨payload, hanswer⟩ := MessageBuffer.answered_of_arrived hnodup hrequest harrived
  obtain ⟨-, -, x', -, rfl, rfl⟩ := h.answer hvalid hp hanswer
  exact List.any_eq_true.mpr ⟨_, hanswer,
    decide_eq_true ⟨rfl, rfl, Message.length_dataAsSlice _ _⟩⟩

end Emitted

/-! ## A state in which no step is possible -/

theorem fits_iff {x : Party} : setup.fits x = true ↔
    x.consistencyChannel.length ≤ setup.capacity ∧ x.dataChannel.length ≤ setup.capacity :=
  decide_eq_true_iff

/-- An event adds at most one message to each channel. -/
theorem length_channels_act (cfg : Config sessions) (l : Label) (x : Party) :
    (l.act cfg x).consistencyChannel.length ≤ x.consistencyChannel.length + 1 ∧
      (l.act cfg x).dataChannel.length ≤ x.dataChannel.length + 1 := by
  constructor
  · have hlog : (l.act cfg x).consistencyLog.length = _ :=
      congrArg List.length (consistencyLog_act l x)
    have hone : (l.commands cfg x).length ≤ 1 := by
      cases l with
      | deliver party stream =>
          simp only [Label.commands, Config.checked]
          split
          · exact Nat.le_refl 1
          · rename_i data _ _
            cases data <;> simp
          · exact Nat.zero_le 1
      | _ => simp [Label.commands]
    have hinputs : x.inputs.length ≤ (l.act cfg x).inputs.length := by
      rcases inputs_act cfg l x with heq | ⟨_, _, _, _, -, -, heq⟩ <;> simp [heq]
    simp only [Party.consistencyLog, List.length_append, List.length_map] at hlog
    omega
  · have hlog : (l.act cfg x).dataLog.length = _ := congrArg List.length (dataLog_act l x)
    have hone : (l.dataCommands x).length ≤ 1 := by
      cases l with
      | forward party n => simp only [Label.dataCommands]; cases x.handlers[n]? <;> simp
      | _ => simp [Label.dataCommands]
    have hcommands : x.commands.length ≤ (l.act cfg x).commands.length := by
      rcases (commands_act l x : (l.act cfg x).commands = x.commands ∨ _) with heq | ⟨_, heq⟩ <;>
        simp [heq]
    simp only [Party.dataLog, List.length_append] at hlog
    omega

theorem fits_act_of_empty (hcapacity : 0 < setup.capacity) {x : Party}
    (hconsistency : x.consistencyChannel = []) (hdata : x.dataChannel = []) (l : Label) :
    setup.fits (l.act setup.cfg x) = true := by
  obtain ⟨h₁, h₂⟩ := length_channels_act setup.cfg l x
  rw [hconsistency] at h₁
  rw [hdata] at h₂
  exact fits_iff.mpr ⟨Nat.le_trans h₁ hcapacity, Nat.le_trans h₂ hcapacity⟩

theorem event_of_fits {s : System δ} {l : Label}
    (hfits : setup.fits (l.act setup.cfg (s.parties l.party)) = true) :
    setup.event s l = some { s with parties := (step setup.cfg s.parties l).1 } := by
  rw [Setup.event_eq, if_pos hfits]

/-- Taking a command from its channel is always possible. -/
theorem fits_step {x : Party} (hfits : setup.fits x = true) (p : PartyID)
    (net : PartyID → Consistency.NetOutcome) :
    setup.fits ((Label.consistencyStep p net).act setup.cfg x) = true ∧
      setup.fits ((Label.dataStep p).act setup.cfg x) = true := by
  obtain ⟨h₁, h₂⟩ := fits_iff.mp hfits
  simp only [Label.act, Party.consistencyStep, Party.dataStep, fits_iff]
  constructor
  · split
    · exact ⟨h₁, h₂⟩
    · rename_i command rest hchannel
      rw [hchannel] at h₁
      exact ⟨Nat.le_of_succ_le h₁, h₂⟩
  · split
    · exact ⟨h₁, h₂⟩
    · rename_i command rest hchannel
      rw [hchannel] at h₂
      exact ⟨h₁, Nat.le_of_succ_le h₂⟩

theorem Setup.fits_run {moves : List Move} {s : System δ} (hrun : setup.run moves = some s) :
    ∀ p, setup.fits (s.parties p) = true := by
  have hinit : ∀ p, setup.fits (setup.initial.parties p) = true :=
    fun p => fits_iff.mpr ⟨Nat.zero_le _, Nat.zero_le _⟩
  have hmove (s : System δ) (m : Move) (s' : System δ)
      (h : ∀ p, setup.fits (s.parties p) = true) (hmove : setup.move s m = some s') :
      ∀ p, setup.fits (s'.parties p) = true := by
    intro p
    cases step_of_move hmove with
    | call idle rest returns => exact h p
    | @event l c network cause fits =>
        simp only [step_eq]
        split
        · exact fits
        · exact h p
  exact invariant_of_move hinit hmove hrun

section Stuck

variable {s : System δ} (hstuck : ∀ m, setup.move s m = none)
include hstuck

theorem quiet_of_stuck (hcapacity : 0 < setup.capacity)
    (hfits : ∀ p, setup.fits (s.parties p) = true) : s.Quiet := by
  have hconsistency (p : PartyID) : (s.parties p).consistencyChannel = [] := by
    by_contra hne
    have hmove := hstuck (.consistencyStep p)
    have hevent := event_of_fits (s := s) (l := .consistencyStep p fun _ => .ok)
      (fits_step (hfits p) p fun _ => .ok).1
    simp [Setup.move, hne, hevent] at hmove
  have hdata (p : PartyID) : (s.parties p).dataChannel = [] := by
    by_contra hne
    have hmove := hstuck (.dataStep p)
    have hevent := event_of_fits (s := s) (l := .dataStep p) (fits_step (hfits p) p fun _ => .ok).2
    simp [Setup.move, hne, hevent] at hmove
  have hevent (l : Label) : setup.event s l = some _ :=
    event_of_fits (fits_act_of_empty hcapacity (hconsistency l.party) (hdata l.party) l)
  refine ⟨?_, hconsistency, hdata, fun p => ?_⟩
  · by_contra hne
    obtain ⟨⟨party, stream⟩, network, hnetwork⟩ := List.exists_cons_of_ne_nil hne
    have hmove := hstuck (.arrive 0)
    simp [Setup.move, hnetwork, hevent] at hmove
  · by_contra hne
    have hmove := hstuck (.forward p 0)
    simp [Setup.move, List.length_pos_iff.mpr hne, hevent] at hmove

theorem pending_of_ready (hcapacity : 0 < setup.capacity) (hquiet : s.Quiet) {p : PartyID}
    (hready : (s.controls p).ready (s.parties p) (setup.cfg.task p) = true) :
    (s.controls p).pending = [] := by
  by_contra hne
  obtain ⟨action, rest, hpending⟩ := List.exists_cons_of_ne_nil hne
  have hmove := hstuck (.act p 0)
  have hevent (l : Label) : setup.event s l = some _ := event_of_fits (fits_act_of_empty hcapacity
    (hquiet.consistencyChannel l.party) (hquiet.dataChannel l.party) l)
  simp [Setup.move, hready, hpending, hevent] at hmove

theorem program_of_idle (hvalid : setup.Valid history) {p : PartyID} (hp : p ∈ setup.parties)
    (h : Queued setup p (s.parties p) (s.controls p))
    (hidle : (s.controls p).idle (s.parties p) (setup.cfg.task p) = true) :
    (s.controls p).program = [] := by
  by_contra hne
  obtain ⟨call, rest, hprogram⟩ := List.exists_cons_of_ne_nil hne
  obtain ⟨started, hstarted, hcalls⟩ := h.stage.started
  have hreturns := hvalid.returns p hp
  rw [hstarted, hprogram, List.map_append, QueueState.calls, List.foldlM_append] at hreturns
  have hcall : ((s.controls p).queue.call setup.build setup.cfg.crypto.hash
      (call, true)).isSome = true := by
    rw [QueueState.calls] at hcalls
    rw [hcalls] at hreturns
    by_contra hnone
    rw [Bool.not_eq_true, Option.isSome_eq_false_iff, Option.isNone_iff_eq_none] at hnone
    simp [hnone] at hreturns
  obtain ⟨queue, hqueue⟩ := Option.isSome_iff_exists.mp hcall
  have hmove := hstuck (.call p)
  simp [Setup.move, hidle, hprogram, hqueue] at hmove

end Stuck

/-! ## The running calls in the common history -/

/-- The running call of a queue is the operation `o` of the history, after `first`. -/
structure Setup.Running (setup : Setup sessions δ) (history : List Operation) (p : PartyID)
    (x : Party) (c : Control δ) (first : List Operation) (o : Operation) : Prop where
  place : first ++ [o] <+: history
  now : Says setup.cfg.crypto.hash p (first ++ [o]) c.queue.log
  past : setup.Emitted p x first
  blocked : ∀ channel, c.waiting = some channel →
    x.answered (setup.cfg.task p) channel = false → ∃ log : List (Action δ),
      Says setup.cfg.crypto.hash p first log ∧
        ∀ check ∈ x.requested, check ∈ log.flatMap Action.requestOf

/-- Where an element that passes a filter comes from. -/
theorem exists_of_filter_eq {α : Type} {l : List α} {f : α → Bool} {l₁ l₂ : List α} {a : α}
    (h : l.filter f = l₁ ++ a :: l₂) :
    ∃ first, first ++ [a] <+: l ∧ first.filter f = l₁ := by
  obtain ⟨m₁, m₂, rfl, h₁, h₂⟩ := List.filter_eq_append_iff.mp h
  obtain ⟨m₃, m₄, rfl, h₃, -, -⟩ := List.filter_eq_cons_iff.mp h₂
  refine ⟨m₁ ++ m₃, ⟨m₄, by simp⟩, ?_⟩
  rw [List.filter_append, h₁, List.filter_eq_nil_iff.mpr h₃, List.append_nil]

section Running

variable {p : PartyID} {x : Party} {c : Control δ} (hvalid : setup.Valid history)
  (hp : p ∈ setup.parties) (h : Queued setup p x c)
include hvalid hp h

theorem exists_running (hidle : c.idle x (setup.cfg.task p) = false) :
    ∃ first o, setup.Running history p x c first o := by
  cases h.stage with
  | start hinitial =>
      subst hinitial
      cases hidle
  | @running earlier call before current hprogram hcalls hreturns hlog hpending hfirst hwait hsent
      hreceived hrequested hblocked =>
      have hfilter := hvalid.programs p hp
      rw [hprogram, List.map_append, List.map_cons] at hfilter
      obtain ⟨first, hplace, hops⟩ := exists_of_filter_eq hfilter.symm
      have hpre : first <+: history := (List.prefix_append _ _).trans hplace
      have hlog := hvalid.says_of_calls hp hpre hcalls hops.symm
      refine ⟨first, call.operation, hplace, ?_, ?_, fun channel hchannel hanswer => ?_⟩
      · -- the party takes part in the operation of its own call
        have hparty : call.operation.party p = true := by
          have hmem : call.operation ∈ history.filter fun o => o.party p := by
            rw [← hfilter]
            exact List.mem_append_right _ List.mem_cons_self
          exact (List.mem_filter.mp hmem).2
        have hcalls' : (QueueState.initial δ p).calls setup.build setup.cfg.crypto.hash
            ((earlier ++ [call]).map fun call => (call, true)) = some c.queue := by
          rw [List.map_append, QueueState.calls, List.foldlM_append]
          exact Option.bind_eq_some_iff.mpr ⟨before, hcalls, by simp [hreturns]⟩
        refine hvalid.says_of_calls hp hplace hcalls' ?_
        have hself : [call.operation].filter (fun o => o.party p) = [call.operation] := by
          simp [hparty]
        rw [List.map_append, List.filter_append, hops, hself]
        rfl
      · exact emitted_of_log List.prefix_rfl hlog hsent hrequested
      · exact ⟨before.log, hlog, hblocked channel hchannel hanswer⟩

/-- A queue at the end of its program has done everything. -/
theorem emitted_of_program (hprogram : c.program = []) (hpending : c.pending = []) :
    setup.Emitted p x history := by
  obtain ⟨started, hstarted, hcalls⟩ := h.stage.started
  have hfilter := hvalid.programs p hp
  rw [hstarted, hprogram, List.append_nil] at hfilter
  have hsends := h.sends
  have hrequests := h.requests
  rw [hpending, List.flatMap_nil, List.append_nil] at hsends hrequests
  exact emitted_of_log List.prefix_rfl (hvalid.says_of_calls hp List.prefix_rfl hcalls hfilter)
    (fun m hm => hsends.mem_iff.mpr hm) fun check hcheck => hrequests.mem_iff.mpr hcheck

end Running

theorem Setup.Emitted.mono {p : PartyID} {x : Party} {h h' : List Operation} (hpre : h <+: h')
    (hemitted : setup.Emitted p x h') : setup.Emitted p x h :=
  ⟨fun e he => hemitted.sends e ((numbered_initial hpre).subset he),
    fun e he => hemitted.requests e ((numbered_initial hpre).subset he)⟩

theorem eq_of_prefix {α : Type} {l l₁ l₂ : List α} (h₁ : l₁ <+: l) (h₂ : l₂ <+: l)
    (hlength : l₁.length = l₂.length) : l₁ = l₂ :=
  (List.prefix_of_prefix_length_le h₁ h₂ (Nat.le_of_eq hlength)).eq_of_length hlength

section Finished

variable {s : System δ} (h : setup.Inv s) (hvalid : setup.Valid history)
  (hstuck : ∀ m, setup.move s m = none) (hquiet : s.Quiet)
include h hvalid hstuck hquiet

omit hquiet in
/-- A queue that has returned has done everything. -/
theorem emitted_of_idle {p : PartyID} (hp : p ∈ setup.parties)
    (hidle : (s.controls p).idle (s.parties p) (setup.cfg.task p) = true) :
    setup.Emitted p (s.parties p) history := by
  have hprogram := program_of_idle hstuck hvalid hp (h.queued p hp) hidle
  simp only [Control.idle, Bool.and_eq_true, List.isEmpty_iff] at hidle
  exact emitted_of_program hvalid hp (h.queued p hp) hprogram hidle.1.2

/-- **No call is left running**, by induction on its place in the history. -/
theorem idle_of_stuck (n : ℕ) : ∀ p ∈ setup.parties, ∀ first o,
    setup.Running history p (s.parties p) (s.controls p) first o → first.length = n →
    (s.controls p).idle (s.parties p) (setup.cfg.task p) = true := by
  induction n using Nat.strong_induction_on with
  | _ n ih =>
      intro p hp first o hrunning hlength
      have hpre : first <+: history := (List.prefix_append _ _).trans hrunning.place
      -- every other queue has returned, or its call is not before this one
      have hplaces : ∀ q ∈ setup.parties, setup.Emitted q (s.parties q) history ∨
          ∃ first' o', setup.Running history q (s.parties q) (s.controls q) first' o' ∧
            n ≤ first'.length := by
        intro q hq
        by_cases hidle : (s.controls q).idle (s.parties q) (setup.cfg.task q) = true
        · exact .inl (emitted_of_idle h hvalid hstuck hq hidle)
        · obtain ⟨first', o', hrunning'⟩ :=
            exists_running hvalid hq (h.queued q hq) (by simpa using hidle)
          refine .inr ⟨first', o', hrunning', Nat.le_of_not_lt fun hlt => hidle ?_⟩
          exact ih first'.length hlt q hq first' o' hrunning' rfl
      have hpast : ∀ q ∈ setup.parties, setup.Emitted q (s.parties q) first := by
        intro q hq
        rcases hplaces q hq with hall | ⟨first', o', hrunning', hle⟩
        · exact hall.mono hpre
        · have hpre' : first' <+: history := (List.prefix_append _ _).trans hrunning'.place
          exact hrunning'.past.mono (List.prefix_of_prefix_length_le hpre hpre' (by omega))
      -- so the wait of every call at this place is answered, and its actions are all done
      have hready {q : PartyID} (hq : q ∈ setup.parties) {o' : Operation}
          (hrunning' : setup.Running history q (s.parties q) (s.controls q) first o') :
          (s.controls q).ready (s.parties q) (setup.cfg.task q) = true := by
        rw [Control.ready, Option.all_eq_true]
        intro channel hchannel
        by_contra hanswer
        obtain ⟨log, hlog, hrequested⟩ :=
          hrunning'.blocked channel hchannel (by simpa using hanswer)
        exact hanswer (answered_of_emitted h hvalid hquiet hpre hpast hq hlog hrequested
          ((h.queued q hq).waiting channel hchannel))
      have hnow : ∀ q ∈ setup.parties, setup.Emitted q (s.parties q) (first ++ [o]) := by
        intro q hq
        rcases hplaces q hq with hall | ⟨first', o', hrunning', hle⟩
        · exact hall.mono hrunning.place
        · have hpre' : first' <+: history := (List.prefix_append _ _).trans hrunning'.place
          by_cases hlater : n < first'.length
          · refine hrunning'.past.mono (List.prefix_of_prefix_length_le hrunning.place hpre' ?_)
            rw [List.length_append, List.length_singleton]
            omega
          · obtain rfl : first = first' := eq_of_prefix hpre hpre' (by omega)
            have hsame : first ++ [o] = first ++ [o'] :=
              eq_of_prefix hrunning.place hrunning'.place (by simp)
            have hpending := pending_of_ready hstuck hvalid.capacity hquiet (hready hq hrunning')
            have hsends := (h.queued q hq).sends
            have hrequests := (h.queued q hq).requests
            rw [hpending, List.flatMap_nil, List.append_nil] at hsends hrequests
            rw [hsame]
            exact emitted_of_log List.prefix_rfl hrunning'.now
              (fun m hm => hsends.mem_iff.mpr hm) fun check hcheck => hrequests.mem_iff.mpr hcheck
      -- and its receives have their messages
      have hready' := hready hp hrunning
      have hpending := pending_of_ready hstuck hvalid.capacity hquiet hready'
      simp only [Control.idle, hready', hpending, List.isEmpty_nil, Bool.and_true, Bool.true_and,
        List.all_eq_true]
      rintro ⟨m, channel⟩ he
      have hreceive := (h.queued p hp).issued _ he
      have hwanted : m ∈ (s.parties p).wanted := List.mem_map_of_mem hreceive
      obtain ⟨e, hmem, hsends, hmessage⟩ :=
        (hrunning.now.wants m).mp (Says.mem_of_perm (h.queued p hp).wants hwanted)
      have hsender : m.sender ∈ setup.parties := by
        obtain ⟨operation, hoperation, hcollective⟩ := exists_operation hmem
        exact hvalid.closed operation (hrunning.place.subset hoperation) e.1 hcollective _
          (of_decide_eq_true (Collective.party_of_sends hsends).1)
      exact received_of_emitted h hvalid hquiet hp hreceive hmem hsends hmessage hsender
        (hnow m.sender hsender)

end Finished

/-- **No deadlock**: where no step is possible, every queue is at the end of its program, every wait
was answered and every receive has returned. -/
theorem finished_of_stuck {s : System δ} (h : setup.Inv s) (hvalid : setup.Valid history)
    (hfits : ∀ p, setup.fits (s.parties p) = true) (hstuck : ∀ m, setup.move s m = none) :
    setup.Finished s := by
  have hquiet := quiet_of_stuck hstuck hvalid.capacity hfits
  intro p hp
  have hidle : (s.controls p).idle (s.parties p) (setup.cfg.task p) = true := by
    by_contra hnot
    obtain ⟨first, o, hrunning⟩ :=
      exists_running hvalid hp (h.queued p hp) (by simpa using hnot)
    exact hnot (idle_of_stuck h hvalid hstuck hquiet first.length p hp first o hrunning rfl)
  exact ⟨program_of_idle hstuck hvalid hp (h.queued p hp) hidle, hidle⟩

end Hmpc.Net
