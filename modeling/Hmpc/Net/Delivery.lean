/-
# Hmpc.Net.Delivery -- what a session of honest parties delivers

Safety, in every state of every run: a receive returns the bytes its sender had at the pointer of
the send, no stream that arrives is rejected, and no consistency check fails. All three follow from
the invariant: what was accepted was sent by the queue of its sender, and what a queue sends to
several receivers in one collective of a checked kind is the same data.
-/
import Hmpc.Net.ConsistencyErrors
import Hmpc.Net.SystemRun

namespace Hmpc.Net

open Hmpc.Lib

variable {sessions : Bool} {δ : Type} {setup : Setup sessions δ} {history : List Operation}

/-! ## What a queue has sent -/

/-- A message that was sent is a send of the queue. -/
theorem Queued.send_of_sent {p : PartyID} {x : Party} {c : Control δ} (h : Queued setup p x c)
    {m : SendMessage} (hm : m ∈ x.sentData) :
    ∃ data, .send m.metadata data ∈ c.queue.log ∧ m.data = setup.memory p data := by
  obtain ⟨action, haction, hmem⟩ := List.mem_flatMap.mp (Says.mem_of_perm h.sends hm)
  cases action with
  | send message data =>
      obtain rfl := List.mem_singleton.mp hmem
      exact ⟨data, haction, rfl⟩
  | _ => cases hmem

/-- **A sender of a checked kind tells everybody the same.** -/
theorem Queued.dataAsSlice_eq {p : PartyID} {x : Party} {c : Control δ}
    (hvalid : setup.Valid history) (hp : p ∈ setup.parties) (h : Queued setup p x c)
    {m m' : SendMessage} (hm : m ∈ x.sentData) (hm' : m' ∈ x.sentData)
    (hkind : m.metadata.kind.needsCheck = true)
    (hsame : (m.metadata.kind, m.metadata.datatype, m.metadata.id) =
      (m'.metadata.kind, m'.metadata.datatype, m'.metadata.id)) :
    m.metadata.dataAsSlice m.data = m'.metadata.dataAsSlice m'.data := by
  obtain ⟨first, hpre, hlog⟩ := hvalid.exists_saying hp h
  obtain ⟨data, hsend, hdata⟩ := h.send_of_sent hm
  obtain ⟨data', hsend', hdata'⟩ := h.send_of_sent hm'
  obtain ⟨e, he, -, hmessage⟩ := h.sent hvalid hp hm
  obtain ⟨e', he', -, hmessage'⟩ := h.sent hvalid hp hm'
  have hsize : m.metadata.size = m'.metadata.size := by
    -- one collective has one size
    have heq : e = e' := by
      refine List.inj_on_of_nodup_map (hvalid.triples List.prefix_rfl) he he' ?_
      rw [hmessage, hmessage'] at hsame
      exact hsame
    rw [hmessage, hmessage', heq]
    rfl
  rw [hdata, hdata', hlog.shared _ _ _ _ hsend hsend' hkind hsame, Message.dataAsSlice,
    Message.dataAsSlice, hsize]

namespace Setup.Inv

variable {s : System δ} (h : setup.Inv s)
include h

/-- A message that is no check was sent by the queue of a party, to the party that accepted it. -/
theorem sent_of_accepted {p : PartyID} {a : ReceiveMessage × Signature}
    (ha : a ∈ (s.parties p).accepted) (hkind : a.1.metadata.kind.isConsistencyCheck = false) :
    ∃ q ∈ setup.parties, ∃ m ∈ (s.parties q).sentData,
      a = setup.delivered q m ∧ m.metadata.receiver = p := by
  obtain ⟨q, hq, m, ho, rfl⟩ := h.conserved.accepted p a ha
  rcases List.mem_append.mp ho with hdata | hcheck
  · obtain ⟨m', hm', heq⟩ := List.mem_map.mp hdata
    obtain ⟨hreceiver, rfl⟩ := Prod.mk.inj heq
    exact ⟨q, hq, m', hm', rfl, hreceiver⟩
  · obtain ⟨key, receivers, data, -, -, -, rfl⟩ := h.exists_request hcheck
    have hcheck : MessageKind.isConsistencyCheck _ = false := hkind
    rw [show (setup.delivered q _).1.metadata.kind = MessageKind.toCheck key.kind from rfl,
      MessageKind.toCheck_isConsistencyCheck] at hcheck
    cases hcheck

variable (hvalid : setup.Valid history)
include hvalid

/-- The message of an operation of a checked kind, as a party has accepted it. -/
theorem sent_of_isOf {p : PartyID} {key : Consistency.Key} {a : ReceiveMessage × Signature}
    (ha : a ∈ (s.parties p).accepted) (hkey : key.isOf a.1.metadata = true) :
    key.sender ∈ setup.parties ∧ ∃ m ∈ (s.parties key.sender).sentData,
      a = setup.delivered key.sender m ∧ m.metadata.receiver = p ∧ key.isOf m.metadata = true := by
  have hof := Consistency.Key.isOf_iff.mp hkey
  have hkind : a.1.metadata.kind.isConsistencyCheck = false := by
    rw [hof.1]
    exact MessageKind.not_isConsistencyCheck_of_needsCheck key.kind.2
  obtain ⟨q, hq, m, hm, rfl, hreceiver⟩ := h.sent_of_accepted ha hkind
  obtain ⟨e, -, -, hmessage⟩ := (h.queued q hq).sent hvalid hq hm
  obtain rfl : q = key.sender := by
    have hsender : m.metadata.sender = key.sender := hof.2.2.1
    rw [← hsender, hmessage]
    rfl
  exact ⟨hq, m, hm, rfl, hreceiver, hkey⟩

/-- **All checks are valid**: both receivers got the same bytes, and the signature the check hands
on is that of the sender. -/
theorem all_valid (p : PartyID) (key : Consistency.Key) :
    Consistency.AllValid (setup.cfg.task p) key (Consistency.ops (s.parties p).inputs) := by
  intro receivers data hrequest hdata r hr check hcheck
  obtain ⟨b, hb, hbkey, rfl⟩ := (h.sound p).accepted_of_data hdata
  obtain ⟨hr', -, hknown⟩ := h.check_origin hcheck
  obtain ⟨a, hfirst, rfl⟩ := (h.sound r).first_of_known hknown
  have ha := List.mem_of_find?_eq_some hfirst
  have hakey := List.find?_some (p := fun a : ReceiveMessage × Signature => key.isOf a.1.metadata)
    hfirst
  obtain ⟨hq, m, hm, rfl, hto, hmkey⟩ := h.sent_of_isOf hvalid ha hakey
  obtain ⟨-, m', hm', rfl, -, hmkey'⟩ := h.sent_of_isOf hvalid hb hbkey
  rw [Consistency.Key.isOf_iff] at hmkey hmkey'
  obtain ⟨h₁, h₂, h₃, h₄⟩ := hmkey
  obtain ⟨h₁', h₂', -, h₄'⟩ := hmkey'
  refine ⟨?_, ?_⟩
  · obtain ⟨pk, hpk, hverify⟩ := hvalid.keys key.sender hq
    have hsigned : Consistency.signedMetadata setup.cfg.session key r
        (setup.cfg.record (setup.delivered key.sender m)) =
          m.signedMetadata setup.cfg.crypto setup.cfg.session := by
      rw [Consistency.signedMetadata_eq_layout, SendMessage.signedMetadata_eq_layout, h₁, h₂, h₃,
        h₄, hto]
      rfl
    have hpk' : (setup.cfg.task p).verificationKeys key.sender = some pk := hpk
    rw [Consistency.checkSignature, hpk']
    show (if setup.cfg.crypto.verify pk (Consistency.signedMetadata setup.cfg.session key r _) _
      then _ else _) = _
    rw [hsigned]
    exact if_pos (hverify _)
  · show setup.cfg.crypto.hash _ = setup.cfg.crypto.hash _
    refine congrArg setup.cfg.crypto.hash ?_
    refine (h.queued key.sender hq).dataAsSlice_eq hvalid hq hm' hm ?_ ?_
    · rw [h₁']
      exact key.kind.2
    · rw [h₁, h₂, h₄, h₁', h₂', h₄']

/-- What was answered is what was sent. -/
theorem answer {p : PartyID} (hp : p ∈ setup.parties) {m : Message} {channel : AnswerChannel}
    {payload : OwnedData} (hanswer : (m, channel, payload) ∈
      MessageBuffer.answers (s.parties p).buffer.2) :
    m.receiver = p ∧ m.sender ∈ setup.parties ∧ ∃ x ∈ (s.parties m.sender).sentData,
      x.metadata = m ∧ payload = m.dataAsSlice x.data := by
  have hwanted : m ∈ (s.parties p).wanted := by
    have hcounted := (MessageBuffer.sourced_run (s.parties p).commands).counted
      fun m' => decide (m' = m)
    have hone : 0 < (MessageBuffer.answers (s.parties p).buffer.2).countP
        fun e => decide (e.1 = m) := List.countP_pos_iff.mpr ⟨_, hanswer, by simp⟩
    have hrequested : 0 < (MessageBuffer.requests (s.parties p).commands).countP
        fun e => decide (e.1 = m) := by
      have := Nat.le_of_add_right_le hcounted
      exact Nat.lt_of_lt_of_le hone this
    obtain ⟨e, he, heq⟩ := List.countP_pos_iff.mp hrequested
    refine List.mem_map.mpr ⟨e, ?_, of_decide_eq_true heq⟩
    rw [Party.receives, Party.dataLog, MessageBuffer.requests_append]
    exact List.mem_append_left _ he
  have hkind : m.kind.isConsistencyCheck = false := by
    obtain ⟨first, -, hlog⟩ := hvalid.exists_saying hp (h.queued p hp)
    obtain ⟨e, he, -, hmessage⟩ :=
      (hlog.wants m).mp (Says.mem_of_perm (h.queued p hp).wants hwanted)
    obtain ⟨operation, -, hcollective⟩ := exists_operation he
    rw [hmessage]
    exact kind_of_collectives hcollective
  obtain ⟨a, ha, rfl, rfl⟩ := (h.sound p).accepted_of_answer hanswer
  obtain ⟨q, hq, x, hx, rfl, hreceiver⟩ := h.sent_of_accepted ha hkind
  obtain ⟨e, -, -, hmessage⟩ := (h.queued q hq).sent hvalid hq hx
  have hsender : x.metadata.sender = q := by
    rw [hmessage]
    rfl
  refine ⟨hreceiver, ?_, x, ?_, rfl, rfl⟩
  · show x.metadata.sender ∈ setup.parties
    rwa [hsender]
  · show x ∈ (s.parties x.metadata.sender).sentData
    rwa [hsender]

end Setup.Inv

/-! ## Safety -/

/-- **What is received is what was sent**, in every state of every run: the answer of a receive has
the bytes the sender had at the pointer of its send, all of them and no others. -/
theorem received_is_sent (setup : Setup sessions δ) (history : List Operation)
    (hvalid : setup.Valid history) (moves : List Move) (s : System δ)
    (hrun : setup.run moves = some s) (p : PartyID) (hp : p ∈ setup.parties) :
    ∀ m channel payload, (m, channel, payload) ∈ MessageBuffer.answers (s.parties p).buffer.2 →
      m.receiver = p ∧ m.sender ∈ setup.parties ∧
        ∃ data, .send m data ∈ (s.controls m.sender).queue.log ∧
          payload = m.dataAsSlice (setup.memory m.sender data) ∧
          payload.length = m.size.toNat := by
  intro m channel payload hanswer
  have h := Setup.inv_run hvalid hrun
  obtain ⟨hreceiver, hsender, x, hx, rfl, rfl⟩ := h.answer hvalid hp hanswer
  obtain ⟨data, hsend, hdata⟩ := (h.queued _ hsender).send_of_sent hx
  exact ⟨hreceiver, hsender, data, hsend, by rw [hdata], Message.length_dataAsSlice _ _⟩

namespace Recorded

/-- Party 0 broadcasts its first message, and party 1 receives it. -/
def firstBroadcast : List Move :=
  [ .call 0, .act 0 0, .consistencyStep 0, .act 0 0, .arrive 0, .forward 1 0,
    .call 1, .act 1 0, .consistencyStep 1, .consistencyStep 1, .act 1 0, .act 1 0,
    .dataStep 1, .dataStep 1 ]

def afterFirst : System Unit := (threeParties.run firstBroadcast).getD threeParties.initial

theorem run_firstBroadcast : threeParties.run firstBroadcast = some afterFirst := by
  have hsome : (threeParties.run firstBroadcast).isSome = true := by decide +kernel
  obtain ⟨s, hs⟩ := Option.isSome_iff_exists.mp hsome
  rw [afterFirst, hs, Option.getD_some]

end Recorded

theorem received_is_sent_three :
    let m : Message := ⟨.broadcast, 6, 0, 1, 0x2868168c2202213b, 8⟩
    ∃ data, .send m data ∈ (Recorded.afterFirst.controls 0).queue.log ∧
      m.dataAsSlice (Recorded.threeParties.memory 0 data) = [0, 0, 0, 0, 0, 0, 0, 0] := by
  intro m
  obtain ⟨-, -, data, hsend, hpayload, -⟩ := received_is_sent Recorded.threeParties
    Recorded.history Recorded.threeParties_valid Recorded.firstBroadcast Recorded.afterFirst
    Recorded.run_firstBroadcast 1 (by decide) m 1 [0, 0, 0, 0, 0, 0, 0, 0] (by decide +kernel)
  exact ⟨data, hsend, hpayload.symm⟩

/-- **Nothing goes wrong between honest parties**: no stream in flight will be rejected or panic,
and no check fails or is unexpected. -/
theorem nothing_fails (setup : Setup sessions δ) (history : List Operation)
    (hvalid : setup.Valid history) (moves : List Move) (s : System δ)
    (hrun : setup.run moves = some s) :
    (∀ party stream, (party, stream) ∈ s.network →
      (∃ check, setup.cfg.handle stream = .check check) ∨
        ∃ data message, setup.cfg.handle stream = .message data message) ∧
    ∀ p key e, .checkError key e ∉ ((s.parties p).consistency (setup.cfg.task p)).2 ∧
      .registerError key e ∉ ((s.parties p).consistency (setup.cfg.task p)).2 := by
  have h := Setup.inv_run hvalid hrun
  refine ⟨fun party stream hflight => ?_, fun p key e => ?_⟩
  · obtain ⟨q, hq, o, ho, heq⟩ := h.conserved.flight _ hflight
    obtain ⟨-, rfl⟩ := Prod.mk.inj heq
    have hread := h.read hvalid hq ho
    rcases Config.handle_cases hread with ⟨-, -, ⟨check, -, hcheck⟩ | hpanic⟩ | ⟨-, hmessage⟩
    · exact .inl ⟨check, hcheck⟩
    · exfalso
      rcases List.mem_append.mp ho with hdata | hchecks
      · obtain ⟨m, hm, rfl⟩ := List.mem_map.mp hdata
        have hkind : m.metadata.kind.isConsistencyCheck = false := by
          simpa using (List.mem_filter.mp hm).2
        simp [Config.handle, hread, Setup.delivered, hkind] at hpanic
      · obtain ⟨key, receivers, data, -, -, -, heq⟩ := h.exists_request hchecks
        obtain ⟨check, hcheck, -⟩ := tryIntoCheck_checkMessage q key data
        rw [← dataAsSlice_checkMessage q key data, ← heq] at hcheck
        have hkind : o.2.metadata.kind.isConsistencyCheck = true := by
          rw [heq]
          exact MessageKind.toCheck_isConsistencyCheck key.kind
        simp [Config.handle, hread, Setup.delivered, hkind, hcheck] at hpanic
    · exact .inr ⟨_, _, hmessage⟩
  · exact Consistency.no_errors_run (h.once p) (h.expected p key) (h.all_valid hvalid p key) e

/-- The broadcast message in flight is accepted when it arrives. -/
theorem nothing_fails_three : ∃ s, Recorded.threeParties.run (Recorded.firstBroadcast.take 4) =
      some s ∧ s.network.map Prod.fst = [1] ∧
    ∀ party stream, (party, stream) ∈ s.network →
      (∃ check, Recorded.threeParties.cfg.handle stream = .check check) ∨
        ∃ data message, Recorded.threeParties.cfg.handle stream = .message data message := by
  have hflight : (Recorded.threeParties.run (Recorded.firstBroadcast.take 4)).map
      (fun s => s.network.map Prod.fst) = some [1] := by decide +kernel
  obtain ⟨s, hrun, hnetwork⟩ := Option.map_eq_some_iff.mp hflight
  exact ⟨s, hrun, hnetwork, (nothing_fails Recorded.threeParties Recorded.history
    Recorded.threeParties_valid _ s hrun).1⟩

/-- **A session of honest parties is one that the adversary could have run**: each run of the system
is a run of the servers in which the parties are honest and no signature is forged, and in addition
no request is dropped. -/
theorem session_refines_server (setup : Setup sessions δ) (history : List Operation)
    (hvalid : setup.Valid history) (moves : List Move) (s : System δ)
    (hrun : setup.run moves = some s) :
    ∃ labels, Admits (step setup.cfg)
        (fun s l => (Honest setup.cfg s l && Genuine setup.cfg s l) = true) State.initial labels ∧
      run setup.cfg labels = s.parties ∧
      ∀ p key, (run setup.cfg labels p).Expected (setup.cfg.task p) key := by
  have h := Setup.inv_run hvalid hrun
  obtain ⟨labels, hadmits, heq⟩ := h.session
  exact ⟨labels, hadmits, heq, fun p key => heq ▸ h.expected p key⟩

theorem session_refines_server_three : ∃ labels,
    run Recorded.threeParties.cfg labels = Recorded.afterFirst.parties ∧
      (run Recorded.threeParties.cfg labels 1).accepted.length = 1 := by
  obtain ⟨labels, -, heq, -⟩ := session_refines_server Recorded.threeParties Recorded.history
    Recorded.threeParties_valid Recorded.firstBroadcast Recorded.afterFirst
    Recorded.run_firstBroadcast
  have hone : (Recorded.afterFirst.parties 1).accepted.length = 1 := by decide +kernel
  exact ⟨labels, heq, by rw [heq, hone]⟩

end Hmpc.Net
