/-
# Hmpc.Net.SystemRun -- every run of a session of honest parties

The invariant `Setup.Inv` and that each step keeps it. A step of the system is an event that an
honest party may do and no forgery, because what arrives was signed by its sender; that is where the
results about runs with an adversary come in. A request is never dropped: a check that came before
it is from a party that has requested the same operation and named this one, and any two receivers
of a message name each other.
-/
import Hmpc.Lib.Progress
import Hmpc.Net.SystemInvariant

namespace Hmpc.Net

open Hmpc.Lib

variable {sessions : Bool} {δ : Type} {setup : Setup sessions δ} {history : List Operation}

/-! ## Messages on their way -/

/-- What is in flight was sent, what was accepted was sent to the party that has accepted it, and
what was sent is in flight or accepted. -/
structure Setup.Conserved (setup : Setup sessions δ) (parties : State)
    (network : List (PartyID × List Byte)) : Prop where
  flight : ∀ e ∈ network, ∃ q ∈ setup.parties, ∃ o ∈ setup.outgoing parties q,
    e = (o.1, setup.stream q o.2)
  accepted : ∀ p, ∀ a ∈ (parties p).accepted, ∃ q ∈ setup.parties, ∃ m,
    (p, m) ∈ setup.outgoing parties q ∧ a = setup.delivered q m
  kept : ∀ q ∈ setup.parties, ∀ o ∈ setup.outgoing parties q,
    (o.1, setup.stream q o.2) ∈ network ∨ setup.delivered q o.2 ∈ (parties o.1).accepted

/-- The messages an event adds, each with the party it goes to. -/
def Label.news (cfg : Config sessions) (p : Party) (l : Label) : List (PartyID × SendMessage) :=
  (l.sends.map fun m => (m.metadata.receiver, m)) ++ (l.checksOf cfg p).map fun e => (e.2, e.1)

theorem mem_outgoing_step {s : State} {l : Label} {q : PartyID} {o : PartyID × SendMessage}
    (hsends : ∀ m ∈ l.sends, m.metadata.kind.isConsistencyCheck = false) :
    o ∈ setup.outgoing (step setup.cfg s l).1 q ↔
      o ∈ setup.outgoing s q ∨ (q = l.party ∧ o ∈ l.news setup.cfg (s q)) := by
  rw [Setup.outgoing, Setup.outgoing, step_eq]
  split
  · rename_i hparty
    subst hparty
    rw [sentData_act l _ hsends, checkMessages_act, Label.news]
    simp only [List.map_append, List.mem_append, true_and]
    tauto
  · rename_i hparty
    simp [hparty]

/-- **One event**, whose network is the old one with what was sent and without what has arrived. -/
theorem conserved_event {s : State} {network network' : List (PartyID × List Byte)} {l : Label}
    (h : setup.Conserved s network) (hparty : l.party ∈ setup.parties)
    (hsends : ∀ m ∈ l.sends, m.metadata.kind.isConsistencyCheck = false)
    (hread : ∀ q ∈ setup.parties, ∀ o ∈ setup.outgoing s q,
      setup.cfg.read (setup.stream q o.2) = .ok (setup.delivered q o.2))
    (hfrom : ∀ e ∈ network', e ∈ network ∨
      ∃ o ∈ l.news setup.cfg (s l.party), e = (o.1, setup.stream l.party o.2))
    (hnews : ∀ o ∈ l.news setup.cfg (s l.party), (o.1, setup.stream l.party o.2) ∈ network')
    (harrived : ∀ e ∈ network, e ∈ network' ∨
      e.1 = l.party ∧ setup.cfg.accepts e.2 ⊆ l.accepts setup.cfg)
    (haccepts : ∀ a ∈ l.accepts setup.cfg, ∃ stream, (l.party, stream) ∈ network ∧
      setup.cfg.read stream = .ok a) :
    setup.Conserved (step setup.cfg s l).1 network' := by
  have hkeep {q : PartyID} {o : PartyID × SendMessage} (ho : o ∈ setup.outgoing s q) :
      o ∈ setup.outgoing (step setup.cfg s l).1 q := (mem_outgoing_step hsends).mpr (.inl ho)
  have haccepted (p : PartyID) {a : ReceiveMessage × Signature} (ha : a ∈ (s p).accepted) :
      a ∈ ((step setup.cfg s l).1 p).accepted := by
    rw [step_eq]
    split
    · rename_i hp
      rw [accepted_act]
      exact List.mem_append_left _ (hp ▸ ha)
    · exact ha
  refine ⟨fun e he => ?_, fun p a ha => ?_, fun q hq o ho => ?_⟩
  · rcases hfrom e he with hold | ⟨o, ho, rfl⟩
    · obtain ⟨q, hq, o, ho, rfl⟩ := h.flight e hold
      exact ⟨q, hq, o, hkeep ho, rfl⟩
    · exact ⟨l.party, hparty, o, (mem_outgoing_step hsends).mpr (.inr ⟨rfl, ho⟩), rfl⟩
  · have hold (ha : a ∈ (s p).accepted) : ∃ q ∈ setup.parties, ∃ m,
        (p, m) ∈ setup.outgoing (step setup.cfg s l).1 q ∧ a = setup.delivered q m := by
      obtain ⟨q, hq, m, hm, rfl⟩ := h.accepted p a ha
      exact ⟨q, hq, m, hkeep hm, rfl⟩
    rw [step_eq] at ha
    split at ha
    · rename_i hp
      subst hp
      rw [accepted_act] at ha
      rcases List.mem_append.mp ha with ha | ha
      · exact hold ha
      · -- a stream that arrives was in flight, so it is read as it was sent
        obtain ⟨stream, hmem, hok⟩ := haccepts a ha
        obtain ⟨q, hq, ⟨r, m⟩, ho, heq⟩ := h.flight _ hmem
        obtain ⟨rfl, rfl⟩ := Prod.mk.inj heq
        rw [hread q hq _ ho] at hok
        exact ⟨q, hq, m, hkeep ho, (Except.ok.inj hok).symm⟩
    · exact hold ha
  · rcases (mem_outgoing_step hsends).mp ho with hold | ⟨rfl, hnew⟩
    · rcases h.kept q hq o hold with hflight | hdone
      · rcases harrived _ hflight with hstill | ⟨hto, hsub⟩
        · exact .inl hstill
        · right
          simp only at hto hsub
          rw [step_eq, if_pos hto, accepted_act]
          refine List.mem_append_right _ (hsub ?_)
          simp [Config.accepts, hread q hq o hold]
      · exact .inr (haccepted _ hdone)
    · exact .inl (hnews o hnew)

/-! ### A message that was sent is read as it was sent -/

theorem Config.overhead_le (cfg : Config sessions) : cfg.overhead ≤ 96 := by
  unfold overhead
  cases sessions with
  | false => exact Nat.le_add_right 80 16
  | true => exact Nat.le_refl 96

theorem Setup.length_stream (party : PartyID) (m : SendMessage) :
    (setup.stream party m).length = setup.cfg.overhead + m.metadata.size.toNat := by
  have hsession : (setup.cfg.session.elim (toLeBytes 16) []).length =
      setup.cfg.session.elim (fun _ => 16) 0 := by
    obtain ⟨cfg⟩ := setup
    cases sessions with
    | false => rfl
    | true => exact length_toLeBytes 16 _
  have hsign (signature : Signature) : signature.1.length = 64 := signature.2
  rw [Setup.stream, SendMessage.writeTo, List.length_append, List.length_append,
    List.length_append, hsession, Message.length_dataAsSlice, Config.overhead]
  simp only [List.length_append, length_toLeBytes, MessageKind.length_toLeBytes]
  show 1 + 1 + 1 + 1 + 2 + 2 + 8 + _ + _ + List.length (Subtype.val _) = _
  rw [hsign]
  omega

theorem Setup.Valid.read_stream (hvalid : setup.Valid history) {q : PartyID}
    (hq : q ∈ setup.parties) {m : SendMessage} (hsigner : (setup.delivered q m).1.signer = q)
    (hsize : setup.cfg.overhead + m.metadata.size.toNat ≤ messageSizeLimit) :
    setup.cfg.read (setup.stream q m) = .ok (setup.delivered q m) := by
  obtain ⟨key, hkey, hverify⟩ := hvalid.keys q hq
  have hlimit : (setup.stream q m).length ≤ messageSizeLimit := by
    rw [Setup.length_stream]
    exact hsize
  have hsigned : (setup.delivered q m).1.signedMetadata setup.cfg.crypto setup.cfg.session =
      m.signedMetadata setup.cfg.crypto setup.cfg.session := by
    rw [ReceiveMessage.signedMetadata_eq_layout, SendMessage.signedMetadata_eq_layout]
    rfl
  have hok : (if setup.cfg.crypto.verify key ((setup.delivered q m).1.signedMetadata
      setup.cfg.crypto setup.cfg.session) (setup.delivered q m).2.1 then
        (.ok () : Except ServerError Unit)
      else .error (.signature .signatureVerification)) = .ok () := by
    rw [hsigned]
    exact if_pos (hverify _)
  refine (readFrom_writeTo hlimit).trans ?_
  have hsigner' : (ReceiveMessage.mk m.metadata (m.metadata.dataAsSlice m.data)).signer = q :=
    hsigner
  dsimp only [ReceiveMessage.verifySignature, collective]
  rw [hsigner', hkey]
  exact congrArg (fun x => Except.bind x _) hok

/-! ## The invariant -/

/-- **What holds in every state of a session.** -/
structure Setup.Inv (setup : Setup sessions δ) (s : System δ) : Prop where
  session : ∃ labels, Admits (step setup.cfg)
    (fun s l => (Honest setup.cfg s l && Genuine setup.cfg s l) = true) State.initial labels ∧
      Net.run setup.cfg labels = s.parties
  outside : ∀ p, p ∉ setup.parties →
    s.parties p = Party.initial ∧ (s.controls p).program = [] ∧ (s.controls p).pending = []
  queued : ∀ p ∈ setup.parties, Queued setup p (s.parties p) (s.controls p)
  conserved : setup.Conserved s.parties s.network
  /-- no request was dropped -/
  expected : ∀ p key, (s.parties p).Expected (setup.cfg.task p) key
  /-- no check message has failed -/
  net : ∀ p, ∀ i ∈ (s.parties p).inputs, ∀ r, i.net r = .ok

namespace Setup.Inv

variable {s : System δ} (h : setup.Inv s)
include h

theorem sound (p : PartyID) : (s.parties p).Sound setup.cfg p := by
  obtain ⟨labels, hrun, heq⟩ := h.session
  rw [← heq]
  exact sound_run (fun _ _ hl => (Bool.and_eq_true_iff.mp hl).1) hrun p

theorem forwards (p : PartyID) : (s.parties p).Forwards setup.cfg := by
  obtain ⟨labels, hrun, heq⟩ := h.session
  rw [← heq]
  exact forwards_run hrun p

theorem once (p : PartyID) : Consistency.OneRequest (s.parties p).inputs :=
  Party.oneRequest (h.sound p).requests

theorem outgoing_sent {p : PartyID} {o : PartyID × SendMessage}
    (ho : o ∈ setup.outgoing s.parties p) : o.2 ∈ (s.parties p).sent := by
  rcases List.mem_append.mp ho with hdata | hcheck
  · obtain ⟨m, hm, rfl⟩ := List.mem_map.mp hdata
    exact (List.mem_filter.mp hm).1
  · obtain ⟨labels, hrun, heq⟩ := h.session
    rw [← heq] at hcheck ⊢
    exact checkMessages_subset hrun p o hcheck

/-- A check message is about the data of an operation that was requested with its receiver. -/
theorem exists_request {p : PartyID} {o : PartyID × SendMessage}
    (ho : o ∈ (s.parties p).checkMessages (setup.cfg.task p)) :
    ∃ key receivers data, .request key receivers ∈ Consistency.ops (s.parties p).inputs ∧
      (Consistency.known key (Consistency.ops (s.parties p).inputs)).data = some data ∧
      o.1 ∈ receivers ∧ o.2 = Consistency.checkMessage p key data := by
  obtain ⟨⟨m, r⟩, hm, rfl⟩ := List.mem_map.mp ho
  obtain ⟨key, hdue⟩ := Consistency.due_of_checksSent (h.once p) (h.expected p) (h.net p) hm
  obtain ⟨receivers, data, hrequest, hdata, hr, rfl⟩ := Consistency.mem_due.mp hdue
  exact ⟨key, receivers, data, Consistency.mem_of_known_request hrequest, hdata, hr, rfl⟩

variable (hvalid : setup.Valid history)
include hvalid

/-- The collective of an operation the consistency task has a request of. -/
theorem requested {p : PartyID} (hp : p ∈ setup.parties) {key : Consistency.Key}
    {receivers : Communicator}
    (hrequest : .request key receivers ∈ Consistency.ops (s.parties p).inputs) :
    ∃ e ∈ numbered setup.cfg.crypto.hash history, e.1.sends key.sender p = true ∧
      e.1.kind.needsCheck = true ∧ receivers = e.1.others key.sender p ∧
      e.triple setup.cfg.crypto.hash = (key.kind.1, key.datatype, key.id) := by
  obtain ⟨check, hcheck, rfl, rfl⟩ := Party.requested_of_op hrequest
  obtain ⟨e, he, hsends, hmem⟩ := (h.queued p hp).requested hvalid hp hcheck
  obtain ⟨hkind, h₁, h₂, -, h₄, h₅⟩ := Collective.mem_checks hmem
  refine ⟨e, he, hsends, hkind, h₄, ?_⟩
  simp only [Numbered.triple, requestKey, h₁, h₂, h₅]

/-- Who is sent to, who has signed, and how long the message is. -/
theorem outgoing_valid {p : PartyID} (hp : p ∈ setup.parties) {o : PartyID × SendMessage}
    (ho : o ∈ setup.outgoing s.parties p) :
    o.1 ∈ setup.parties ∧ (setup.delivered p o.2).1.signer = p ∧
      setup.cfg.overhead + o.2.metadata.size.toNat ≤ messageSizeLimit := by
  have hclosed {e : Numbered} (he : e ∈ numbered setup.cfg.crypto.hash history) {q r : PartyID}
      (hsends : e.1.sends q r = true) : ∀ x ∈ e.1.parties, x ∈ setup.parties := by
    obtain ⟨operation, hoperation, hcollective⟩ := exists_operation he
    exact hvalid.closed operation hoperation e.1 hcollective
  rcases List.mem_append.mp ho with hdata | hcheck
  · obtain ⟨m, hm, rfl⟩ := List.mem_map.mp hdata
    obtain ⟨e, he, hsends, hmessage⟩ := (h.queued p hp).sent hvalid hp hm
    obtain ⟨operation, hoperation, hcollective⟩ := exists_operation he
    refine ⟨hclosed he hsends _ (of_decide_eq_true (Collective.party_of_sends hsends).2), ?_, ?_⟩
    · have hkind := kind_of_collectives hcollective
      have hmeta : (setup.delivered p m).1.metadata = e.message setup.cfg.crypto.hash p
          m.metadata.receiver := hmessage
      rw [ReceiveMessage.signer, hmeta]
      exact if_neg (by simp [Numbered.message, Collective.message, hkind])
    · show _ + m.metadata.size.toNat ≤ _
      rw [hmessage]
      exact hvalid.sizes operation hoperation e.1 hcollective
  · obtain ⟨key, receivers, data, hrequest, -, hr, heq⟩ := h.exists_request hcheck
    obtain ⟨e, he, hsends, -, rfl, -⟩ := h.requested hvalid hp hrequest
    refine ⟨hclosed he hsends _ ?_, ?_, ?_⟩
    · exact List.mem_append_left _ (List.mem_append_right _ (Communicator.mem_filter.mp hr).1)
    · rw [heq]
      exact if_pos (MessageKind.toCheck_isConsistencyCheck key.kind)
    · have hlength := congrArg List.length (dataAsSlice_checkMessage p key data)
      rw [Message.length_dataAsSlice, List.length_append, data.hash.2, data.signature.2] at hlength
      have hoverhead := setup.cfg.overhead_le
      rw [heq, hlength]
      simp only [messageSizeLimit, hashSize, signatureSize]
      omega

theorem read {p : PartyID} (hp : p ∈ setup.parties) {o : PartyID × SendMessage}
    (ho : o ∈ setup.outgoing s.parties p) :
    setup.cfg.read (setup.stream p o.2) = .ok (setup.delivered p o.2) := by
  obtain ⟨-, hsigner, hsize⟩ := h.outgoing_valid hvalid hp ho
  exact hvalid.read_stream hp hsigner hsize

omit hvalid in
/-- **Where a check comes from**: its party has requested the operation with this party among the
receivers, and what it tells is its own data. -/
theorem check_origin {p r : PartyID} {key : Consistency.Key} {check : Consistency.CheckData}
    (hcheck : .check key r check ∈ Consistency.ops (s.parties p).inputs) :
    r ∈ setup.parties ∧
      (∃ receivers, .request key receivers ∈ Consistency.ops (s.parties r).inputs ∧
        p ∈ receivers) ∧
      (Consistency.known key (Consistency.ops (s.parties r).inputs)).data = some check := by
  obtain ⟨a, ha, -, hkind, hdatatype, hsender, hreceiver, hid, hdata⟩ :=
    (h.sound p).accepted_of_check hcheck
  obtain ⟨q, hq, m, ho, rfl⟩ := h.conserved.accepted p a ha
  rcases List.mem_append.mp ho with hsent | hchecks
  · obtain ⟨m, hm, heq⟩ := List.mem_map.mp hsent
    obtain ⟨-, rfl⟩ := Prod.mk.inj heq
    have hnot := (List.mem_filter.mp hm).2
    have hkind' : m.metadata.kind = MessageKind.toCheck key.kind := hkind
    rw [hkind', MessageKind.toCheck_isConsistencyCheck] at hnot
    cases hnot
  · obtain ⟨key', receivers, data, hrequest, hknown, hr, rfl⟩ := h.exists_request hchecks
    obtain rfl : q = r := hreceiver
    obtain rfl : key' = key := Consistency.Key.eq_of_toCheck hkind hdatatype hsender hid
    obtain rfl : data = check := by
      refine Consistency.CheckData.eq_of_bytes ?_
      rw [← dataAsSlice_checkMessage q key' data]
      exact hdata
    exact ⟨hq, ⟨receivers, hrequest, hr⟩, hknown⟩

/-- **Two receivers of a message name each other.** -/
theorem mem_receivers {p r : PartyID} (hp : p ∈ setup.parties) (hr : r ∈ setup.parties)
    {key : Consistency.Key} {check : ConsistencyCheck} (hcheck : check ∈ (s.parties p).requested)
    (hkey : requestKey check = key) {receivers : Communicator}
    (hrequest : .request key receivers ∈ Consistency.ops (s.parties r).inputs)
    (hmem : p ∈ receivers) : r ∈ check.receivers := by
  subst hkey
  obtain ⟨e, he, hsends, hchecks⟩ := (h.queued p hp).requested hvalid hp hcheck
  obtain ⟨hkind, h₁, h₂, -, h₄, h₅⟩ := Collective.mem_checks hchecks
  obtain ⟨e', he', hsends', -, rfl, htriple⟩ := h.requested hvalid hr hrequest
  -- both requests are about one collective
  obtain rfl : e = e' := by
    refine List.inj_on_of_nodup_map (hvalid.triples List.prefix_rfl) he he' ?_
    rw [htriple]
    simp only [Numbered.triple, requestKey, h₁, h₂, h₅]
  rw [h₄]
  obtain ⟨-, hne⟩ := Communicator.mem_filter.mp hmem
  obtain ⟨hother, -⟩ := of_decide_eq_true hne
  refine Communicator.mem_filter.mpr ⟨receiver_of_sends hkind hsends', ?_⟩
  refine decide_eq_true ⟨Ne.symm hother, fun heq => ?_⟩
  have hself : e.1.sends check.sender r = true := hsends'
  simp [← heq, Collective.sends] at hself

/-- **No request is dropped.** -/
theorem expected_step {p : PartyID} (hp : p ∈ setup.parties) (key : Consistency.Key) :
    (s.parties p).unexpected (setup.cfg.task p) key = false := by
  rw [Party.unexpected]
  split
  · rfl
  · rename_i command rest hchannel
    rw [Bool.and_eq_false_imp]
    intro hrequested
    rw [Bool.not_eq_false']
    unfold Consistency.coveredOp
    split
    · rename_i key' receivers hop
      obtain ⟨check, rfl⟩ : ∃ check, command = .request check := by
        cases command with
        | request check => exact ⟨check, rfl⟩
        | _ => cases hop
      obtain ⟨rfl, rfl⟩ := (Consistency.Op.request.injEq ..).mp hop
      have hlog : .request check ∈ (s.parties p).consistencyLog := by
        rw [Party.consistencyLog, hchannel]
        exact List.mem_append_right _ List.mem_cons_self
      have hcheck : check ∈ (s.parties p).requested :=
        List.mem_flatMap.mpr ⟨_, hlog, List.mem_singleton.mpr rfl⟩
      -- the request is the first one of its key
      have honce : Consistency.OneRequest
          ((s.parties p).inputs ++ [⟨.request check, fun _ => .ok⟩]) := by
        have hrequests := (h.sound p).requests
        rw [Party.requests, ← Party.ops_inputs_append, hchannel, List.map_cons,
          ← List.singleton_append, ← List.append_assoc, List.filterMap_append] at hrequests
        rw [Consistency.OneRequest, Consistency.ops_append]
        exact hrequests.of_append_left
      rw [Option.all_eq_true]
      refine Consistency.covered_of_known
        (Consistency.tracks_run (h.once p) (h.expected p (requestKey check)))
        (honce.known_request rfl) fun r hr => ?_
      · obtain ⟨sent, hsent⟩ := Option.isSome_iff_exists.mp hr
        obtain ⟨hr', ⟨receivers, hrequest, hmem⟩, -⟩ :=
          h.check_origin (Consistency.mem_of_known_checks hsent)
        exact h.mem_receivers hvalid hp hr' hcheck rfl hrequest hmem
    · rfl

end Setup.Inv

/-! ## Every step -/

/-- The messages of a queue are no checks. -/
theorem Queued.isConsistencyCheck_eq_false {p : PartyID} {x : Party} {c : Control δ}
    (hvalid : setup.Valid history) (hp : p ∈ setup.parties) (h : Queued setup p x c)
    {action : Action δ} (haction : action ∈ c.queue.log) :
    ∀ m ∈ setup.sendOf p action, m.metadata.kind.isConsistencyCheck = false := by
  obtain ⟨first, -, hlog⟩ := hvalid.exists_saying hp h
  intro m hm
  cases action with
  | send message data =>
      obtain rfl := List.mem_singleton.mp hm
      obtain ⟨e, he, -, hmessage⟩ := (hlog.sends message).mp ⟨data, haction⟩
      obtain ⟨operation, -, hcollective⟩ := exists_operation he
      show message.kind.isConsistencyCheck = false
      rw [hmessage]
      exact kind_of_collectives hcollective
  | _ => cases hm

/-- An event after which its queue is as far as its party is one of an honest party. -/
theorem honest_of_queued {s : State} {l : Label} {c : Control δ} (hvalid : setup.Valid history)
    (hparty : l.party ∈ setup.parties)
    (hsends : ∀ m ∈ l.sends, m.metadata.kind.isConsistencyCheck = false)
    (h : Queued setup l.party (l.act setup.cfg (s l.party)) c) :
    Honest setup.cfg s l = true := by
  unfold Honest
  rw [hvalid.honest l.party hparty, Bool.true_and]
  cases l with
  | request party check =>
      have hnodup := h.requests_nodup hvalid hparty
      rw [requested_act, List.map_append, List.nodup_append] at hnodup
      simp only [Bool.not_eq_true', decide_eq_false_iff_not]
      rw [Party.requests_eq]
      exact fun hmem => hnodup.2.2 _ hmem _ (List.mem_singleton.mpr rfl) rfl
  | receive party message =>
      have hnodup := h.wants_nodup hvalid hparty
      rw [wanted_act, List.map_append, List.nodup_append] at hnodup
      rw [List.all_eq_true]
      intro e he
      simp only [Message.sameOperation, Bool.not_eq_true', decide_eq_false_iff_not]
      rintro ⟨h₁, h₂, h₃, h₄⟩
      refine hnodup.2.2 _ (List.mem_map_of_mem (List.mem_map_of_mem he)) _
        (List.mem_singleton.mpr rfl) ?_
      rw [h₁, h₂, h₃, h₄]
  | send party message => simpa using hsends message (List.mem_singleton.mpr rfl)
  | _ => rfl

namespace Setup.Inv

variable {s : System δ} (h : setup.Inv s) (hvalid : setup.Valid history)
include h

theorem genuine (hvalid : setup.Valid history) {l : Label}
    (harrives : ∀ party stream, l = .deliver party stream → (party, stream) ∈ s.network) :
    Genuine setup.cfg s.parties l = true := by
  cases l with
  | deliver party stream =>
      obtain ⟨q, hq, o, ho, heq⟩ := h.conserved.flight _ (harrives party stream rfl)
      obtain ⟨-, rfl⟩ := Prod.mk.inj heq
      simp only [Genuine, h.read hvalid hq ho, (h.outgoing_valid hvalid hq ho).2.1, Bool.or_eq_true]
      refine .inr (List.any_eq_true.mpr ⟨o.2, h.outgoing_sent ho, decide_eq_true ?_⟩)
      rw [ReceiveMessage.signedMetadata_eq_layout, SendMessage.signedMetadata_eq_layout]
      rfl
  | _ => rfl

/-- Only the parties of the session do something. -/
theorem party_of_cause {l : Label} {c : Control δ} {network : List (PartyID × List Byte)}
    (hvalid : setup.Valid history) (hcause : setup.Cause s l c network) :
    l.party ∈ setup.parties := by
  by_contra hout
  obtain ⟨hinitial, -, hnone⟩ := h.outside _ hout
  cases hcause with
  | act ready tasks pending =>
      rw [party_label] at hnone
      rw [hnone] at pending
      cases pending
  | arrive flight =>
      obtain ⟨q, hq, o, ho, heq⟩ := h.conserved.flight _ (List.mem_of_getElem? flight)
      obtain ⟨rfl, -⟩ := Prod.mk.inj heq
      exact hout (h.outgoing_valid hvalid hq ho).1
  | forward waiting =>
      simp only [Label.party] at hinitial
      rw [hinitial] at waiting
      cases waiting
  | dataStep sent => exact sent (congrArg Party.dataChannel hinitial)
  | consistencyStep sent => exact sent (congrArg Party.consistencyChannel hinitial)

/-- **An event** that its cause explains, when its queue and its network follow. -/
theorem event (hvalid : setup.Valid history) {l : Label} {c : Control δ}
    {network : List (PartyID × List Byte)} (hparty : l.party ∈ setup.parties)
    (hsends : ∀ m ∈ l.sends, m.metadata.kind.isConsistencyCheck = false)
    (harrives : ∀ party stream, l = .deliver party stream → (party, stream) ∈ s.network)
    (hnet : ∀ party net, l = .consistencyStep party net → ∀ r, net r = .ok)
    (hqueued : Queued setup l.party (l.act setup.cfg (s.parties l.party)) c)
    (hconserved : setup.Conserved (step setup.cfg s.parties l).1 network) :
    setup.Inv ⟨(step setup.cfg s.parties l).1, Function.update s.controls l.party c, network⟩ := by
  obtain ⟨labels, hrun, heq⟩ := h.session
  refine ⟨⟨labels ++ [l], ?_, ?_⟩, fun p hp => ?_, fun p hp => ?_, hconserved, fun p key => ?_,
    fun p => ?_⟩
  · refine (admits_concat ..).mpr ⟨hrun, ?_⟩
    rw [show (exec (step setup.cfg) State.initial labels).1 = s.parties from heq,
      honest_of_queued hvalid hparty hsends hqueued, h.genuine hvalid harrives]
    rfl
  · rw [Net.run_concat, heq]
    rfl
  · have hne : p ≠ l.party := fun heq => hp (heq ▸ hparty)
    simp only [step_eq, if_neg hne, Function.update_of_ne hne]
    exact h.outside p hp
  · simp only [step_eq]
    by_cases hp' : p = l.party
    · subst hp'
      rw [if_pos rfl, Function.update_self]
      exact hqueued
    · rw [if_neg hp', Function.update_of_ne hp']
      exact h.queued p hp
  · simp only [step_eq]
    split
    · rename_i hp
      subst hp
      exact expected_act (h.expected _ key) fun _ _ _ => h.expected_step hvalid hparty key
    · exact h.expected p key
  · simp only [step_eq]
    split
    · rename_i hp
      rcases inputs_act setup.cfg l (s.parties l.party) with hold | ⟨_, net, _, _, hl, -, hnew⟩
      · rw [hold]
        exact hp ▸ h.net p
      · rw [hnew]
        intro i hi
        rcases List.mem_append.mp hi with hi | hi
        · exact h.net _ i hi
        · rw [List.mem_singleton.mp hi]
          exact hnet _ net hl
    · exact h.net p

end Setup.Inv

/-- The check messages of a step of the consistency task are on their way after it. -/
theorem Setup.checkStreams_eq (party : PartyID) (p : Party) :
    setup.checkStreams party p =
      (((Label.consistencyStep party fun _ => .ok).news setup.cfg p).map fun o =>
        (o.1, setup.stream party o.2)) := by
  rw [Label.news, Setup.checkStreams]
  simp only [Label.sends, Label.checksOf, List.map_nil, List.nil_append]
  cases p.consistencyChannel with
  | nil => rfl
  | cons command rest =>
      simp only [List.map_map]
      rfl

theorem Setup.streams_eq (party : PartyID) (p : Party) (action : Action δ) :
    setup.streams party action =
      ((setup.label party action).news setup.cfg p).map fun o => (o.1, setup.stream party o.2) := by
  cases action <;> rfl

/-- Most events add no messages. -/
theorem Label.news_eq_nil {cfg : Config sessions} {p : Party} {l : Label} (hsends : l.sends = [])
    (hchecks : ∀ party net, l ≠ .consistencyStep party net) : l.news cfg p = [] := by
  rw [Label.news, hsends]
  cases l with
  | consistencyStep party net => exact absurd rfl (hchecks party net)
  | _ => rfl

theorem Label.accepts_label (party : PartyID) (action : Action δ) :
    (setup.label party action).accepts setup.cfg = [] := by
  cases action <;> rfl

theorem mem_eraseIdx_or_eq {α : Type} {l : List α} {n : ℕ} {a b : α} (hn : l[n]? = some a)
    (hb : b ∈ l) : b ∈ l.eraseIdx n ∨ b = a := by
  obtain ⟨hlt, rfl⟩ := List.getElem?_eq_some_iff.mp hn
  exact (List.mem_cons.mp ((List.getElem_cons_eraseIdx_perm hlt).mem_iff.mpr hb)).symm

/-- **Every step keeps the invariant.** -/
theorem Setup.Inv.step {s s' : System δ} (h : setup.Inv s) (hvalid : setup.Valid history)
    (hstep : setup.Step s s') : setup.Inv s' := by
  cases hstep with
  | @call party call program queue hidle hrest hreturns =>
      have hparty : party ∈ setup.parties := by
        by_contra hout
        rw [(h.outside party hout).2.1] at hrest
        cases hrest
      refine ⟨h.session, fun p hp => ?_, fun p hp => ?_, h.conserved, h.expected, h.net⟩
      · have hne : p ≠ party := fun heq => hp (heq ▸ hparty)
        simp only [Function.update_of_ne hne]
        exact h.outside p hp
      · by_cases hp' : p = party
        · subst hp'
          simp only [Function.update_self]
          exact queued_call (h.queued p hp) hidle hrest hreturns
        · simp only [Function.update_of_ne hp']
          exact h.queued p hp
  | @event l c network hcause hfits =>
      have hparty := h.party_of_cause hvalid hcause
      have hread : ∀ q ∈ setup.parties, ∀ o ∈ setup.outgoing s.parties q,
          setup.cfg.read (setup.stream q o.2) = .ok (setup.delivered q o.2) :=
        fun q hq o ho => h.read hvalid hq ho
      cases hcause with
      | @act party n action hready htasks hpending =>
          rw [party_label] at hparty
          have hqueued := h.queued party hparty
          have hlog : action ∈ (s.controls party).queue.log :=
            hqueued.stage.pending_subset (List.mem_of_getElem? hpending)
          have hdata := hqueued.isConsistencyCheck_eq_false hvalid hparty hlog
          have hsends : ∀ m ∈ (setup.label party action).sends,
              m.metadata.kind.isConsistencyCheck = false := by
            rw [(lists_label action).1]
            exact hdata
          have hlabel := setup.party_label party action
          refine h.event hvalid (by rwa [hlabel]) hsends (fun p stream hl => ?_)
            (fun p net hl => ?_) ?_ ?_
          · cases action <;> cases hl
          · cases action <;> cases hl
          · rw [hlabel]
            exact queued_act hqueued hready htasks hpending hdata
          · refine conserved_event h.conserved (by rwa [hlabel]) hsends hread (fun e he => ?_)
              (fun o ho => ?_) (fun e he => .inl (List.mem_append_left _ he)) (fun a ha => ?_)
            · rw [hlabel]
              refine (List.mem_append.mp he).imp_right fun hnew => ?_
              rw [setup.streams_eq party (s.parties party)] at hnew
              obtain ⟨o, ho, rfl⟩ := List.mem_map.mp hnew
              exact ⟨o, ho, rfl⟩
            · rw [hlabel] at ho ⊢
              refine List.mem_append_right _ ?_
              rw [setup.streams_eq party (s.parties party)]
              exact List.mem_map.mpr ⟨o, ho, rfl⟩
            · rw [Label.accepts_label] at ha
              cases ha
      | @arrive party n stream hflight =>
          have hmem := List.mem_of_getElem? hflight
          refine h.event hvalid hparty (fun m hm => by cases hm) (fun p stream' hl => ?_)
            (fun _ _ hl => by cases hl) (queued_event (h.queued party hparty) rfl rfl rfl) ?_
          · obtain ⟨rfl, rfl⟩ := (Label.deliver.injEq ..).mp hl
            exact hmem
          · refine conserved_event h.conserved hparty (fun m hm => by cases hm) hread
              (fun e he => .inl (List.mem_of_mem_eraseIdx he)) (fun o ho => ?_) (fun e he => ?_)
              (fun a ha => ?_)
            · rw [Label.news_eq_nil rfl fun _ _ h => by cases h] at ho
              cases ho
            · rcases mem_eraseIdx_or_eq hflight he with hstill | rfl
              · exact .inl hstill
              · exact .inr ⟨rfl, List.Subset.refl _⟩
            · refine ⟨stream, hmem, ?_⟩
              simp only [Label.accepts, Config.accepts] at ha
              split at ha
              · rename_i hread'
                rw [hread', List.mem_singleton.mp ha]
              · cases ha
      | @forward party n hwaiting =>
          refine h.event hvalid hparty (fun m hm => by cases hm) (fun _ _ hl => by cases hl)
            (fun _ _ hl => by cases hl)
            (queued_event (h.queued party hparty) rfl rfl rfl) ?_
          refine conserved_event h.conserved hparty (fun m hm => by cases hm) hread
            (fun e he => .inl he) (fun o ho => ?_) (fun e he => .inl he) (fun a ha => by cases ha)
          rw [Label.news_eq_nil rfl fun _ _ h => by cases h] at ho
          cases ho
      | @dataStep party hsent =>
          refine h.event hvalid hparty (fun m hm => by cases hm) (fun _ _ hl => by cases hl)
            (fun _ _ hl => by cases hl)
            (queued_event (h.queued party hparty) rfl rfl rfl) ?_
          refine conserved_event h.conserved hparty (fun m hm => by cases hm) hread
            (fun e he => .inl he) (fun o ho => ?_) (fun e he => .inl he) (fun a ha => by cases ha)
          rw [Label.news_eq_nil rfl fun _ _ h => by cases h] at ho
          cases ho
      | @consistencyStep party hsent =>
          refine h.event hvalid hparty (fun m hm => by cases hm) (fun _ _ hl => by cases hl)
            (fun p net hl => ?_)
            (queued_event (h.queued party hparty) rfl rfl rfl) ?_
          · obtain ⟨-, rfl⟩ := (Label.consistencyStep.injEq ..).mp hl
            exact fun _ => rfl
          · refine conserved_event h.conserved hparty (fun m hm => by cases hm) hread
              (fun e he => ?_) (fun o ho => ?_)
              (fun e he => .inl (List.mem_append_left _ he)) (fun a ha => by cases ha)
            · refine (List.mem_append.mp he).imp_right fun hnew => ?_
              rw [setup.checkStreams_eq] at hnew
              obtain ⟨o, ho, rfl⟩ := List.mem_map.mp hnew
              exact ⟨o, ho, rfl⟩
            · refine List.mem_append_right _ ?_
              rw [setup.checkStreams_eq]
              exact List.mem_map.mpr ⟨o, ho, rfl⟩

theorem Setup.inv_initial (hvalid : setup.Valid history) : setup.Inv setup.initial where
  session := ⟨[], trivial, rfl⟩
  outside p hp := ⟨rfl, hvalid.outside p hp, rfl⟩
  queued p hp := queued_initial
  conserved := ⟨fun e he => (by cases he), fun p a ha => (by cases ha),
    fun q hq o ho => (by cases ho)⟩
  expected p key := trivial
  net p i hi := by cases hi

/-- **Every run keeps the invariant.** -/
theorem Setup.inv_run (hvalid : setup.Valid history) {moves : List Move} {s : System δ}
    (hrun : setup.run moves = some s) : setup.Inv s :=
  invariant_of_move (Setup.inv_initial hvalid)
    (fun _ _ _ h hmove => h.step hvalid (step_of_move hmove)) hrun

end Hmpc.Net
