/-
# Hmpc.Net.Replay -- copies of signed messages, delivered anywhere and any number of times

An operation whose sender and receivers are all honest, and a third party that delivers copies of
signed messages (`Copied`). `replay_resistance` says what the copies cannot do: the hash and
signature a receiver records are those of the message addressed to it, no check ends in an error,
and the operation is finished at each receiver once its messages have come.

This needs the condition `undisturbed`. Nothing compares the receiver of an accepted message with
the own id, and the key of a check drops it: a copy of the message to another party is recorded in
place of the own one, and the check that is then sent is refused by the other receivers
(`copy_for_another_party`). And a copy of a party's own check, delivered back to it before its
request, makes the request fail.
-/
import Hmpc.Net.Agreement
import Hmpc.Net.ConsistencyErrors

namespace Hmpc.Net

open Hmpc.Lib

variable {sessions : Bool} {cfg : Config sessions}

/-! ## Runs with copies -/

/-- What is accepted from an honest signer is a copy of a message that party has signed. -/
def Copied (cfg : Config sessions) (s : State) (l : Label) : Bool :=
  match l with
  | .deliver _ stream =>
      (cfg.accepts stream).all fun a =>
        !cfg.honest a.1.signer ||
          (s a.1.signer).sent.any fun m =>
            decide (stream = m.writeTo cfg.crypto cfg.session (cfg.signingKey a.1.signer))
  | _ => true

/-- The honest parties run the operation: its sender sends one payload, and each receiver requests
the check with all other receivers. -/
def planned (key : Consistency.Key) (receivers : Communicator) (payload : OwnedData) (l : Label) :
    Bool :=
  match l with
  | .send party m =>
      !(decide (party = key.sender) && key.isOf m.metadata) ||
        decide (m.metadata.dataAsSlice m.data = payload)
  | .request party check =>
      !(decide (party ∈ receivers) && decide (requestKey check = key)) ||
        decide (check.receivers = receivers.filter fun receiver => decide (receiver ≠ party))
  | _ => true

/-- **The condition.** A receiver accepts no message of the operation that is addressed to somebody
else, and its request finds only checks of the other receivers. -/
def undisturbed (cfg : Config sessions) (key : Consistency.Key) (receivers : Communicator)
    (s : State) (l : Label) : Bool :=
  decide (l.party ∉ receivers) ||
    match l with
    | .deliver party stream =>
        (cfg.accepts stream).all fun a =>
          !key.isOf a.1.metadata || decide (a.1.metadata.receiver = party)
    | .consistencyStep party _ => !(s party).unexpected (cfg.task party) key
    | _ => true

def ReplayRun (cfg : Config sessions) (key : Consistency.Key) (receivers : Communicator)
    (payload : OwnedData) (s : State) (l : Label) : Prop :=
  (Honest cfg s l && Copied cfg s l && planned key receivers payload l) = true

instance (key : Consistency.Key) (receivers : Communicator) (payload : OwnedData) (s : State)
    (l : Label) : Decidable (ReplayRun cfg key receivers payload s l) :=
  inferInstanceAs (Decidable (_ = true))

/-! ## What should hold -/

/-- The string the sender signs for one receiver. -/
def Config.addressed (cfg : Config sessions) (key : Consistency.Key) (payload : OwnedData)
    (receiver : PartyID) : List Byte :=
  layout cfg.session key.kind.1 key.datatype key.sender receiver key.id (cfg.crypto.hash payload).1

/-- The hash and signature of the message to one receiver. -/
def Config.recordFor (cfg : Config sessions) (key : Consistency.Key) (payload : OwnedData)
    (receiver : PartyID) : Consistency.CheckData :=
  ⟨cfg.crypto.hash payload,
    cfg.crypto.sign (cfg.signingKey key.sender) (cfg.addressed key payload receiver)⟩

/-- **The property**, at one receiver. -/
structure Resists (cfg : Config sessions) (key : Consistency.Key) (receivers : Communicator)
    (payload : OwnedData) (s : State) (party : PartyID) : Prop where
  /-- what is recorded is the message addressed to this party -/
  recorded : ∀ value data,
    ((s party).consistency (cfg.task party)).1.consistency.lookup key = some value →
    value.received = some data → data = cfg.recordFor key payload party
  /-- no registered check of the operation ends in an error -/
  errors : ∀ e, .checkError key e ∉ ((s party).consistency (cfg.task party)).2 ∧
    .registerError key e ∉ ((s party).consistency (cfg.task party)).2
  /-- or stays registered when the request, the message and all checks have come -/
  finished : ∀ requested data, .request key requested ∈ Consistency.ops (s party).inputs →
    .data key data ∈ Consistency.ops (s party).inputs →
    (∀ r ∈ receivers, r ≠ party →
      ∃ check, .check key r check ∈ Consistency.ops (s party).inputs) →
    ∀ value, ((s party).consistency (cfg.task party)).1.consistency.lookup key = some value →
      value.registered = false

/-! ## Invariants of such runs -/

section Runs

variable {key : Consistency.Key} {receivers : Communicator} {payload : OwnedData}
  {labels : List Label}

/-- A run with copies, in which nothing is disturbed. -/
def Undisturbed (cfg : Config sessions) (key : Consistency.Key) (receivers : Communicator)
    (payload : OwnedData) (s : State) (l : Label) : Prop :=
  ReplayRun cfg key receivers payload s l ∧ undisturbed cfg key receivers s l = true

instance (s : State) (l : Label) : Decidable (Undisturbed cfg key receivers payload s l) :=
  inferInstanceAs (Decidable (_ ∧ _))

theorem Undisturbed.split {s : State} {l : Label} (h : Undisturbed cfg key receivers payload s l) :
    Honest cfg s l = true ∧ Copied cfg s l = true ∧ planned key receivers payload l = true ∧
      undisturbed cfg key receivers s l = true := by
  obtain ⟨hrun, hundisturbed⟩ := h
  rw [ReplayRun, Bool.and_eq_true, Bool.and_eq_true] at hrun
  exact ⟨hrun.1.1, hrun.1.2, hrun.2, hundisturbed⟩

/-- An accepted message of an honest signer is one that party has sent, as it was. -/
def IsCopy (cfg : Config sessions) (a : ReceiveMessage × Signature) (m : SendMessage) : Prop :=
  a.1 = ⟨m.metadata, m.metadata.dataAsSlice m.data⟩ ∧
    a.2 = cfg.crypto.sign (cfg.signingKey a.1.signer) (m.signedMetadata cfg.crypto cfg.session)

theorem isCopy_accepts {s : State} {l : Label} (h : Copied cfg s l = true) :
    ∀ a ∈ l.accepts cfg, cfg.honest a.1.signer = true →
      ∃ m ∈ (s a.1.signer).sent, IsCopy cfg a m := by
  intro a ha hsigner
  cases l with
  | deliver party stream =>
      have hall : ∀ a ∈ cfg.accepts stream, cfg.honest a.1.signer = true →
          ∃ m ∈ (s a.1.signer).sent,
            stream = m.writeTo cfg.crypto cfg.session (cfg.signingKey a.1.signer) := by
        intro a ha hsigner
        have := List.all_eq_true.mp h a ha
        simpa [hsigner] using this
      obtain ⟨m, hm, hstream⟩ := hall a ha hsigner
      refine ⟨m, hm, ?_⟩
      simp only [Label.accepts, Config.accepts] at ha
      split at ha
      · rename_i a' hread
        obtain rfl := List.mem_singleton.mp ha
        rw [Config.read, hstream] at hread
        obtain ⟨hmessage, hsignature⟩ := eq_of_readFrom_writeTo hread
        exact ⟨hmessage, hsignature⟩
      · cases ha
  | _ => cases ha

/-- What the sender has sent for the operation. -/
theorem payload_run (hrun : Admits (step cfg) (Undisturbed cfg key receivers payload)
    State.initial labels) : ∀ m ∈ (run cfg labels key.sender).sent, key.isOf m.metadata = true →
      m.metadata.dataAsSlice m.data = payload := by
  refine party_invariant (fun party p => party = key.sender → ∀ m ∈ p.sent,
    key.isOf m.metadata = true → m.metadata.dataAsSlice m.data = payload) ?_ ?_ hrun _ rfl
  · intro party _ m hm
    cases hm
  · intro s l hl h hparty m hm hkey
    rw [sent_act] at hm
    rcases List.mem_append.mp hm with hold | hnew
    · exact h hparty m hold hkey
    · obtain ⟨-, -, hplanned, -⟩ := hl.split
      cases l with
      | consistencyStep party net =>
          -- the messages of the task are checks, not messages of the operation
          simp only [Label.signs] at hnew
          split at hnew
          · cases hnew
          · obtain ⟨⟨m', r⟩, hsent, rfl⟩ := List.mem_map.mp hnew
            obtain ⟨_, -, hnotified⟩ := Consistency.notified_of_checksSent hsent
            obtain ⟨key', data, -, rfl, -⟩ := Consistency.mem_notified hnotified
            have hkind := MessageKind.toCheck_isConsistencyCheck key'.kind
            rw [show MessageKind.toCheck key'.kind = key.kind.1 from
              (Consistency.Key.isOf_iff.mp hkey).1,
              MessageKind.not_isConsistencyCheck_of_needsCheck key.kind.2] at hkind
            cases hkind
      | send party message =>
          obtain rfl := List.mem_singleton.mp hnew
          have hparty' : party = key.sender := hparty
          simpa [planned, hparty', hkey] using hplanned
      | _ => cases hnew

/-- What holds at a receiver of the operation: messages of it are its own, its request names all
other receivers and is not dropped. -/
structure Follows (cfg : Config sessions) (key : Consistency.Key) (receivers : Communicator)
    (party : PartyID) (p : Party) : Prop where
  own : ∀ a ∈ p.accepted, key.isOf a.1.metadata = true → a.1.metadata.receiver = party
  requested : ∀ check, .request check ∈ p.consistencyLog → requestKey check = key →
    check.receivers = receivers.filter fun receiver => decide (receiver ≠ party)
  expected : p.Expected (cfg.task party) key

theorem follows_run (hrun : Admits (step cfg) (Undisturbed cfg key receivers payload)
    State.initial labels) {party : PartyID} (hparty : party ∈ receivers) :
    Follows cfg key receivers party (run cfg labels party) := by
  refine party_invariant (fun party p => party ∈ receivers → Follows cfg key receivers party p)
    ?_ ?_ hrun party hparty
  · intro party _
    refine ⟨fun a ha => ?_, fun check hcheck => ?_, trivial⟩
    · cases ha
    · cases hcheck
  -- what a step adds: an accepted message, or a request to the consistency check
  · intro s l hl h hparty
    obtain ⟨-, -, hplanned, hundisturbed⟩ := hl.split
    have hold := h hparty
    refine ⟨fun a ha hkey => ?_, fun check hcheck hkey => ?_, ?_⟩
    · rw [accepted_act] at ha
      rcases List.mem_append.mp ha with ha | ha
      · exact hold.own a ha hkey
      · cases l with
        | deliver p stream =>
            simp only [undisturbed, decide_eq_false (not_not.mpr hparty), Bool.false_or]
              at hundisturbed
            have hown := List.all_eq_true.mp hundisturbed a ha
            show a.1.metadata.receiver = p
            simpa [hkey] using hown
        | _ => cases ha
    · rw [consistencyLog_act] at hcheck
      rcases List.mem_append.mp hcheck with hcheck | hcheck
      · exact hold.requested check hcheck hkey
      · cases l with
        | deliver p stream =>
            obtain ⟨a, -, hexplains⟩ := explains_checked hcheck
            cases hexplains
        | request p check' =>
            obtain rfl := Consistency.Command.request.inj (List.mem_singleton.mp hcheck)
            have hparty' : p ∈ receivers := hparty
            show check.receivers = receivers.filter fun receiver => decide (receiver ≠ p)
            simpa [planned, hparty', hkey] using hplanned
        | wait p => cases List.mem_singleton.mp hcheck
        | _ => cases hcheck
    · refine expected_act hold.expected fun p net hl => ?_
      subst hl
      show (s p).unexpected (cfg.task p) key = false
      simpa only [undisturbed, decide_eq_false (not_not.mpr hparty), Bool.false_or,
        Bool.not_eq_true'] using hundisturbed

/-- The data of a receiver is that of the message the sender has signed for it. -/
theorem data_run (hsender : cfg.honest key.sender = true)
    (hrun : Admits (step cfg) (Undisturbed cfg key receivers payload) State.initial labels)
    {party : PartyID} (hparty : party ∈ receivers) {data : Consistency.CheckData}
    (hdata : .data key data ∈ Consistency.ops (run cfg labels party).inputs) :
    data = cfg.recordFor key payload party ∧ ∃ m ∈ (run cfg labels key.sender).sent,
      m.signedMetadata cfg.crypto cfg.session = cfg.addressed key payload party := by
  have hsound := sound_run (fun s l h => (Undisturbed.split h).1) hrun party
  obtain ⟨a, ha, hkey, rfl⟩ := hsound.accepted_of_data hdata
  have hkey' := Consistency.Key.isOf_iff.mp hkey
  have hsigner : a.1.signer = key.sender := by
    rw [ReceiveMessage.signer, hkey'.1,
      MessageKind.not_isConsistencyCheck_of_needsCheck key.kind.2]
    exact hkey'.2.2.1
  obtain ⟨m, hm, hmessage, hsignature⟩ := signed_run (IsCopy cfg)
    (fun s l h => isCopy_accepts (Undisturbed.split h).2.1) hrun party a ha (hsigner ▸ hsender)
  rw [hsigner] at hm hsignature
  have hmetadata : m.metadata = a.1.metadata := by rw [hmessage]
  have hpayload := payload_run hrun m hm (hmetadata ▸ hkey)
  have hreceiver := (follows_run hrun hparty).own a ha hkey
  have hsigned : m.signedMetadata cfg.crypto cfg.session = cfg.addressed key payload party := by
    rw [SendMessage.signedMetadata_eq_layout, Config.addressed, hpayload, hmetadata, hkey'.1,
      hkey'.2.1, hkey'.2.2.1, hkey'.2.2.2, hreceiver]
  refine ⟨?_, m, hm, hsigned⟩
  rw [Config.record, Config.recordFor, hsignature, hsigned]
  congr 2
  rw [hmessage]
  exact hpayload

/-- The check of a receiver is about the message the sender has signed for it. -/
theorem check_run (hsender : cfg.honest key.sender = true)
    (hreceivers : ∀ r ∈ receivers, cfg.honest r = true)
    (hrun : Admits (step cfg) (Undisturbed cfg key receivers payload) State.initial labels)
    {party r : PartyID} (hr : r ∈ receivers) {check : Consistency.CheckData}
    (hcheck : .check key r check ∈ Consistency.ops (run cfg labels party).inputs) :
    check = cfg.recordFor key payload r ∧ ∃ m ∈ (run cfg labels key.sender).sent,
      m.signedMetadata cfg.crypto cfg.session = cfg.addressed key payload r := by
  have hsound (party : PartyID) : (run cfg labels party).Sound cfg party :=
    sound_run (fun s l h => (Undisturbed.split h).1) hrun party
  obtain ⟨a, ha, hsigner, hkind, hdatatype, hsenderField, -, hid, hdata⟩ :=
    (hsound party).accepted_of_check hcheck
  obtain ⟨m, hm, hmessage, -⟩ := signed_run (IsCopy cfg)
    (fun s l h => isCopy_accepts (Undisturbed.split h).2.1) hrun party a ha
    (hsigner ▸ hreceivers r hr)
  rw [hsigner] at hm
  rw [hmessage] at hkind hdatatype hsenderField hid hdata
  rcases (hsound r).sent m hm with hnot | ⟨key', data, rfl, hknown⟩
  · rw [show m.metadata.kind = _ from hkind, MessageKind.toCheck_isConsistencyCheck] at hnot
    cases hnot
  · obtain rfl : key' = key := Consistency.Key.eq_of_toCheck hkind hdatatype hsenderField hid
    obtain rfl : data = check := by
      refine Consistency.CheckData.eq_of_bytes (Eq.trans ?_ hdata)
      exact (dataAsSlice_checkMessage r key' data).symm
    exact data_run hsender hrun hr (Consistency.mem_of_known_data hknown)

end Runs

/-- **Replay resistance.** In every undisturbed run the copies change nothing for any receiver. -/
theorem replay_resistance (cfg : Config sessions) (key : Consistency.Key) (receivers : Communicator)
    (payload : OwnedData) (hsender : cfg.honest key.sender = true)
    (hreceivers : ∀ r ∈ receivers, cfg.honest r = true) (labels : List Label)
    (hrun : Admits (step cfg) (Undisturbed cfg key receivers payload) State.initial labels)
    (hverify : ∀ m ∈ (run cfg labels key.sender).sent, ∃ verificationKey,
      cfg.verificationKeys key.sender = some verificationKey ∧
        cfg.crypto.verify verificationKey (m.signedMetadata cfg.crypto cfg.session)
          (cfg.crypto.sign (cfg.signingKey key.sender)
            (m.signedMetadata cfg.crypto cfg.session)).1 = true)
    (party : PartyID) (hparty : party ∈ receivers) :
    Resists cfg key receivers payload (run cfg labels) party := by
  have hsound := sound_run (fun s l h => (Undisturbed.split h).1) hrun party
  have hfollows := follows_run hrun hparty
  have honce := Party.oneRequest hsound.requests
  have hrequested : ∀ requested,
      .request key requested ∈ Consistency.ops (run cfg labels party).inputs →
        requested = receivers.filter fun receiver => decide (receiver ≠ party) := by
    intro requested hmem
    obtain ⟨⟨command, net⟩, hinput, hop⟩ := List.mem_map.mp hmem
    cases command with
    | request check =>
        obtain ⟨hkey, rfl⟩ := (Consistency.Op.request.injEq ..).mp hop
        refine hfollows.requested check ?_ hkey
        exact List.mem_append_left _ (List.mem_map.mpr ⟨_, hinput, rfl⟩)
    | _ => cases hop
  -- every check that arrives was signed by a receiver about the one payload
  have hvalid : Consistency.AllValid (cfg.task party) key
      (Consistency.ops (run cfg labels party).inputs) := by
    intro requested data hrequest hdata r hr check hcheck
    rw [hrequested requested hrequest, Communicator.mem_filter] at hr
    obtain ⟨rfl, -⟩ := data_run hsender hrun hparty hdata
    obtain ⟨rfl, m, hm, hsigned⟩ := check_run hsender hreceivers hrun hr.1 hcheck
    obtain ⟨verificationKey, hkey, hverified⟩ := hverify m hm
    refine ⟨?_, rfl⟩
    rw [hsigned] at hverified
    rw [Consistency.checkSignature, show (cfg.task party).verificationKeys key.sender = _ from hkey]
    dsimp only
    rw [Consistency.signedMetadata_eq_layout, if_pos]
    exact hverified
  refine ⟨fun value data hvalue hdata => ?_, fun e => ?_, ?_⟩
  · exact (data_run hsender hrun hparty (Consistency.received_run _ key hvalue hdata)).1
  · exact Consistency.no_errors_run honce hfollows.expected hvalid e
  · intro requested data hrequest hdata hchecks value hvalue
    refine Consistency.not_registered_run honce hfollows.expected hvalid hrequest hdata ?_ hvalue
    intro r hr
    rw [hrequested requested hrequest, Communicator.mem_filter] at hr
    exact hchecks r hr.1 (of_decide_eq_true hr.2)

/-! ### Copies in the recorded session -/

namespace Recorded

def both : Communicator := ⟨[1, 2], by decide⟩

/-- The broadcast and its checks, each delivered twice at party 1. -/
def copies : List Label :=
  [ .send 0 (broadcast 1 payload), .send 0 (broadcast 2 payload),
    .deliver 1 (stream 1 payload), .deliver 1 (stream 1 payload), .deliver 2 (stream 2 payload),
    .request 1 (requestTo 2), .request 2 (requestTo 1),
    .consistencyStep 1 sent, .consistencyStep 1 sent, .consistencyStep 1 sent,
    .consistencyStep 2 sent, .consistencyStep 2 sent,
    .deliver 1 (checkStream 2 signatureTo2), .deliver 1 (checkStream 2 signatureTo2),
    .deliver 2 (checkStream 1 signatureTo1),
    .consistencyStep 1 sent, .consistencyStep 1 sent, .consistencyStep 2 sent ]

/-- Party 1 gets a copy of the message to party 2 first. -/
def disturbed : List Label :=
  [ .send 0 (broadcast 1 payload), .send 0 (broadcast 2 payload),
    .deliver 1 (stream 2 payload), .deliver 2 (stream 2 payload),
    .request 1 (requestTo 2), .request 2 (requestTo 1),
    .consistencyStep 1 sent, .consistencyStep 1 sent,
    .consistencyStep 2 sent, .consistencyStep 2 sent,
    .deliver 2 (checkStream 1 signatureTo2), .consistencyStep 2 sent ]

def isSignatureError : Consistency.Event → Bool
  | .checkError key' .inconsistentSignatureVerification => decide (key' = key)
  | _ => false

theorem checkError_of_any {events : List Consistency.Event}
    (h : events.any isSignatureError = true) :
    .checkError key .inconsistentSignatureVerification ∈ events := by
  obtain ⟨event, hmem, hevent⟩ := List.any_eq_true.mp h
  unfold isSignatureError at hevent
  split at hevent
  · rename_i key'
    exact of_decide_eq_true hevent ▸ hmem
  · cases hevent

end Recorded

/-- Copies of the own message and of the check of party 2 change nothing at party 1. -/
theorem replay_resistance_recorded :
    Resists (Recorded.config [0, 1, 2]) Recorded.key Recorded.both Recorded.payload
      (run (Recorded.config [0, 1, 2]) Recorded.copies) 1 := by
  refine replay_resistance (Recorded.config [0, 1, 2]) Recorded.key Recorded.both Recorded.payload
    rfl (fun r hr => decide_eq_true (List.mem_cons_of_mem 0 hr)) Recorded.copies
    (by decide +kernel) ?_ 1 (by decide)
  have hall : (run (Recorded.config [0, 1, 2]) Recorded.copies 0).sent.all (fun m =>
      Recorded.crypto.verify ((Recorded.publicKey 0).getD [])
        (m.signedMetadata Recorded.crypto Recorded.session)
        (Recorded.crypto.sign (Recorded.privateKey 0)
          (m.signedMetadata Recorded.crypto Recorded.session)).1) = true := by
    decide +kernel
  intro m hm
  exact ⟨_, rfl, List.all_eq_true.mp hall m hm⟩

/-- Without the condition, the check of party 1 about the copy fails at party 2. -/
theorem copy_for_another_party :
    Admits (step (Recorded.config [0, 1, 2]))
        (ReplayRun (Recorded.config [0, 1, 2]) Recorded.key Recorded.both Recorded.payload)
        State.initial Recorded.disturbed ∧
      ¬ Resists (Recorded.config [0, 1, 2]) Recorded.key Recorded.both Recorded.payload
        (run (Recorded.config [0, 1, 2]) Recorded.disturbed) 2 := by
  refine ⟨by decide +kernel, fun h => ?_⟩
  apply (h.errors .inconsistentSignatureVerification).1
  exact Recorded.checkError_of_any (by decide +kernel)

end Hmpc.Net
