/-
# Hmpc.Net.Agreement -- two honest receivers of a checked operation got the same payload

The payload a receive returns goes through the message buffer, the payload that is hashed and
compared goes through the consistency task. The first accepted message of an operation is what the
task compares, at both parties; `agreement` is the argument from there: the check of the other
party is about that party's first message, and hashes do not collide.

Two things break the claim, and `careful` excludes exactly these. The message buffer keeps the last
message of the same metadata, not the first one, so that a sender of two payloads can have one
compared and the other returned (`two_payloads_pass_the_check`). And a request that finds a check
it does not expect is dropped, so that a wait is answered without any comparison; one party that
compares is enough.
-/
import Hmpc.Net.Session

namespace Hmpc.Net

open Hmpc.Lib

variable {sessions : Bool} {cfg : Config sessions}

/-! ## What an honest receiver sees -/

/-- The receive of the operation has returned this payload. -/
def Party.Returned (p : Party) (key : Consistency.Key) (payload : OwnedData) : Prop :=
  ∃ m channel, key.isOf m = true ∧ (m, channel, payload) ∈ MessageBuffer.answers p.buffer.2

/-- A `Wait` was answered after the request of the operation, with `other` among its receivers. -/
def Party.Waited (p : Party) (t : Consistency.Task (collective sessions)) (key : Consistency.Key)
    (other : PartyID) : Prop :=
  ∃ seen input, seen ++ [input] <+: p.inputs ∧
    (∃ channel, .answer channel ∈ (Consistency.step t (Consistency.run t seen).1 input).2) ∧
    ∃ receivers, .request key receivers ∈ Consistency.ops (seen ++ [input]) ∧ other ∈ receivers

/-- The operation was received and checked at one party, with the other among the receivers. -/
structure Checked (cfg : Config sessions) (s : State) (key : Consistency.Key)
    (party other : PartyID) (payload : OwnedData) : Prop where
  returned : (s party).Returned key payload
  waited : (s party).Waited (cfg.task party) key other

/-- The byte strings a party hashes: of the messages it accepts and of those it signs. -/
def Party.hashed (p : Party) : List (List Byte) :=
  p.accepted.map (fun a => a.1.data) ++ p.sent.map fun m => m.metadata.dataAsSlice m.data

/-- What the honest parties of a session hash. -/
def hashed (cfg : Config sessions) (s : State) : Set (List Byte) :=
  {string | ∃ party, cfg.honest party = true ∧ string ∈ (s party).hashed}

/-- **The property**: as long as hashes do not collide, two parties that have checked an operation
with each other got the same payload. -/
def AgreesOn (cfg : Config sessions) (key : Consistency.Key) (P Q : PartyID)
    (labels : List Label) : Prop :=
  Set.InjOn cfg.crypto.hash (hashed cfg (run cfg labels)) →
    ∀ payload payload', Checked cfg (run cfg labels) key P Q payload →
      Checked cfg (run cfg labels) key Q P payload' → payload = payload'

/-! ## The condition on a step -/

def Party.hasReturned (p : Party) (key : Consistency.Key) : Bool :=
  (MessageBuffer.answers p.buffer.2).any fun e => key.isOf e.1

/-- The message has another payload than one accepted for the same operation, and the receive of
that operation has not returned yet. -/
def Party.conflicts (p : Party) (key : Consistency.Key) (a : ReceiveMessage × Signature) : Bool :=
  key.isOf a.1.metadata && !p.hasReturned key &&
    p.accepted.any fun b => key.isOf b.1.metadata && decide (b.1.data ≠ a.1.data)

/-- The task is about to process the request of the operation, and finds a check of a party outside
the receivers. -/
def Party.unexpected (p : Party) (t : Consistency.Task (collective sessions))
    (key : Consistency.Key) : Bool :=
  match p.consistencyChannel with
  | [] => false
  | command :: _ =>
      decide (command.op.requested? = some key) &&
        !Consistency.coveredOp (p.consistency t).1 command.op

/-- No request of the operation was dropped so far. -/
def Party.Expected (p : Party) (t : Consistency.Task (collective sessions))
    (key : Consistency.Key) : Prop :=
  Admits (Consistency.step t) (Consistency.CoveredFor key) Consistency.State.initial p.inputs

instance (p : Party) (t : Consistency.Task (collective sessions)) (key : Consistency.Key) :
    Decidable (p.Expected t key) :=
  inferInstanceAs (Decidable (Admits _ _ _ _))

/-- The steps of `party` at which nothing goes wrong: no second payload is accepted for the
operation before its receive returns, and its request is not dropped, unless that of the other
party was not. -/
def careful (cfg : Config sessions) (key : Consistency.Key) (party other : PartyID) (s : State)
    (l : Label) : Bool :=
  decide (l.party ≠ party) ||
    match l with
    | .deliver _ stream => (cfg.accepts stream).all fun a => !(s party).conflicts key a
    | .consistencyStep _ _ =>
        !(s party).unexpected (cfg.task party) key ||
          decide ((s other).Expected (cfg.task other) key)
    | _ => true

/-- The steps of a run in which honest parties cannot be impersonated and nothing goes wrong. -/
def AgreementStep (cfg : Config sessions) (key : Consistency.Key) (P Q : PartyID) (s : State)
    (l : Label) : Prop :=
  (Honest cfg s l && Genuine cfg s l && careful cfg key P Q s l && careful cfg key Q P s l) = true

instance (key : Consistency.Key) (P Q : PartyID) (s : State) (l : Label) :
    Decidable (AgreementStep cfg key P Q s l) :=
  inferInstanceAs (Decidable (_ = true))

/-! ## A request that is not dropped -/

theorem expected_act {p : Party} {l : Label} {key : Consistency.Key}
    (h : p.Expected (cfg.task l.party) key)
    (hstep : ∀ party net, l = .consistencyStep party net →
      p.unexpected (cfg.task l.party) key = false) :
    (l.act cfg p).Expected (cfg.task l.party) key := by
  rcases inputs_act cfg l p with heq | ⟨party, net, command, rest, rfl, hchannel, heq⟩
  · rw [Party.Expected, heq]
    exact h
  · rw [Party.Expected, heq, admits_concat]
    refine ⟨h, fun hrequested => ?_⟩
    have hexpected := hstep party net rfl
    simp only [Label.party] at hrequested hexpected
    rw [Party.unexpected, hchannel] at hexpected
    have hcovered : Consistency.coveredOp (p.consistency (cfg.task party)).1 command.op = true := by
      simpa [hrequested] using hexpected
    exact hcovered

theorem expected_step {s : State} {l : Label} {key : Consistency.Key} {P Q : PartyID} (hne : P ≠ Q)
    (hcareful : careful cfg key P Q s l = true) (h : (s P).Expected (cfg.task P) key) :
    ((step cfg s l).1 P).Expected (cfg.task P) key ∨
      ((step cfg s l).1 Q).Expected (cfg.task Q) key := by
  simp only [step_eq]
  by_cases hparty : P = l.party
  · subst hparty
    rw [if_pos rfl, if_neg (Ne.symm hne)]
    by_cases hother : (s Q).Expected (cfg.task Q) key
    · exact .inr hother
    · left
      refine expected_act h fun party net hl => ?_
      subst hl
      simpa [careful, Label.party, hother] using hcareful
  · rw [if_neg hparty]
    exact .inl h

/-- **One of the two parties compares** in every run. -/
theorem expected_run {key : Consistency.Key} {P Q : PartyID} (hne : P ≠ Q) {labels : List Label}
    (hrun : Admits (step cfg) (AgreementStep cfg key P Q) State.initial labels) :
    (run cfg labels P).Expected (cfg.task P) key ∨
      (run cfg labels Q).Expected (cfg.task Q) key := by
  refine invariant_of_step (fun _ _ s =>
    (s P).Expected (cfg.task P) key ∨ (s Q).Expected (cfg.task Q) key) (.inl trivial) ?_ hrun
  intro _ _ s l h hstep
  simp only [AgreementStep, Bool.and_eq_true] at hstep
  rcases h with hP | hQ
  · exact expected_step hne hstep.1.2 hP
  · exact (expected_step (Ne.symm hne) hstep.2 hQ).symm

/-! ## The returned payload is the compared one -/

/-- What a party has accepted and returned for an operation. -/
structure Agreed (key : Consistency.Key) (p : Party) : Prop where
  /-- until the receive returns, all accepted payloads are the same -/
  same : p.hasReturned key = false → ∀ a ∈ p.accepted, key.isOf a.1.metadata = true →
    ∀ b ∈ p.accepted, key.isOf b.1.metadata = true → a.1.data = b.1.data
  /-- and that is the one it returns -/
  returned : ∀ m channel payload, key.isOf m = true →
    (m, channel, payload) ∈ MessageBuffer.answers p.buffer.2 →
    ∃ a, p.first key = some a ∧ a.1.data = payload

theorem first_isSome {p : Party} {key : Consistency.Key} {a : ReceiveMessage × Signature}
    (ha : a ∈ p.accepted) (hkey : key.isOf a.1.metadata = true) :
    ∃ b, p.first key = some b ∧ b ∈ p.accepted ∧ key.isOf b.1.metadata = true := by
  obtain ⟨b, hb⟩ := Option.isSome_iff_exists.mp
    (List.find?_isSome.mpr ⟨a, ha, hkey⟩ : (p.first key).isSome)
  have hkey' := List.find?_some hb
  exact ⟨b, hb, List.mem_of_find?_eq_some hb, hkey'⟩

theorem first_act {p : Party} {l : Label} {key : Consistency.Key}
    {a : ReceiveMessage × Signature} (h : p.first key = some a) :
    (l.act cfg p).first key = some a := by
  have h' : p.accepted.find? (fun a => key.isOf a.1.metadata) = some a := h
  rw [Party.first, accepted_act, List.find?_append, h', Option.some_or]

/-- The answers of the message buffer only grow, by those of its next command. -/
theorem answers_act (cfg : Config sessions) (l : Label) (p : Party) :
    ∃ given, MessageBuffer.answers (l.act cfg p).buffer.2 =
      MessageBuffer.answers p.buffer.2 ++ given := by
  have hcommands : (l.act cfg p).commands = p.commands ∨
      ∃ command, (l.act cfg p).commands = p.commands ++ [command] := by
    cases l with
    | deliver party stream => exact .inl (p.deliver_eq cfg stream).2.2.2.2.2.1
    | forward party n =>
        left
        simp only [Label.act, Party.forward]
        split <;> rfl
    | dataStep party =>
        simp only [Label.act, Party.dataStep]
        split
        · exact .inl rfl
        · exact .inr ⟨_, rfl⟩
    | consistencyStep party net =>
        left
        simp only [Label.act, Party.consistencyStep]
        split <;> rfl
    | _ => exact .inl rfl
  rcases hcommands with heq | ⟨command, heq⟩
  · exact ⟨[], by rw [Party.buffer, heq, List.append_nil]; rfl⟩
  · refine ⟨MessageBuffer.answers (MessageBuffer.step p.buffer.1 command).2, ?_⟩
    rw [Party.buffer, heq, MessageBuffer.run, exec_concat, MessageBuffer.answers_append]
    rfl

/-- The buffer has processed a part of what was sent to it. -/
theorem Party.Sound.counted {party : PartyID} {p : Party} (h : p.Sound cfg party)
    (key : Consistency.Key) :
    (MessageBuffer.answers p.buffer.2).countP (fun e => key.isOf e.1) ≤ 1 := by
  have hcounted := (MessageBuffer.sourced_run p.commands).counted key.isOf
  have hreceives := h.receives key
  rw [Party.receives, Party.dataLog, MessageBuffer.requests_append, List.countP_append] at hreceives
  show (MessageBuffer.answers (MessageBuffer.run p.commands).2).countP _ ≤ 1
  omega

theorem Party.Sound.accepted_of_answer {party : PartyID} {p : Party} (h : p.Sound cfg party)
    {m : Message} {channel : AnswerChannel} {payload : OwnedData}
    (hanswer : (m, channel, payload) ∈ MessageBuffer.answers p.buffer.2) :
    ∃ a ∈ p.accepted, a.1.metadata = m ∧ a.1.data = payload := by
  apply h.arrivals
  rw [Party.dataLog, MessageBuffer.arrivals_append]
  exact List.mem_append_left _ ((MessageBuffer.sourced_run p.commands).answered m channel _ hanswer)

theorem hasReturned_eq_false {p : Party} {key : Consistency.Key} :
    p.hasReturned key = false ↔
      ∀ e ∈ MessageBuffer.answers p.buffer.2, key.isOf e.1 = false := by
  simp [Party.hasReturned]

theorem agreed_act {s : State} {l : Label} {key : Consistency.Key}
    (hsound : ((l.act cfg (s l.party))).Sound cfg l.party)
    (hconflicts : ∀ party stream, l = .deliver party stream →
      ∀ a ∈ cfg.accepts stream, (s l.party).conflicts key a = false)
    (h : Agreed key (s l.party)) : Agreed key (l.act cfg (s l.party)) := by
  obtain ⟨given, hgiven⟩ := answers_act cfg l (s l.party)
  have hnot : (l.act cfg (s l.party)).hasReturned key = false →
      (s l.party).hasReturned key = false := by
    rw [hasReturned_eq_false, hasReturned_eq_false, hgiven]
    exact fun hall e he => hall e (List.mem_append_left _ he)
  have hsame : (l.act cfg (s l.party)).hasReturned key = false ∨
      (s l.party).hasReturned key = false →
      ∀ a ∈ (l.act cfg (s l.party)).accepted, key.isOf a.1.metadata = true →
        ∀ b ∈ (l.act cfg (s l.party)).accepted, key.isOf b.1.metadata = true →
          a.1.data = b.1.data := by
    intro hreturned
    have hbefore : (s l.party).hasReturned key = false := hreturned.elim hnot id
    -- a new message has the payload of the old ones
    have hnew : ∀ a ∈ l.accepts cfg, key.isOf a.1.metadata = true → ∀ b ∈ (s l.party).accepted,
        key.isOf b.1.metadata = true → b.1.data = a.1.data := by
      intro a ha hkey b hb hkey'
      cases l with
      | deliver party stream =>
          have hfree := hconflicts party stream rfl a ha
          by_contra hne
          rw [Party.conflicts, hkey, hbefore] at hfree
          simp only [Bool.not_false, Bool.and_self, Bool.true_and, List.any_eq_false] at hfree
          exact hfree b hb (by simp [hkey', hne])
      | _ => cases ha
    intro a ha hkey b hb hkey'
    rw [accepted_act] at ha hb
    rcases List.mem_append.mp ha with ha | ha
    · rcases List.mem_append.mp hb with hb | hb
      · exact h.same hbefore a ha hkey b hb hkey'
      · exact hnew b hb hkey' a ha hkey
    · rcases List.mem_append.mp hb with hb | hb
      · exact (hnew a ha hkey b hb hkey').symm
      · cases l with
        | deliver party stream =>
            simp only [Label.accepts, Config.accepts] at ha hb
            split at ha
            · rename_i a' hread
              rw [hread] at hb
              rw [List.mem_singleton.mp ha, List.mem_singleton.mp hb]
            · cases ha
        | _ => cases ha
  refine ⟨fun hreturned => hsame (.inl hreturned), fun m channel payload hkey hanswer => ?_⟩
  rw [hgiven] at hanswer
  rcases List.mem_append.mp hanswer with hold | hnow
  · obtain ⟨a, ha, heq⟩ := h.returned m channel payload hkey hold
    exact ⟨a, first_act ha, heq⟩
  · -- there is only one answer, so nothing was returned before
    have hbefore : (s l.party).hasReturned key = false := by
      rw [hasReturned_eq_false]
      intro e he
      by_contra hreturned
      have hone := hsound.counted key
      rw [hgiven, List.countP_append] at hone
      have hpos : 0 < (MessageBuffer.answers (s l.party).buffer.2).countP fun e => key.isOf e.1 :=
        List.countP_pos_iff.mpr ⟨e, he, by simpa using hreturned⟩
      have hpos' : 0 < given.countP fun e => key.isOf e.1 :=
        List.countP_pos_iff.mpr ⟨_, hnow, hkey⟩
      omega
    obtain ⟨a, ha, rfl, rfl⟩ := hsound.accepted_of_answer (hgiven ▸ hanswer)
    obtain ⟨b, hb, hmem, hkey'⟩ := first_isSome ha hkey
    exact ⟨b, hb, hsame (.inr hbefore) b hmem hkey' a ha hkey⟩

theorem agreed_run {key : Consistency.Key} {P Q : PartyID} {labels : List Label}
    (hrun : Admits (step cfg) (AgreementStep cfg key P Q) State.initial labels) :
    Agreed key (run cfg labels P) ∧ Agreed key (run cfg labels Q) := by
  -- both parties alike: the step of one does not touch the state of the other
  have hinvariant (party other : PartyID)
      (hcareful : ∀ s l, AgreementStep cfg key P Q s l → careful cfg key party other s l = true) :
      Agreed key (run cfg labels party) := by
    suffices h : (run cfg labels party).Sound cfg party ∧
        (party = party → Agreed key (run cfg labels party)) from h.2 rfl
    refine party_invariant (fun p x => Party.Sound cfg p x ∧ (p = party → Agreed key x)) ?_ ?_
      hrun party
    · intro p
      refine ⟨Party.sound_initial p, fun _ => ⟨fun _ a ha => ?_, fun m channel payload _ h => ?_⟩⟩
      · cases ha
      · cases h
    · intro s l hl h
      have hl' := hl
      simp only [AgreementStep, Bool.and_eq_true] at hl'
      have hsound := sound_act hl'.1.1.1 h.1
      refine ⟨hsound, fun hparty => agreed_act hsound ?_ (h.2 hparty)⟩
      rintro p stream rfl a ha
      have hfree := hcareful s _ hl
      have hparty' : p = party := hparty
      subst hparty'
      have hall : ∀ a ∈ cfg.accepts stream, (s p).conflicts key a = false := by
        simpa [careful, Label.party] using hfree
      exact hall a ha
  refine ⟨hinvariant P Q fun s l hl => ?_, hinvariant Q P fun s l hl => ?_⟩
  · simp only [AgreementStep, Bool.and_eq_true] at hl
    exact hl.1.2
  · simp only [AgreementStep, Bool.and_eq_true] at hl
    exact hl.2

/-! ## Agreement -/

/-- A message with the signed string of a check is that check: the strings contain the hash of the
payload. -/
theorem eq_of_check_signed {key key' : Consistency.Key} {party : PartyID}
    {data check : Consistency.CheckData} {a : ReceiveMessage}
    (hsigned : (Consistency.checkMessage party key' data).signedMetadata cfg.crypto cfg.session =
      a.signedMetadata cfg.crypto cfg.session)
    (hkind : a.metadata.kind = MessageKind.toCheck key.kind)
    (hdatatype : a.metadata.datatype = key.datatype) (hsender : a.metadata.sender = key.sender)
    (hid : a.metadata.id = key.id) (hdata : a.data = check.hash.1 ++ check.signature.1)
    (hhash : cfg.crypto.hash (data.hash.1 ++ data.signature.1) = cfg.crypto.hash a.data →
      data.hash.1 ++ data.signature.1 = a.data) :
    key' = key ∧ data = check := by
  rw [SendMessage.signedMetadata_eq_layout, ReceiveMessage.signedMetadata_eq_layout,
    dataAsSlice_checkMessage] at hsigned
  obtain ⟨h₁, h₂, h₃, -, h₅, -, h₇⟩ := layout_injective hsigned
  refine ⟨?_, Consistency.CheckData.eq_of_bytes ((hhash (Subtype.ext h₇)).trans hdata)⟩
  exact Consistency.Key.eq_of_toCheck (h₁.trans hkind) (h₂.trans hdatatype) (h₃.trans hsender)
    (h₅.trans hid)

/-- What a party knows of its checks when it compares them: the hash of its own first message is
that of the first message of the other party. -/
theorem hash_agrees {key : Consistency.Key} {P Q : PartyID} {labels : List Label}
    (hP : cfg.honest P = true) (hQ : cfg.honest Q = true)
    (hrun : Admits (step cfg) (AgreementStep cfg key P Q) State.initial labels)
    (hhash : Set.InjOn cfg.crypto.hash (hashed cfg (run cfg labels)))
    (hexpected : (run cfg labels P).Expected (cfg.task P) key)
    (hwaited : (run cfg labels P).Waited (cfg.task P) key Q) :
    ∃ a b, (run cfg labels P).first key = some a ∧ (run cfg labels Q).first key = some b ∧
      cfg.crypto.hash a.1.data = cfg.crypto.hash b.1.data := by
  have hhonest (s : State) (l : Label) (h : AgreementStep cfg key P Q s l) :
      Honest cfg s l = true ∧ Genuine cfg s l = true := by
    simp only [AgreementStep, Bool.and_eq_true] at h
    exact ⟨h.1.1.1, h.1.1.2⟩
  have hsoundP := sound_run (fun s l h => (hhonest s l h).1) hrun P
  have hsoundQ := sound_run (fun s l h => (hhonest s l h).1) hrun Q
  obtain ⟨seen, input, ⟨rest, hinputs⟩, ⟨channel, hanswer⟩, receivers, hrequest, hother⟩ := hwaited
  have honce := Party.oneRequest hsoundP.requests
  rw [Party.Expected, ← hinputs, admits_append] at hexpected
  rw [← hinputs] at honce
  obtain ⟨received, hreceived, hchecks⟩ :=
    Consistency.complete_of_answer honce.of_append hexpected.1 hanswer hrequest
  obtain ⟨check, hcheck, hvalid⟩ := hchecks Q hother
  -- the data of `P` is its first message
  have hknown : (Consistency.known key (Consistency.ops (run cfg labels P).inputs)).data =
      some received := by
    rw [← hinputs, Consistency.ops_append]
    exact Consistency.known_data_append _ hreceived
  obtain ⟨a, ha, rfl⟩ := hsoundP.first_of_known hknown
  -- the check of `Q` was signed by `Q`, about its own first message
  have hcheck' : .check key Q check ∈ Consistency.ops (run cfg labels P).inputs := by
    rw [← hinputs, Consistency.ops_append]
    exact List.mem_append_left _ hcheck
  obtain ⟨c, hc, hsigner, hkind, hdatatype, hsender, -, hid, hdata⟩ :=
    hsoundP.accepted_of_check hcheck'
  obtain ⟨m, hm, hsigned⟩ := signed_run _ (fun s l h => genuine_accepts (hhonest s l h).2) hrun P c
    hc (hsigner ▸ hQ)
  rw [hsigner] at hm
  rcases hsoundQ.sent m hm with hnot | ⟨key', data, rfl, hdata'⟩
  · exfalso
    rw [SendMessage.signedMetadata_eq_layout, ReceiveMessage.signedMetadata_eq_layout] at hsigned
    rw [(layout_injective hsigned).1, hkind, MessageKind.toCheck_isConsistencyCheck] at hnot
    cases hnot
  · obtain ⟨rfl, rfl⟩ := eq_of_check_signed hsigned hkind hdatatype hsender hid hdata
      fun heq => hhash
        ⟨Q, hQ, List.mem_append_right _
          (List.mem_map.mpr ⟨_, hm, dataAsSlice_checkMessage Q key' data⟩)⟩
        ⟨P, hP, List.mem_append_left _ (List.mem_map.mpr ⟨c, hc, rfl⟩)⟩ heq
    obtain ⟨b, hb, rfl⟩ := hsoundQ.first_of_known hdata'
    exact ⟨a, b, ha, hb, hvalid.hash⟩

/-- **Agreement.** Two honest receivers that have checked an operation with each other got the same
payload, in every run whose steps at the two parties are careful. -/
theorem agreement (cfg : Config sessions) (key : Consistency.Key) (P Q : PartyID) (hne : P ≠ Q)
    (hP : cfg.honest P = true) (hQ : cfg.honest Q = true) (labels : List Label)
    (hrun : Admits (step cfg) (AgreementStep cfg key P Q) State.initial labels) :
    AgreesOn cfg key P Q labels := by
  intro hhash payload payload' h h'
  obtain ⟨hagreedP, hagreedQ⟩ := agreed_run hrun
  obtain ⟨m, channel, hkey, hanswer⟩ := h.returned
  obtain ⟨m', channel', hkey', hanswer'⟩ := h'.returned
  obtain ⟨a, ha, rfl⟩ := hagreedP.returned m channel payload hkey hanswer
  obtain ⟨b, hb, rfl⟩ := hagreedQ.returned m' channel' payload' hkey' hanswer'
  have hequal : cfg.crypto.hash a.1.data = cfg.crypto.hash b.1.data := by
    -- the check of the one that was expected first has compared the hashes
    rcases expected_run hne hrun with hexpected | hexpected
    · obtain ⟨a', b', ha', hb', heq⟩ := hash_agrees hP hQ hrun hhash hexpected h.waited
      rw [Option.some.inj (ha.symm.trans ha'), Option.some.inj (hb.symm.trans hb')]
      exact heq
    · have hrun' : Admits (step cfg) (AgreementStep cfg key Q P) State.initial labels := by
        refine hrun.mono fun s l hl => ?_
        simp only [AgreementStep, Bool.and_eq_true] at hl ⊢
        exact ⟨⟨hl.1.1, hl.2⟩, hl.1.2⟩
      obtain ⟨b', a', hb', ha', heq⟩ := hash_agrees hQ hP hrun' hhash hexpected h'.waited
      rw [Option.some.inj (ha.symm.trans ha'), Option.some.inj (hb.symm.trans hb')]
      exact heq.symm
  have hmem {party : PartyID} {c : ReceiveMessage × Signature} (hparty : cfg.honest party = true)
      (hc : (run cfg labels party).first key = some c) :
      c.1.data ∈ hashed cfg (run cfg labels) :=
    ⟨party, hparty, List.mem_append_left _
      (List.mem_map.mpr ⟨c, List.mem_of_find?_eq_some hc, rfl⟩)⟩
  exact hhash (hmem hP ha) (hmem hQ hb) hequal

/-! ### The recorded broadcast at parties 1 and 2 -/

namespace Recorded

/-- The `n`-th command a party has processed answered a wait. -/
theorem waited_of_answer {p : Party} {t : Consistency.Task (collective sessions)}
    {key : Consistency.Key} {other : PartyID} (n : ℕ) (channel : AnswerChannel)
    (receivers : Communicator)
    (hanswer : channel ∈ p.inputs[n]?.elim [] fun input =>
      Consistency.answersOf (Consistency.step t (Consistency.run t (p.inputs.take n)).1 input).2)
    (hrequest : .request key receivers ∈ Consistency.ops (p.inputs.take (n + 1)))
    (hother : other ∈ receivers) : p.Waited t key other := by
  cases hinput : p.inputs[n]? with
  | none => simp [hinput] at hanswer
  | some input =>
      rw [hinput, Option.elim_some] at hanswer
      have htake : p.inputs.take n ++ [input] = p.inputs.take (n + 1) := by
        rw [List.take_add_one, hinput, Option.toList_some]
      refine ⟨p.inputs.take n, input, ?_, ⟨channel, Consistency.mem_answersOf.mp hanswer⟩,
        receivers, ?_, hother⟩
      · rw [htake]
        exact List.take_prefix _ _
      · rwa [htake]

/-- A message of the broadcast, and the bytes its sender writes. -/
def broadcast (receiver : PartyID) (payload : OwnedData) : SendMessage :=
  ⟨⟨.broadcast, 6, 0, receiver, 7, 3⟩, ReadData.ofBytes payload⟩

def stream (receiver : PartyID) (payload : OwnedData) : List Byte :=
  (broadcast receiver payload).writeTo crypto session (privateKey 0)

/-- The bytes of the check a party sends about `payload`. -/
def checkStream (party : PartyID) (signature : Signature) : List Byte :=
  (Consistency.checkMessage party key ⟨hashOfPayload, signature⟩).writeTo crypto session
    (privateKey party)

def sent (_ : PartyID) : Consistency.NetOutcome := .ok

def only (party : PartyID) : Communicator := ⟨[party], by simp⟩

def requestTo (receiver : PartyID) : ConsistencyCheck :=
  ⟨key.kind, key.datatype, key.sender, only receiver, key.id⟩

/-- Party 2 receives `payload`; both parties send each other their checks and wait. -/
def exchange : List Label :=
  [ .deliver 2 (stream 2 payload), .forward 2 0, .receive 2 (broadcast 2 payload).metadata,
    .dataStep 2, .dataStep 2,
    .request 1 (requestTo 2), .request 2 (requestTo 1), .wait 1, .wait 2,
    .consistencyStep 1 sent, .consistencyStep 1 sent, .consistencyStep 1 sent,
    .consistencyStep 2 sent, .consistencyStep 2 sent, .consistencyStep 2 sent,
    .deliver 1 (checkStream 2 signatureTo2), .deliver 2 (checkStream 1 signatureTo1),
    .consistencyStep 1 sent, .consistencyStep 2 sent ]

/-- Party 1 receives `payload`, too. -/
def onePayload : List Label :=
  [ .deliver 1 (stream 1 payload), .forward 1 0, .receive 1 (broadcast 1 payload).metadata,
    .dataStep 1, .dataStep 1 ] ++ exchange

/-- The sender sends party 1 two messages of the same metadata, before party 1 receives. The second
command of its consistency task is the hash of `otherPayload`, which is refused. -/
def twoPayloads : List Label :=
  [ .deliver 1 (stream 1 payload), .deliver 1 (stream 1 otherPayload), .forward 1 0, .forward 1 0,
    .dataStep 1, .dataStep 1, .receive 1 (broadcast 1 payload).metadata, .dataStep 1 ] ++
    exchange ++ [ .consistencyStep 1 sent ]

/-- What is hashed in these runs. -/
def strings : List (List Byte) :=
  [payload, otherPayload, hashOfPayload.1 ++ signatureTo1.1, hashOfPayload.1 ++ signatureTo2.1]

theorem injOn_hashed {labels : List Label}
    (h₁ : ∀ string ∈ (run (config [1, 2]) labels 1).hashed, string ∈ strings)
    (h₂ : ∀ string ∈ (run (config [1, 2]) labels 2).hashed, string ∈ strings) :
    Set.InjOn (config [1, 2]).crypto.hash
      (hashed (config [1, 2]) (run (config [1, 2]) labels)) := by
  have hmem : ∀ string ∈ hashed (config [1, 2]) (run (config [1, 2]) labels),
      string ∈ strings := by
    rintro string ⟨party, hparty, hstring⟩
    have hparty' : party ∈ [1, 2] := of_decide_eq_true hparty
    rcases List.mem_cons.mp hparty' with rfl | hparty'
    · exact h₁ string hstring
    · obtain rfl := List.mem_singleton.mp hparty'
      exact h₂ string hstring
  have hnodup : (strings.map crypto.hash).Nodup := by decide +kernel
  intro x hx y hy hxy
  exact List.inj_on_of_nodup_map hnodup (hmem x hx) (hmem y hy) hxy

/-- A party has returned `payload`, and the `n`-th command it has processed answered its wait for
the check of the other one. -/
def Answered (labels : List Label) (party other : PartyID) (n : ℕ) (payload : OwnedData) : Prop :=
  let p := run (config [1, 2]) labels party
  let t := (config [1, 2]).task party
  ((broadcast party payload).metadata, 0, payload) ∈ MessageBuffer.answers p.buffer.2 ∧
    1 ∈ (p.inputs[n]?.elim [] fun input =>
      Consistency.answersOf (Consistency.step t (Consistency.run t (p.inputs.take n)).1 input).2) ∧
    .request key (only other) ∈ Consistency.ops (p.inputs.take (n + 1))

instance decidableAnswered (labels : List Label) (party other : PartyID) (n : ℕ)
    (payload : OwnedData) : Decidable (Answered labels party other n payload) :=
  inferInstanceAs (Decidable (_ ∧ _ ∧ _))

theorem Answered.checked {labels : List Label} {party other : PartyID} {n : ℕ}
    {payload : OwnedData} (h : Answered labels party other n payload) :
    Checked (config [1, 2]) (run (config [1, 2]) labels) key party other payload := by
  obtain ⟨hreturned, hanswer, hrequest⟩ := h
  exact ⟨⟨(broadcast party payload).metadata, 0, rfl, hreturned⟩,
    waited_of_answer n 1 (only other) hanswer hrequest (by simp [only, Communicator.mem_def])⟩

end Recorded

/-- Both parties receive and check the same payload. -/
theorem agreement_recorded :
    let s := run (Recorded.config [1, 2]) Recorded.onePayload
    Checked (Recorded.config [1, 2]) s Recorded.key 1 2 Recorded.payload ∧
      ∀ payload', Checked (Recorded.config [1, 2]) s Recorded.key 2 1 payload' →
        Recorded.payload = payload' := by
  intro s
  have hanswered : Recorded.Answered Recorded.onePayload 1 2 3 Recorded.payload := by
    decide +kernel
  refine ⟨hanswered.checked, fun payload' h => ?_⟩
  exact agreement (Recorded.config [1, 2]) Recorded.key 1 2 (by decide) rfl rfl Recorded.onePayload
    (by decide +kernel) (Recorded.injOn_hashed (by decide +kernel) (by decide +kernel)) _ _
    hanswered.checked h

/-- Without the condition, a sender of two payloads has the first one compared and the second one
returned. -/
theorem two_payloads_pass_the_check :
    Admits (step (Recorded.config [1, 2]))
        (fun s l => (Honest (Recorded.config [1, 2]) s l && Genuine (Recorded.config [1, 2]) s l) =
          true)
        State.initial Recorded.twoPayloads ∧
      ¬ AgreesOn (Recorded.config [1, 2]) Recorded.key 1 2 Recorded.twoPayloads := by
  refine ⟨by decide +kernel, fun h => ?_⟩
  have hat1 : Recorded.Answered Recorded.twoPayloads 1 2 4 Recorded.otherPayload := by
    decide +kernel
  have hat2 : Recorded.Answered Recorded.twoPayloads 2 1 3 Recorded.payload := by decide +kernel
  have hequal := h (Recorded.injOn_hashed (by decide +kernel) (by decide +kernel)) _ _
    hat1.checked hat2.checked
  exact absurd hequal (by decide)

end Hmpc.Net
