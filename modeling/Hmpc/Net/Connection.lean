/-
# Hmpc.Net.Connection -- what one stream can do to a connection

`handle_connection` reads one stream after the other. An error of `read_from` is logged and the
next stream is read; a message is forwarded. The conversion of a check to a
`ConsistencyCheckMessage` is unwrapped, although it fails on every payload that is not a hash and
a signature: a panic ends the task of the connection, and what comes later is not read.
-/
import Hmpc.Net.Server

namespace Hmpc.Net

variable {sessions : Bool}

/-! ## The loop -/

/-- What a handler sends to the other tasks. -/
inductive Forwarded where
  | receivedCheck (message : CheckMessage)
  | receivedData (message : DataMessage)
  | received (message : ReceiveMessage)

/-- One iteration of the loop: what was forwarded, and the error that was logged. -/
structure Handling where
  forwarded : List Forwarded
  error : Option ServerError
  panicked : Bool

def Config.dispatch (cfg : Config sessions) (stream : List Byte) : Handling :=
  match cfg.handle stream with
  | .rejected e => ⟨[], some e, false⟩
  | .panicked => ⟨[], none, true⟩
  | .check message => ⟨[.receivedCheck message], none, false⟩
  | .message data message =>
      ⟨(data.map Forwarded.receivedData).toList ++ [.received message], none, false⟩

/-- The streams of a connection, up to a panic. -/
def Config.handleConnection (cfg : Config sessions) : List (List Byte) → List Handling
  | [] => []
  | stream :: streams =>
      cfg.dispatch stream ::
        if (cfg.dispatch stream).panicked then [] else cfg.handleConnection streams

/-- What is forwarded for a message: its hash and signature if its kind needs a check, and the
message itself. -/
inductive ForwardsMessage : List Forwarded → Prop where
  | unchecked (message : ReceiveMessage) (hkind : message.metadata.kind.needsCheck = false) :
      ForwardsMessage [.received message]
  | checked (data : DataMessage) (message : ReceiveMessage)
      (hkind : message.metadata.kind.needsCheck = true)
      (hmetadata : data.1.metadata = message.metadata) :
      ForwardsMessage [.receivedData data, .received message]

/-- The three ways a stream may be handled. -/
inductive Handling.Orderly : Handling → Prop where
  | error (e : ServerError) : Handling.Orderly ⟨[], some e, false⟩
  | check (message : CheckMessage) : Handling.Orderly ⟨[.receivedCheck message], none, false⟩
  | message (forwarded : List Forwarded) (h : ForwardsMessage forwarded) :
      Handling.Orderly ⟨forwarded, none, false⟩

theorem Handling.Orderly.panicked {h : Handling} (horderly : h.Orderly) : h.panicked = false := by
  cases horderly <;> rfl

/-! ## What is accepted -/

/-- `read_from` accepts exactly the streams that are made of the fields of a message and of a
signature that the key of its signer verifies. -/
theorem readFrom_eq_ok_iff {c : Crypto} {session : Cfg (collective sessions).sessions SessionID}
    {keys : PartyID → Option PublicKey} {stream : List Byte} {r : ReceiveMessage}
    {signature : Signature} :
    ReceiveMessage.readFrom c session keys stream = .ok (r, signature) ↔
      stream.length ≤ messageSizeLimit ∧
        stream = layout session r.metadata.kind r.metadata.datatype r.metadata.sender
          r.metadata.receiver r.metadata.id r.data ++ signature.1 ∧
        r.metadata.size = BitVec.ofNat 64 r.data.length ∧
        ∃ key, keys r.signer = some key ∧
          c.verify key (r.signedMetadata c session) signature.1 = true := by
  have hverify : @ReceiveMessage.verifySignature (collective sessions) c session r true keys
      signature = .ok () ↔ ∃ key, keys r.signer = some key ∧
        c.verify key (r.signedMetadata c session) signature.1 = true := by
    simp only [ReceiveMessage.verifySignature]
    split
    · rename_i hsigner
      have hsigner : keys r.signer = none := hsigner
      simp [hsigner]
    · rename_i key hsigner
      have hsigner : keys r.signer = some key := hsigner
      split
      · rename_i hkey
        exact ⟨fun _ => ⟨key, hsigner, hkey⟩, fun _ => rfl⟩
      · rename_i hkey
        simp [hsigner, hkey]
  rw [ReceiveMessage.readFrom]
  by_cases hlimit : messageSizeLimit < stream.length
  · rw [if_pos hlimit]
    constructor
    · intro h
      cases h
    · intro h
      exact absurd h.1 (Nat.not_le.mpr hlimit)
  · rw [if_neg hlimit, bind_eq_ok_iff]
    constructor
    -- the steps of the source: split, build, verify
    · rintro ⟨⟨message, signature'⟩, hsplit, h⟩
      obtain ⟨r', hbuild, h⟩ := bind_eq_ok_iff.mp h
      obtain ⟨⟨⟩, hok, h⟩ := bind_eq_ok_iff.mp h
      obtain ⟨rfl, rfl⟩ := Prod.mk.inj (Except.ok.inj h)
      obtain ⟨rfl, hsize⟩ := ReceiveMessage.buildFrom_eq_ok_iff.mp hbuild
      exact ⟨Nat.not_lt.mp hlimit, ReceiveMessage.splitSignature_eq_ok_iff.mp hsplit, hsize,
        hverify.mp hok⟩
    · rintro ⟨-, hstream, hsize, hkey⟩
      refine ⟨(_, signature), ReceiveMessage.splitSignature_eq_ok_iff.mpr hstream, ?_⟩
      refine bind_eq_ok_iff.mpr ⟨r, ReceiveMessage.buildFrom_eq_ok_iff.mpr ⟨rfl, hsize⟩, ?_⟩
      exact bind_eq_ok_iff.mpr ⟨(), hverify.mpr hkey, rfl⟩

/-- The conversion of a check succeeds when the payload is as long as a hash and a signature. -/
theorem tryIntoCheck_isOk_iff {value : ReceiveMessage}
    (hkind : value.metadata.kind.isConsistencyCheck = true) :
    (∃ check, value.tryIntoCheck = .ok check) ↔ value.data.length = hashSize + signatureSize := by
  constructor
  · rintro ⟨check, hcheck⟩
    rw [(ReceiveMessage.tryIntoCheck_eq_ok hcheck).2, List.length_append, check.1.hash.2,
      check.1.signature.2]
  · intro hlength
    have hhash : hashSize ≤ value.data.length := by omega
    have hdata : (value.data.drop hashSize).length = signatureSize := by
      rw [List.length_drop]; omega
    rw [ReceiveMessage.tryIntoCheck, dif_pos hkind, splitFirstChunk, dif_pos hhash]
    exact ⟨_, dif_pos hdata⟩

/-! ## When a connection survives -/

/-- A check with a payload of the wrong length, correctly signed by the party in its receiver
field. -/
def Config.MalformedCheck (cfg : Config sessions) (stream : List Byte) : Prop :=
  ∃ (kind : MessageKind) (datatype : MessageDatatype) (sender receiver : PartyID)
    (id : MessageID) (payload : List Byte) (signature : Signature) (key : PublicKey),
    kind.isConsistencyCheck = true ∧ payload.length ≠ hashSize + signatureSize ∧
      stream.length ≤ messageSizeLimit ∧
      stream = layout cfg.session kind datatype sender receiver id payload ++ signature.1 ∧
      cfg.verificationKeys receiver = some key ∧
      cfg.crypto.verify key (layout cfg.session kind datatype sender receiver id
        (cfg.crypto.hash payload).1) signature.1 = true

theorem Config.malformedCheck_iff {cfg : Config sessions} {stream : List Byte} :
    cfg.MalformedCheck stream ↔ ∃ r signature, cfg.read stream = .ok (r, signature) ∧
      r.metadata.kind.isConsistencyCheck = true ∧ r.data.length ≠ hashSize + signatureSize := by
  constructor
  · rintro ⟨kind, datatype, sender, receiver, id, payload, signature, key, hkind, hlength, hlimit,
      hstream, hkey, hverify⟩
    refine ⟨.new kind datatype sender receiver id payload, signature,
      readFrom_eq_ok_iff.mpr ⟨hlimit, hstream, rfl, key, ?_, ?_⟩, hkind, hlength⟩
    · rw [ReceiveMessage.signer, ReceiveMessage.new, if_pos hkind]
      exact hkey
    · rw [ReceiveMessage.signedMetadata_eq_layout]
      exact hverify
  · rintro ⟨r, signature, hread, hkind, hlength⟩
    obtain ⟨hlimit, hstream, -, key, hkey, hverify⟩ := readFrom_eq_ok_iff.mp hread
    rw [ReceiveMessage.signer, if_pos hkind] at hkey
    rw [ReceiveMessage.signedMetadata_eq_layout] at hverify
    exact ⟨_, _, _, _, _, _, signature, key, hkind, hlength, hlimit, hstream, hkey, hverify⟩

/-- The hash and signature a message is checked by. -/
theorem forwardsMessage_tryIntoData (c : Crypto) (message : ReceiveMessage)
    (signature : Signature) :
    ForwardsMessage (((message.tryIntoData c signature).map Forwarded.receivedData).toList ++
      [.received message]) := by
  by_cases hkind : message.metadata.kind.needsCheck = true
  · rw [ReceiveMessage.tryIntoData, dif_pos hkind]
    exact .checked _ message hkind rfl
  · rw [ReceiveMessage.tryIntoData, dif_neg hkind]
    exact .unchecked message (by simpa using hkind)

/-- **One stream**: it is handled in an orderly way or the task panics, and the latter happens
for malformed checks only. -/
theorem Config.dispatch_spec (cfg : Config sessions) (stream : List Byte) :
    ((cfg.dispatch stream).Orderly ∧ ¬ cfg.MalformedCheck stream) ∨
      ((cfg.dispatch stream).panicked = true ∧ cfg.MalformedCheck stream) := by
  rw [Config.malformedCheck_iff, Config.dispatch, Config.handle]
  cases hread : cfg.read stream with
  | error e => exact Or.inl ⟨.error e, by rintro ⟨_, _, h, -⟩; cases h⟩
  | ok accepted =>
      obtain ⟨message, signature⟩ := accepted
      by_cases hkind : message.metadata.kind.isConsistencyCheck = true
      · simp only [hkind, if_true]
        by_cases hlength : message.data.length = hashSize + signatureSize
        · obtain ⟨check, hcheck⟩ := (tryIntoCheck_isOk_iff hkind).mpr hlength
          rw [hcheck]
          refine Or.inl ⟨.check check, ?_⟩
          rintro ⟨_, _, h, -, hne⟩
          obtain ⟨rfl, -⟩ := Prod.mk.inj (Except.ok.inj h)
          exact hne hlength
        · refine Or.inr ⟨?_, message, signature, rfl, hkind, hlength⟩
          cases hcheck : message.tryIntoCheck with
          | error e => rfl
          | ok check => exact absurd ((tryIntoCheck_isOk_iff hkind).mp ⟨check, hcheck⟩) hlength
      · simp only [hkind, Bool.false_eq_true, if_false]
        refine Or.inl ⟨.message _ (forwardsMessage_tryIntoData _ _ _), ?_⟩
        rintro ⟨_, _, h, hcheck, -⟩
        obtain ⟨rfl, -⟩ := Prod.mk.inj (Except.ok.inj h)
        exact hkind hcheck

theorem Config.orderly_dispatch_iff (cfg : Config sessions) (stream : List Byte) :
    (cfg.dispatch stream).Orderly ↔ ¬ cfg.MalformedCheck stream := by
  rcases cfg.dispatch_spec stream with ⟨horderly, hfine⟩ | ⟨hpanicked, hmalformed⟩
  · exact ⟨fun _ => hfine, fun _ => horderly⟩
  · refine ⟨fun horderly => ?_, fun hfine => absurd hmalformed hfine⟩
    rw [horderly.panicked] at hpanicked
    cases hpanicked

/-- A connection reads on while nothing malformed arrives. -/
theorem Config.handleConnection_of_orderly {cfg : Config sessions} {streams : List (List Byte)}
    (h : ∀ stream ∈ streams, ¬ cfg.MalformedCheck stream) :
    cfg.handleConnection streams = streams.map cfg.dispatch := by
  induction streams with
  | nil => rfl
  | cons stream streams ih =>
      have horderly := (cfg.orderly_dispatch_iff stream).mpr (h stream List.mem_cons_self)
      rw [handleConnection, horderly.panicked, if_neg Bool.false_ne_true,
        ih fun s hs => h s (List.mem_cons_of_mem _ hs), List.map_cons]

theorem Config.orderly_handleConnection_iff (cfg : Config sessions) (streams : List (List Byte)) :
    (∀ handling ∈ cfg.handleConnection streams, handling.Orderly) ↔
      ∀ stream ∈ streams, ¬ cfg.MalformedCheck stream := by
  refine ⟨fun h => ?_, fun h handling hmem => ?_⟩
  · induction streams with
    | nil => simp
    | cons stream streams ih =>
        rw [handleConnection] at h
        have horderly := h _ List.mem_cons_self
        rw [horderly.panicked, if_neg Bool.false_ne_true] at h
        rw [List.forall_mem_cons]
        exact ⟨(cfg.orderly_dispatch_iff stream).mp horderly,
          ih fun handling hmem => h handling (List.mem_cons_of_mem _ hmem)⟩
  · rw [handleConnection_of_orderly h] at hmem
    obtain ⟨stream, hstream, rfl⟩ := List.mem_map.mp hmem
    exact (cfg.orderly_dispatch_iff stream).mpr (h stream hstream)

/-- **Malformed input and connections.** Exactly the malformed checks are not handled in an orderly
way, and a connection handles all its streams, each in an orderly way, exactly if none of them is
a malformed check. -/
theorem connection_survives_iff (cfg : Config sessions) :
    (∀ stream, (cfg.dispatch stream).Orderly ↔ ¬ cfg.MalformedCheck stream) ∧
    ∀ streams, ((cfg.handleConnection streams).length = streams.length ∧
        ∀ handling ∈ cfg.handleConnection streams, handling.Orderly) ↔
      ∀ stream ∈ streams, ¬ cfg.MalformedCheck stream := by
  refine ⟨cfg.orderly_dispatch_iff, fun streams => ?_⟩
  rw [← cfg.orderly_handleConnection_iff streams]
  refine ⟨fun h => h.2, fun horderly => ⟨?_, horderly⟩⟩
  have hfine := (cfg.orderly_handleConnection_iff streams).mp horderly
  rw [Config.handleConnection_of_orderly hfine, List.length_map]

/-! ### A check without a payload -/

namespace Recorded

def emptyHash : Hash :=
  bytesOf 32 0x55b852781b9995a44c939b64e441ae2724b96f99c8f4fb9a141cfc9842c4b0e3

def signatureOfEmpty : Signature := ed25519
  0xfef11392d58917758eff2d03d8a7e087ec9bd20ee7aef8378e726353098d152d
  0x940397266d74e859f5cb8cb74295ec96a376caaa584384b8cf09ee8c87b23f8

/-- Party 1 signs a check of the broadcast that has no payload. -/
def emptyCheck : List Byte :=
  layout session .consistencyCheckBroadcast 6 0 1 7 [] ++ signatureOfEmpty.1

def cryptoOfEmpty : Crypto :=
  .ofTable [([], emptyHash)]
    [(privateKey 1, (publicKey 1).getD [],
      layout session .consistencyCheckBroadcast 6 0 1 7 emptyHash.1, signatureOfEmpty)]

def configOfEmpty : Config true where
  crypto := cryptoOfEmpty
  session := session
  signingKey := privateKey
  verificationKeys := publicKey
  honest party := decide (party ≠ 1)

theorem malformedCheck_emptyCheck : configOfEmpty.MalformedCheck emptyCheck :=
  ⟨.consistencyCheckBroadcast, 6, 0, 1, 7, [], signatureOfEmpty, _, rfl, by decide, by decide, rfl,
    rfl, by decide +kernel⟩

end Recorded

/-- It ends the connection: nothing is forwarded, and the next stream is not read. -/
theorem empty_check_panics :
    ¬ ∀ (cfg : Config true) (stream : List Byte), (cfg.dispatch stream).Orderly :=
  fun hclaim => (Recorded.configOfEmpty.orderly_dispatch_iff Recorded.emptyCheck).mp
    (hclaim Recorded.configOfEmpty Recorded.emptyCheck) Recorded.malformedCheck_emptyCheck

end Hmpc.Net
