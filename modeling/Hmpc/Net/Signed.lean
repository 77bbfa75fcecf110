/-
# Hmpc.Net.Signed -- the signed byte string in its three places

A signature is made in `write_to`, verified in `read_from`, and verified once more, by parties that
never saw the message, in `check_signature`. Each of the three builds the signed byte string from
its own data. Here the string is followed along that way: from the sender to a receiver, into the
receiver's check message, through the wire again, and into the key and data of the third party.
-/
import Hmpc.Net.Consistency

namespace Hmpc.Net

open Hmpc.Lib

/-- The features of a build with collective consistency: signing is on, sessions may be. -/
abbrev collective (sessions : Bool) : Features := ⟨sessions, true⟩

variable {f : Features}

theorem Consistency.signedMetadata_eq_layout (session : Cfg f.sessions SessionID)
    (key : Consistency.Key) (receiver : PartyID) (check : Consistency.CheckData) :
    Consistency.signedMetadata session key receiver check =
      layout session key.kind.1 key.datatype key.sender receiver key.id check.hash.1 := by
  simp [signedMetadata, layout]

/-! ## Through the wire -/

/-- What `read_from` makes of a written message: the same metadata and payload, the signature of
`write_to`, and the verification of that signature. -/
theorem readFrom_writeTo {c : Crypto} {session : Cfg f.sessions SessionID}
    {signingKey : Cfg f.signing PrivateKey}
    {verificationKeys : Cfg f.signing (PartyID → Option PublicKey)} {m : SendMessage}
    (hlimit : (m.writeTo c session signingKey).length ≤ messageSizeLimit) :
    let result : ReceiveMessage := ⟨m.metadata, m.metadata.dataAsSlice m.data⟩
    let signature := m.signature c session signingKey
    ReceiveMessage.readFrom c session verificationKeys (m.writeTo c session signingKey) =
      (result.verifySignature c session verificationKeys signature).bind
        fun _ => .ok (result, signature) := by
  intro result signature
  have hbuild : ReceiveMessage.buildFrom session (layout session m.metadata.kind
      m.metadata.datatype m.metadata.sender m.metadata.receiver m.metadata.id
      (m.metadata.dataAsSlice m.data)) = .ok result :=
    ReceiveMessage.buildFrom_eq_ok_iff.mpr ⟨rfl, by simp [result]⟩
  rw [ReceiveMessage.readFrom, if_neg (Nat.not_lt.mpr hlimit)]
  simp only [m.splitSignature_writeTo c session signingKey, hbuild, bind, Except.bind]
  rfl

/-- If a written message is read at all, then as itself. -/
theorem eq_of_readFrom_writeTo {c : Crypto} {session : Cfg f.sessions SessionID}
    {signingKey : Cfg f.signing PrivateKey}
    {verificationKeys : Cfg f.signing (PartyID → Option PublicKey)} {m : SendMessage}
    {result : ReceiveMessage} {signature : Cfg f.signing Signature}
    (h : ReceiveMessage.readFrom c session verificationKeys (m.writeTo c session signingKey) =
      .ok (result, signature)) :
    result = ⟨m.metadata, m.metadata.dataAsSlice m.data⟩ ∧
      signature = m.signature c session signingKey := by
  by_cases hlimit : (m.writeTo c session signingKey).length ≤ messageSizeLimit
  · rw [readFrom_writeTo hlimit] at h
    obtain ⟨-, -, h⟩ := bind_eq_ok_iff.mp h
    obtain ⟨h₁, h₂⟩ := Prod.mk.inj (Except.ok.inj h)
    exact ⟨h₁.symm, h₂.symm⟩
  · rw [ReceiveMessage.readFrom, if_pos (Nat.not_le.mp hlimit)] at h
    cases h

/-! ## Through a check message -/

theorem dataAsSlice_checkMessage (id : PartyID) (key : Consistency.Key)
    (data : Consistency.CheckData) :
    (Consistency.checkMessage id key data).metadata.dataAsSlice
      (Consistency.checkMessage id key data).data = data.hash.1 ++ data.signature.1 := by
  refine Message.dataAsSlice_ofBytes ?_
  have hlength : (data.hash.1 ++ data.signature.1).length = 96 := by
    rw [List.length_append, data.hash.2, data.signature.2]
    rfl
  simp only [Consistency.checkMessage, hlength]
  rfl

/-- The payload of a check determines its hash and signature, its metadata the key. -/
theorem Consistency.CheckData.eq_of_bytes {data check : Consistency.CheckData}
    (h : data.hash.1 ++ data.signature.1 = check.hash.1 ++ check.signature.1) : data = check := by
  obtain ⟨hfirst, hsecond⟩ := List.append_inj h (data.hash.2.trans check.hash.2.symm)
  obtain ⟨hash, signature⟩ := data
  obtain ⟨hash', signature'⟩ := check
  obtain rfl : hash = hash' := Subtype.ext hfirst
  obtain rfl : signature = signature' := Subtype.ext hsecond
  rfl

theorem Consistency.Key.eq_of_toCheck {key key' : Consistency.Key}
    (hkind : MessageKind.toCheck key.kind = MessageKind.toCheck key'.kind)
    (hdatatype : key.datatype = key'.datatype) (hsender : key.sender = key'.sender)
    (hid : key.id = key'.id) : key = key' := by
  obtain ⟨kind, datatype, sender, id⟩ := key
  obtain ⟨kind', datatype', sender', id'⟩ := key'
  obtain rfl := MessageKind.toCheck_injective hkind
  obtain rfl : datatype = datatype' := hdatatype
  obtain rfl : sender = sender' := hsender
  obtain rfl : id = id' := hid
  rfl

theorem ReceiveMessage.tryIntoCheck_eq_ok {value : ReceiveMessage} {check : CheckMessage}
    (h : value.tryIntoCheck = .ok check) :
    check.1.metadata = value.metadata ∧
      value.data = check.1.hash.1 ++ check.1.signature.1 := by
  unfold tryIntoCheck at h
  split at h
  · split at h
    · cases h
    · rename_i hash data hsplit
      split at h
      · rw [← Except.ok.inj h]
        exact ⟨rfl, splitFirstChunk_eq_some hsplit⟩
      · cases h
  · cases h

/-- The payload of a check message is a hash and a signature again. -/
theorem tryIntoCheck_checkMessage (id : PartyID) (key : Consistency.Key)
    (data : Consistency.CheckData) :
    ∃ check : CheckMessage,
      (⟨(Consistency.checkMessage id key data).metadata,
          data.hash.1 ++ data.signature.1⟩ : ReceiveMessage).tryIntoCheck = .ok check ∧
        (Consistency.Command.receivedCheck check).op = .check key id data := by
  have hkind := MessageKind.toCheck_isConsistencyCheck key.kind
  have hmeta : (Consistency.checkMessage id key data).metadata.kind.isConsistencyCheck = true :=
    hkind
  refine ⟨⟨⟨(Consistency.checkMessage id key data).metadata, data.hash, data.signature⟩, hmeta⟩,
    ?_, ?_⟩
  · rw [ReceiveMessage.tryIntoCheck, dif_pos hmeta]
    have hsplit := splitFirstChunk_append data.hash data.signature.1
    simp only [hsplit, data.signature.2, dif_pos]
  · simp [Consistency.Command.op, Consistency.checkMessage]

/-! ## The three places -/

/-- **The signed bytes agree.** A message of a checkable kind is read by its receiver; the receiver
records its hash and signature and tells them to a third party. What the sender signed, what the
receiver verified and what the third party verifies is one byte string; and that string determines
kind, datatype, sender, receiver, id, session and hash, so that no check message is ever signed
with the string of an original message. -/
theorem signed_bytes_agree (sessions : Bool) (c : Crypto)
    (session : Cfg (collective sessions).sessions SessionID) (senderKey receiverKey : PrivateKey)
    (keysAtReceiver keysAtThird : PartyID → Option PublicKey) :
    (∀ m : SendMessage, m.metadata.kind.needsCheck = true →
      ∀ result signature,
        ReceiveMessage.readFrom c session keysAtReceiver (m.writeTo c session senderKey) =
          .ok (result, signature) →
        result.signedMetadata c session = m.signedMetadata c session ∧
        ∃ recorded key data, result.tryIntoData c signature = some recorded ∧
          (Consistency.Command.receivedData recorded).op = .data key data ∧
          ∀ result' signature',
            ReceiveMessage.readFrom c session keysAtThird
              ((Consistency.checkMessage m.metadata.receiver key data).writeTo c session
                receiverKey) = .ok (result', signature') →
            ∃ check key' receiver' data', result'.tryIntoCheck = .ok check ∧
              (Consistency.Command.receivedCheck check).op = .check key' receiver' data' ∧
              Consistency.signedMetadata session key' receiver' data' =
                m.signedMetadata c session) ∧
    (∀ (session' : Cfg (collective sessions).sessions SessionID) (kind kind' : MessageKind)
      (datatype datatype' : MessageDatatype) (sender sender' receiver receiver' : PartyID)
      (id id' : MessageID) (hash hash' : Hash),
      layout session kind datatype sender receiver id hash.1 =
          layout session' kind' datatype' sender' receiver' id' hash'.1 →
        kind = kind' ∧ datatype = datatype' ∧ sender = sender' ∧ receiver = receiver' ∧
          id = id' ∧ session = session' ∧ hash = hash') ∧
    (∀ m m' : SendMessage, m.metadata.kind.isConsistencyCheck = true →
      m'.metadata.kind.isConsistencyCheck = false →
      m.signedMetadata c session ≠ m'.signedMetadata c session) := by
  refine ⟨fun m hkind result signature hread => ?_, ?_, fun m m' hcheck hnot heq => ?_⟩
  -- a stream that is read is one that was written, so the receiver has the same fields
  · obtain ⟨rfl, rfl⟩ := eq_of_readFrom_writeTo hread
    refine ⟨?_, _, _, _, dif_pos hkind, rfl, fun result' signature' hread' => ?_⟩
    · rw [ReceiveMessage.signedMetadata_eq_layout, SendMessage.signedMetadata_eq_layout]
    · obtain ⟨rfl, -⟩ := eq_of_readFrom_writeTo hread'
      obtain ⟨check, hcheck, hop⟩ := tryIntoCheck_checkMessage m.metadata.receiver
        ⟨⟨m.metadata.kind, hkind⟩, m.metadata.datatype, m.metadata.sender, m.metadata.id⟩
        ⟨c.hash (m.metadata.dataAsSlice m.data), c.sign senderKey (m.signedMetadata c session)⟩
      refine ⟨check, _, _, _, ?_, hop, ?_⟩
      · rw [dataAsSlice_checkMessage]
        exact hcheck
      · rw [Consistency.signedMetadata_eq_layout, SendMessage.signedMetadata_eq_layout]
  · intro session' kind kind' datatype datatype' sender sender' receiver receiver' id id' hash
      hash' h
    obtain ⟨h₁, h₂, h₃, h₄, h₅, h₆, h₇⟩ := layout_injective h
    exact ⟨h₁, h₂, h₃, h₄, h₅, h₆, Subtype.ext h₇⟩
  · rw [SendMessage.signedMetadata_eq_layout, SendMessage.signedMetadata_eq_layout] at heq
    rw [(layout_injective heq).1, hnot] at hcheck
    cases hcheck

namespace Recorded

/-- What party 1 records of the broadcast. -/
def dataAt1 : Consistency.CheckData := ⟨hashOfPayload, signatureTo1⟩

theorem needsCheck_broadcast : MessageKind.broadcast.needsCheck = true := rfl

def key : Consistency.Key := ⟨⟨.broadcast, needsCheck_broadcast⟩, 6, 0, 7⟩

/-- The check message of party 1, as another party reads it. -/
def checkOf1 : ReceiveMessage :=
  ⟨(Consistency.checkMessage 1 key dataAt1).metadata, hashOfPayload.1 ++ signatureTo1.1⟩

theorem readFrom_broadcastTo1 :
    ReceiveMessage.readFrom crypto session publicKey
      (broadcastTo1.toSend.writeTo crypto session (privateKey 0)) =
        .ok (broadcastTo1, signatureTo1) := by
  decide +kernel

theorem readFrom_checkOf1 :
    (ReceiveMessage.readFrom crypto session publicKey
      ((Consistency.checkMessage 1 key dataAt1).writeTo crypto session (privateKey 1))).map
        Prod.fst = .ok checkOf1 := by
  decide +kernel

end Recorded

/-- The recorded broadcast to party 1: it is signed, read and recorded there, and the third party
that reads the check of party 1 verifies the sender's string again. -/
theorem signed_bytes_agree_recorded :
    Recorded.broadcastTo1.signedMetadata Recorded.crypto Recorded.session =
        Recorded.broadcastTo1.toSend.signedMetadata Recorded.crypto Recorded.session ∧
      ∃ check key receiver data, Recorded.checkOf1.tryIntoCheck = .ok check ∧
        (Consistency.Command.receivedCheck check).op = .check key receiver data ∧
        Consistency.signedMetadata Recorded.session key receiver data =
          Recorded.broadcastTo1.toSend.signedMetadata Recorded.crypto Recorded.session := by
  obtain ⟨hread, recorded, key, data, hrecorded, hop, hthird⟩ :=
    (signed_bytes_agree true Recorded.crypto Recorded.session (Recorded.privateKey 0)
      (Recorded.privateKey 1) Recorded.publicKey Recorded.publicKey).1 Recorded.broadcastTo1.toSend
      rfl _ _ Recorded.readFrom_broadcastTo1
  refine ⟨hread, ?_⟩
  obtain rfl := Option.some.inj hrecorded
  obtain ⟨rfl, rfl⟩ := (Consistency.Op.data.injEq ..).mp hop
  cases hcheck : ReceiveMessage.readFrom Recorded.crypto Recorded.session Recorded.publicKey
      ((Consistency.checkMessage 1 Recorded.key Recorded.dataAt1).writeTo Recorded.crypto
        Recorded.session (Recorded.privateKey 1)) with
  | error e =>
      have := Recorded.readFrom_checkOf1
      rw [hcheck] at this
      cases this
  | ok result =>
      have hresult := Recorded.readFrom_checkOf1
      rw [hcheck] at hresult
      obtain ⟨result', signature'⟩ := result
      obtain rfl : result' = Recorded.checkOf1 := Except.ok.inj hresult
      exact hthird _ _ hcheck

end Hmpc.Net
