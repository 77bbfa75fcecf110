/-
# Hmpc.Net.Wire -- the bytes of a message: `write_to`, `build_from`, `read_from`

`SendMessage::write_to` and `ReceiveMessage::read_from` are separate field-by-field code under
conditional compilation. Both are modelled here for every combination of the `sessions` and
`signing` features; a parameter or a statement under `#[cfg(feature = ..)]` is a `Cfg` value that
is present exactly when its feature is on. `layout` is the message format on its own: the
specification `buildFrom_eq_ok_iff` says the decoder accepts exactly the strings of that format,
and the encoder writes one of them, so the round trip in both directions is read off there.
-/
import Hmpc.Net.Message

namespace Hmpc.Net

open Hmpc.Lib

/-! ## Features -/

/-- The features that change the message format. -/
structure Features where
  sessions : Bool
  signing : Bool
  deriving DecidableEq, Repr

/-- What stands under `#[cfg(feature = ..)]`: a value when the feature is on, nothing when it is
off. -/
abbrev Cfg : Bool → Type → Type
  | true, α => α
  | false, _ => Unit

/-- The code under a feature, and what stands in its place when the feature is off. -/
def Cfg.elim {α : Type} {β : Type*} : {flag : Bool} → Cfg flag α → (α → β) → β → β
  | true, value, on, _ => on value
  | false, _, _, off => off

def messageFormatVersion : MessageFormat := 0

def messageFeatureFlags (f : Features) : MessageFlags :=
  let sessionFlag := BitVec.ofBool f.sessions |>.setWidth 8
  let signingFlag := BitVec.ofBool f.signing |>.setWidth 8
  sessionFlag ||| (signingFlag <<< 1)

/-- `MESSAGE_SIZE_LIMIT`, `2 << 32`. -/
def messageSizeLimit : ℕ := 2 <<< 32

/-! ## Hashes and signatures -/

def hashSize : ℕ := 32
def signatureSize : ℕ := 64

abbrev Hash := Chunk hashSize
abbrev Signature := Chunk signatureSize

/-- The bytes of an Ed25519 public key. -/
abbrev PublicKey := List Byte

/-- The PKCS#8 document an Ed25519 key pair is read from. -/
abbrev PrivateKey := List Byte

/-- What the crate takes from `ring`: SHA-256 and Ed25519. -/
structure Crypto where
  hash : List Byte → Hash
  sign : PrivateKey → List Byte → Signature
  verify : PublicKey → List Byte → List Byte → Bool

/-! ## Sending -/

/-- A pointer to readable memory, as the bytes from that address on. -/
abbrev ReadData := ℕ → Byte

/-- The memory that starts with the given bytes, such as the buffer of a `Vec`. -/
def ReadData.ofBytes (bytes : List Byte) : ReadData := fun i => bytes.getD i 0

/-- The slice of `size` bytes at the pointer (`usize` is 64 bit wide, so that its conversion from
`u64` cannot fail). -/
def Message.dataAsSlice (metadata : Message) (ptr : ReadData) : List Byte :=
  (List.range metadata.size.toNat).map ptr

@[simp] theorem Message.length_dataAsSlice (metadata : Message) (ptr : ReadData) :
    (metadata.dataAsSlice ptr).length = metadata.size.toNat := by
  simp [dataAsSlice]

theorem Message.dataAsSlice_ofBytes {metadata : Message} {bytes : List Byte}
    (h : metadata.size.toNat = bytes.length) :
    metadata.dataAsSlice (ReadData.ofBytes bytes) = bytes := by
  apply List.ext_getElem
  · simp [h]
  · intro i _ hi
    simp [dataAsSlice, ReadData.ofBytes, hi]

structure SendMessage where
  metadata : Message
  data : ReadData

variable {f : Features}

/-- The byte string that `write_to` signs. -/
def SendMessage.signedMetadata (c : Crypto) (session : Cfg f.sessions SessionID)
    (self : SendMessage) : List Byte :=
  let data := self.metadata.dataAsSlice self.data
  [ toLeBytes 1 messageFormatVersion,
    toLeBytes 1 (messageFeatureFlags f),
    self.metadata.kind.toLeBytes,
    toLeBytes 1 self.metadata.datatype,
    toLeBytes 2 self.metadata.sender,
    toLeBytes 2 self.metadata.receiver,
    toLeBytes 8 self.metadata.id,
    session.elim (toLeBytes 16) [],
    (c.hash data).1 ].flatten

/-- The bytes `write_to` puts on the stream, one `write_all` after the other. -/
def SendMessage.writeTo (c : Crypto) (session : Cfg f.sessions SessionID)
    (signingKey : Cfg f.signing PrivateKey) (self : SendMessage) : List Byte :=
  let data := self.metadata.dataAsSlice self.data
  toLeBytes 1 messageFormatVersion ++
    toLeBytes 1 (messageFeatureFlags f) ++
    self.metadata.kind.toLeBytes ++
    toLeBytes 1 self.metadata.datatype ++
    toLeBytes 2 self.metadata.sender ++
    toLeBytes 2 self.metadata.receiver ++
    toLeBytes 8 self.metadata.id ++
    session.elim (toLeBytes 16) [] ++
    data ++
    signingKey.elim (fun key => (c.sign key (self.signedMetadata c session)).1) []

/-! ## Receiving -/

inductive SignatureError where
  | signatureVerification
  | unknownSender
  deriving DecidableEq, Repr

/-- `ServerError`, the cases this code can return. `finishedEarly` is `ReadExact(FinishedEarly)`,
`readToEnd` a stream longer than the limit, `fromU8` is `FromPrimitive(FromU8)`. -/
inductive ServerError where
  | versionMismatch
  | featureMismatch
  | finishedEarly (length : ℕ)
  | readToEnd
  | fromU8 (value : BitVec 8)
  | sessionMismatch
  | signature (error : SignatureError)
  deriving DecidableEq, Repr

structure ReceiveMessage where
  metadata : Message
  data : OwnedData
  deriving DecidableEq

/-- `ReceiveMessage::new`: the size is the length of the data. -/
def ReceiveMessage.new (kind : MessageKind) (datatype : MessageDatatype) (sender receiver : PartyID)
    (id : MessageID) (data : OwnedData) : ReceiveMessage :=
  { metadata := ⟨kind, datatype, sender, receiver, id, BitVec.ofNat 64 data.length⟩, data := data }

/-- `split_first_chunk::<n>().ok_or(too_short(message))?` followed by `from_le_bytes`. -/
def readLeBytes (n : ℕ) (message : List Byte) :
    Except ServerError (BitVec (8 * n) × List Byte) :=
  match splitFirstChunk n message with
  | none => .error (.finishedEarly message.length)
  | some (bytes, rest) => .ok (fromLeBytes n bytes, rest)

/-- The message kind: its byte, then `try_from_le_bytes`. -/
def readKind (message : List Byte) : Except ServerError (MessageKind × List Byte) :=
  match splitFirstChunk 1 message with
  | none => .error (.finishedEarly message.length)
  | some (bytes, rest) =>
      match MessageKind.tryFromLeBytes bytes with
      | none => .error (.fromU8 (fromLeBytes 1 bytes))
      | some kind => .ok (kind, rest)

/-- The session ID, when the feature is on; it must be the own one. -/
def readSession (session : Cfg f.sessions SessionID) (message : List Byte) :
    Except ServerError (List Byte) :=
  session.elim
    (fun own => do
      let (messageSession, message) ← readLeBytes 16 message
      if messageSession ≠ own then .error .sessionMismatch else .ok message)
    (.ok message)

namespace ReceiveMessage

def buildFrom (session : Cfg f.sessions SessionID) (message : List Byte) :
    Except ServerError ReceiveMessage := do
  let (version, message) ← readLeBytes 1 message
  if version ≠ messageFormatVersion then .error .versionMismatch else
  let (flags, message) ← readLeBytes 1 message
  if flags ≠ messageFeatureFlags f then .error .featureMismatch else
  let (kind, message) ← readKind message
  let (datatype, message) ← readLeBytes 1 message
  let (sender, message) ← readLeBytes 2 message
  let (receiver, message) ← readLeBytes 2 message
  let (id, message) ← readLeBytes 8 message
  let data ← readSession session message
  .ok (ReceiveMessage.new kind datatype sender receiver id data)

/-- The byte string whose signature `read_from` verifies. -/
def signedMetadata (c : Crypto) (session : Cfg f.sessions SessionID) (result : ReceiveMessage) :
    List Byte :=
  [ toLeBytes 1 messageFormatVersion,
    toLeBytes 1 (messageFeatureFlags f),
    result.metadata.kind.toLeBytes,
    toLeBytes 1 result.metadata.datatype,
    toLeBytes 2 result.metadata.sender,
    toLeBytes 2 result.metadata.receiver,
    toLeBytes 8 result.metadata.id,
    session.elim (toLeBytes 16) [],
    (c.hash result.data).1 ].flatten

/-- The party whose key must verify the signature: a check message is signed by the party in its
`receiver` field. -/
def signer (result : ReceiveMessage) : PartyID :=
  if result.metadata.kind.isConsistencyCheck then result.metadata.receiver
  else result.metadata.sender

/-- `split_last_chunk::<SIGNATURE_SIZE>`, when signing is on. -/
def splitSignature : (signing : Bool) → (fullMessage : List Byte) →
    Except ServerError (List Byte × Cfg signing Signature)
  | true, fullMessage =>
      match splitLastChunk signatureSize fullMessage with
      | none => .error (.finishedEarly fullMessage.length)
      | some (message, signature) => .ok (message, signature)
  | false, fullMessage => .ok (fullMessage, ())

/-- The signature check of `read_from`, under the `signing` feature. -/
def verifySignature (c : Crypto) (session : Cfg f.sessions SessionID) (result : ReceiveMessage) :
    {signing : Bool} → Cfg signing (PartyID → Option PublicKey) → Cfg signing Signature →
      Except ServerError Unit
  | true, verificationKeys, signature =>
      match verificationKeys result.signer with
      | none => .error (.signature .unknownSender)
      | some key =>
          if c.verify key (result.signedMetadata c session) signature.1 then .ok ()
          else .error (.signature .signatureVerification)
  | false, _, _ => .ok ()

/-- `read_from` on a finished stream. The signature reaches the caller only under the
`collective-consistency` feature. -/
def readFrom (c : Crypto) (session : Cfg f.sessions SessionID)
    (verificationKeys : Cfg f.signing (PartyID → Option PublicKey)) (stream : List Byte) :
    Except ServerError (ReceiveMessage × Cfg f.signing Signature) := do
  if messageSizeLimit < stream.length then .error .readToEnd else
  let (message, signature) ← splitSignature f.signing stream
  let result ← buildFrom session message
  verifySignature c session result verificationKeys signature
  .ok (result, signature)

end ReceiveMessage

/-! ## The message format -/

/-- A message without its signature: the metadata in wire order, then the payload. -/
def layout (session : Cfg f.sessions SessionID) (kind : MessageKind) (datatype : MessageDatatype)
    (sender receiver : PartyID) (id : MessageID) (payload : List Byte) : List Byte :=
  toLeBytes 1 messageFormatVersion ++ (toLeBytes 1 (messageFeatureFlags f) ++
    (kind.toLeBytes ++ (toLeBytes 1 datatype ++ (toLeBytes 2 sender ++ (toLeBytes 2 receiver ++
      (toLeBytes 8 id ++ (session.elim (toLeBytes 16) [] ++ payload)))))))

theorem elim_session_length_eq (s t : Cfg f.sessions SessionID) :
    (s.elim (toLeBytes 16) []).length = (t.elim (toLeBytes 16) []).length := by
  obtain ⟨sessions, signing⟩ := f
  cases sessions with
  | false => rfl
  | true => exact (length_toLeBytes 16 s).trans (length_toLeBytes 16 t).symm

theorem elim_session_injective {s t : Cfg f.sessions SessionID}
    (h : s.elim (toLeBytes 16) [] = t.elim (toLeBytes 16) []) : s = t := by
  obtain ⟨sessions, signing⟩ := f
  cases sessions with
  | false => rfl
  | true => exact toLeBytes_injective 16 h

/-- **Every field of the format has a fixed width**, so the bytes determine the message: two
messages with the same bytes agree in every field, in the session and in the payload. -/
theorem layout_injective {session session' : Cfg f.sessions SessionID} {kind kind' : MessageKind}
    {datatype datatype' : MessageDatatype} {sender sender' receiver receiver' : PartyID}
    {id id' : MessageID} {payload payload' : List Byte}
    (h : layout session kind datatype sender receiver id payload =
      layout session' kind' datatype' sender' receiver' id' payload') :
    kind = kind' ∧ datatype = datatype' ∧ sender = sender' ∧ receiver = receiver' ∧ id = id' ∧
      session = session' ∧ payload = payload' := by
  simp only [layout] at h
  obtain ⟨-, h⟩ := List.append_inj h (by simp)
  obtain ⟨-, h⟩ := List.append_inj h (by simp)
  obtain ⟨hkind, h⟩ := List.append_inj h (by simp)
  obtain ⟨hdatatype, h⟩ := List.append_inj h (by simp)
  obtain ⟨hsender, h⟩ := List.append_inj h (by simp)
  obtain ⟨hreceiver, h⟩ := List.append_inj h (by simp)
  obtain ⟨hid, h⟩ := List.append_inj h (by simp)
  obtain ⟨hsession, hpayload⟩ := List.append_inj h (elim_session_length_eq _ _)
  exact ⟨MessageKind.toLeBytes_injective hkind, toLeBytes_injective 1 hdatatype,
    toLeBytes_injective 2 hsender, toLeBytes_injective 2 hreceiver, toLeBytes_injective 8 hid,
    elim_session_injective hsession, hpayload⟩

/-! ## Decoding, one field at a time

Each reader accepts exactly the strings that begin with the encoding of what it returns. -/

theorem bind_eq_ok_iff {ε : Type*} {α β : Type} {x : Except ε α} {g : α → Except ε β} {b : β} :
    (x >>= g) = .ok b ↔ ∃ a, x = .ok a ∧ g a = .ok b := by
  cases x with
  | error e => simp [bind, Except.bind]
  | ok a => simp [bind, Except.bind]

theorem readLeBytes_eq_ok_iff {n : ℕ} {message rest : List Byte} {x : BitVec (8 * n)} :
    readLeBytes n message = .ok (x, rest) ↔ message = toLeBytes n x ++ rest := by
  constructor
  · intro h
    unfold readLeBytes at h
    split at h
    · cases h
    · rename_i bytes rest' hsplit
      obtain ⟨rfl, rfl⟩ := Prod.mk.inj (Except.ok.inj h)
      rw [toLeBytes_fromLeBytes]
      exact splitFirstChunk_eq_some hsplit
  · rintro rfl
    have := splitFirstChunk_append ⟨toLeBytes n x, length_toLeBytes n x⟩ rest
    simp only [readLeBytes, this, fromLeBytes_toLeBytes]

theorem readKind_eq_ok_iff {message rest : List Byte} {kind : MessageKind} :
    readKind message = .ok (kind, rest) ↔ message = kind.toLeBytes ++ rest := by
  constructor
  · intro h
    unfold readKind at h
    split at h
    · cases h
    · rename_i bytes rest' hsplit
      split at h
      · cases h
      · rename_i kind' hkind
        obtain ⟨rfl, rfl⟩ := Prod.mk.inj (Except.ok.inj h)
        rw [MessageKind.toLeBytes, MessageKind.tryFrom_eq_some hkind, toLeBytes_fromLeBytes]
        exact splitFirstChunk_eq_some hsplit
  · rintro rfl
    have := splitFirstChunk_append ⟨kind.toLeBytes, kind.length_toLeBytes⟩ rest
    have hkind : MessageKind.tryFromLeBytes ⟨kind.toLeBytes, kind.length_toLeBytes⟩ =
        some kind := by
      cases kind <;> rfl
    simp only [readKind, this, hkind]

theorem readSession_eq_ok_iff {session : Cfg f.sessions SessionID} {message rest : List Byte} :
    readSession session message = .ok rest ↔
      message = session.elim (toLeBytes 16) [] ++ rest := by
  obtain ⟨sessions, signing⟩ := f
  cases sessions with
  | false => simp [readSession, Cfg.elim]
  | true =>
      simp only [readSession, Cfg.elim, bind_eq_ok_iff]
      constructor
      · rintro ⟨⟨own, rest'⟩, hread, h⟩
        split at h
        · cases h
        · rename_i hown
          rw [← not_not.mp hown, ← Except.ok.inj h]
          exact readLeBytes_eq_ok_iff.mp hread
      · intro h
        exact ⟨(session, rest), readLeBytes_eq_ok_iff.mpr h, by simp⟩

namespace ReceiveMessage

/-- **What `build_from` accepts.** Exactly the strings of the message format, and it returns the
fields that string was made of, with the length of the payload as the size. -/
theorem buildFrom_eq_ok_iff {session : Cfg f.sessions SessionID} {message : List Byte}
    {r : ReceiveMessage} :
    buildFrom session message = .ok r ↔
      message = layout session r.metadata.kind r.metadata.datatype r.metadata.sender
          r.metadata.receiver r.metadata.id r.data ∧
        r.metadata.size = BitVec.ofNat 64 r.data.length := by
  constructor
  · intro h
    -- one field after the other; version and features are compared on the way
    simp only [buildFrom, bind_eq_ok_iff, Prod.exists] at h
    obtain ⟨version, m₁, hversion, h⟩ := h
    split at h
    · cases h
    rename_i hv
    simp only [bind_eq_ok_iff, Prod.exists] at h
    obtain ⟨flags, m₂, hflags, h⟩ := h
    split at h
    · cases h
    rename_i hf
    simp only [bind_eq_ok_iff, Prod.exists] at h
    obtain ⟨kind, m₃, hkind, datatype, m₄, hdatatype, sender, m₅, hsender, receiver, m₆,
      hreceiver, id, m₇, hid, data, hsession, h⟩ := h
    rw [← Except.ok.inj h]
    refine ⟨?_, rfl⟩
    rw [readLeBytes_eq_ok_iff.mp hversion, readLeBytes_eq_ok_iff.mp hflags,
      readKind_eq_ok_iff.mp hkind, readLeBytes_eq_ok_iff.mp hdatatype,
      readLeBytes_eq_ok_iff.mp hsender, readLeBytes_eq_ok_iff.mp hreceiver,
      readLeBytes_eq_ok_iff.mp hid, readSession_eq_ok_iff.mp hsession, not_not.mp hv,
      not_not.mp hf]
    rfl
  · rintro ⟨rfl, hsize⟩
    have hle (n : ℕ) (x : BitVec (8 * n)) (rest : List Byte) :
        readLeBytes n (toLeBytes n x ++ rest) = .ok (x, rest) := readLeBytes_eq_ok_iff.mpr rfl
    have hkind (kind : MessageKind) (rest : List Byte) :
        readKind (kind.toLeBytes ++ rest) = .ok (kind, rest) := readKind_eq_ok_iff.mpr rfl
    have hsession : readSession session (session.elim (toLeBytes 16) [] ++ r.data) =
        .ok r.data := readSession_eq_ok_iff.mpr rfl
    simp only [buildFrom, layout, hle, hkind, hsession, bind, Except.bind, ne_eq,
      not_true_eq_false, if_false, ReceiveMessage.new]
    rw [← hsize]

theorem splitSignature_eq_ok_iff {signing : Bool} {fullMessage message : List Byte}
    {signature : Cfg signing Signature} :
    splitSignature signing fullMessage = .ok (message, signature) ↔
      fullMessage = message ++ signature.elim (fun s => s.1) [] := by
  cases signing with
  | false => simp [splitSignature, Cfg.elim]
  | true =>
      simp only [splitSignature, Cfg.elim]
      constructor
      · intro h
        split at h
        · cases h
        · rename_i front chunk hsplit
          obtain ⟨rfl, rfl⟩ := Prod.mk.inj (Except.ok.inj h)
          exact splitLastChunk_eq_some hsplit
      · rintro rfl
        rw [splitLastChunk_append]

/-- The message as its sender held it: the same metadata, the payload in memory. -/
def toSend (r : ReceiveMessage) : SendMessage := ⟨r.metadata, ReadData.ofBytes r.data⟩

theorem signedMetadata_eq_layout (c : Crypto) (session : Cfg f.sessions SessionID)
    (r : ReceiveMessage) :
    r.signedMetadata c session = layout session r.metadata.kind r.metadata.datatype
      r.metadata.sender r.metadata.receiver r.metadata.id (c.hash r.data).1 := by
  simp [signedMetadata, layout]

end ReceiveMessage

namespace SendMessage

theorem signedMetadata_eq_layout (c : Crypto) (session : Cfg f.sessions SessionID)
    (m : SendMessage) :
    m.signedMetadata c session = layout session m.metadata.kind m.metadata.datatype
      m.metadata.sender m.metadata.receiver m.metadata.id
      (c.hash (m.metadata.dataAsSlice m.data)).1 := by
  simp [signedMetadata, layout]

/-- The signature `write_to` appends. -/
def signature (c : Crypto) (session : Cfg f.sessions SessionID) (m : SendMessage) :
    {signing : Bool} → Cfg signing PrivateKey → Cfg signing Signature
  | true, key => c.sign key (m.signedMetadata c session)
  | false, _ => ()

theorem writeTo_eq_layout (c : Crypto) (session : Cfg f.sessions SessionID)
    (key : Cfg f.signing PrivateKey) (m : SendMessage) :
    m.writeTo c session key = layout session m.metadata.kind m.metadata.datatype m.metadata.sender
      m.metadata.receiver m.metadata.id (m.metadata.dataAsSlice m.data) ++
        (m.signature c session key).elim (fun s => s.1) [] := by
  have hsignature : key.elim (fun key => (c.sign key (m.signedMetadata c session)).1) [] =
      (m.signature c session key).elim (fun s => s.1) [] := by
    obtain ⟨sessions, signing⟩ := f
    cases signing <;> rfl
  simp [writeTo, layout, hsignature]

/-- What `read_from` has left after splitting off the signature of a written message. -/
theorem splitSignature_writeTo (c : Crypto) (session : Cfg f.sessions SessionID)
    (key : Cfg f.signing PrivateKey) (m : SendMessage) :
    ReceiveMessage.splitSignature f.signing (m.writeTo c session key) =
      .ok (layout session m.metadata.kind m.metadata.datatype m.metadata.sender
        m.metadata.receiver m.metadata.id (m.metadata.dataAsSlice m.data),
        m.signature c session key) :=
  ReceiveMessage.splitSignature_eq_ok_iff.mpr (writeTo_eq_layout c session key m)

end SendMessage

/-! ## Recorded values of the cryptographic functions

A `Crypto` that answers from a table. The table holds true SHA-256 and Ed25519 values for the
messages of one small session: parties 0, 1 and 2, session 5, message 7 of datatype 6. -/

def bytesOf (n x : ℕ) : Chunk n := ⟨Limbs.ofValue n x, Limbs.length_ofValue n x⟩

/-- An Ed25519 signature, from its two halves. -/
def ed25519 (r s : ℕ) : Signature :=
  ⟨(bytesOf 32 r).1 ++ (bytesOf 32 s).1, by simp [bytesOf, signatureSize]⟩

def Crypto.ofTable (digests : List (List Byte × Hash))
    (signatures : List (PrivateKey × PublicKey × List Byte × Signature)) : Crypto where
  hash data := (digests.lookup data).getD (bytesOf hashSize 0)
  sign key message :=
    match signatures.find? fun entry => entry.1 == key && entry.2.2.1 == message with
    | some entry => entry.2.2.2
    | none => bytesOf signatureSize 0
  verify key message signature :=
    signatures.any fun entry =>
      entry.2.1 == key && entry.2.2.1 == message && entry.2.2.2.1 == signature

namespace Recorded

abbrev features : Features := ⟨true, true⟩
def session : Cfg features.sessions SessionID := (5 : SessionID)

def publicKey : PartyID → Option PublicKey
  | 0 => some (bytesOf 32 0x5c6f0fb4018874f31b12941dbf0967ca725dba3c2ddb52fd95f10974dde3888a).1
  | 1 => some (bytesOf 32 0x94b3c98f5b0ff65da237eeb4918a8dcbcc7e4cc36654a3565f177da80e773981).1
  | 2 => some (bytesOf 32 0xd13787ac1446c13636f9635c3a275929619559903803e9eac6c2d128c62849ed).1
  | _ => none

/-- `ring`'s PKCS#8 document: a prefix, the seed (party `i` uses the byte `i + 1` throughout), a
separator and the public key. -/
def privateKey (party : PartyID) : PrivateKey :=
  (bytesOf 16 0x20042204706b65032b0530060101025330).1 ++
    List.replicate 32 ((party + 1).setWidth 8) ++ (bytesOf 5 0x00210323a1).1 ++
    (publicKey party).getD []

def payload : List Byte := [1, 2, 3]
def otherPayload : List Byte := [4, 5, 6]

def hashOfPayload : Hash :=
  bytesOf 32 0x81fb1c01a2a1847d28d5ceccab780fcc77ef144d0a3b532c49cbc0f2c6589003

def hashOfOther : Hash :=
  bytesOf 32 0x7234a85d006bbbe3832a20d00fe1b2367ad80c6dae5b351019bca5398e797c78

/-- The sender's signature of the message to party 1 with `payload`. -/
def signatureTo1 : Signature := ed25519
  0xa0f8198512f383e1a4495e2fc2e632393833970f657e10fbc73229d7eeec6644
  0x70da214fc4417ac32f97299bbf4db49fbb02cc84e6446ce007aa2cf821bad15

/-- The sender's signature of the message to party 1 with `otherPayload`. -/
def otherSignatureTo1 : Signature := ed25519
  0x8411c4265a4b696346c69c38b2f971da1482f0813f38993be339c522e0a3714
  0x5f93e0b85048f53aa36daa1eacfb1d975b2623be78b825777257c1f8f726a4

/-- The sender's signature of the message to party 2 with `payload`. -/
def signatureTo2 : Signature := ed25519
  0xc1f377ef94a7fbb40282e519ea0b633d91ac8364965face3f73022ee19cae771
  0x65c5844dc13ef38706280d94954396bc0fcce29791e9f88819d4cf5ec935f91

/-- The string signed for a message of this session whose payload has the given hash. -/
def signedBytes (kind : MessageKind) (receiver : PartyID) (hash : Hash) : List Byte :=
  layout session kind 6 0 receiver 7 hash.1

def signedBy (party : PartyID) (kind : MessageKind) (receiver : PartyID) (hash : Hash)
    (signature : Signature) : PrivateKey × PublicKey × List Byte × Signature :=
  (privateKey party, (publicKey party).getD [], signedBytes kind receiver hash, signature)

def crypto : Crypto :=
  let hashOfCheck1 := bytesOf 32 0xe66f8a353ad2f2e9982b4f2f480105e772c9d77f5f18f2df5ca43aecb0b6b72c
  let hashOfCheck2 := bytesOf 32 0xf9804b1be6d2fe39b8376b5544b849b014b96f963abaddacf5c768b3de605bb3
  Crypto.ofTable
    [ (payload, hashOfPayload),
      (otherPayload, hashOfOther),
      (hashOfPayload.1 ++ signatureTo1.1, hashOfCheck1),
      (hashOfPayload.1 ++ signatureTo2.1, hashOfCheck2) ]
    [ signedBy 0 .broadcast 1 hashOfPayload signatureTo1,
      signedBy 0 .broadcast 1 hashOfOther otherSignatureTo1,
      signedBy 0 .broadcast 2 hashOfPayload signatureTo2,
      signedBy 1 .consistencyCheckBroadcast 1 hashOfCheck1 (ed25519
        0x24e0258b4bb47c25d48cfacbb0dd1f1dfc405abc70d254ae01214fe7bcc3d597
        0xe515c47fc6c79b446b815cedee74c0a336146f276172c5b68e17bdd7eb3345a),
      signedBy 2 .consistencyCheckBroadcast 2 hashOfCheck2 (ed25519
        0xf98c8903de09d0248a078aff0fbaf495ae83c812ebfe829c9756d17f09204dda
        0x152da7a85b87a54675cb86c1f8aa943a54828c188a32c65c0bc0e8f908758bd),
      signedBy 1 .consistencyCheckBroadcast 1 hashOfCheck2 (ed25519
        0x7a882d11bc6dfc777f0d3c552794e1a288fcfab60cb74fe93ab9dcb7f5002676
        0xc1cb8ced6b4943a4695386143136ed67a2dede78cd4103bb4e34cd79d5a73c5) ]

end Recorded

/-! ## The round trip -/

/-- **Wire format round trip.** For every feature combination: what `build_from` makes of the
bytes of a written message, its signature split off, is that message again, and a string that
`build_from` accepts (no longer than the address space) is the one `write_to` produces for the
decoded message; so no two strings decode to the same message. -/
theorem wire_round_trip (c : Crypto) (f : Features) (session : Cfg f.sessions SessionID)
    (key : Cfg f.signing PrivateKey) :
    (∀ m : SendMessage, ∃ message signature r,
      ReceiveMessage.splitSignature f.signing (m.writeTo c session key) =
          .ok (message, signature) ∧
        ReceiveMessage.buildFrom session message = .ok r ∧
        r.metadata = m.metadata ∧ r.data = m.metadata.dataAsSlice m.data ∧
        r.metadata.size.toNat = r.data.length) ∧
    (∀ message r, message.length < 2 ^ 64 → ReceiveMessage.buildFrom session message = .ok r →
      r.metadata.size.toNat = r.data.length ∧
      ∃ signature, ReceiveMessage.splitSignature f.signing (r.toSend.writeTo c session key) =
        .ok (message, signature)) ∧
    (∀ message message' r, ReceiveMessage.buildFrom session message = .ok r →
      ReceiveMessage.buildFrom session message' = .ok r → message = message') := by
  refine ⟨?_, ?_, ?_⟩
  · intro m
    refine ⟨_, _, ⟨m.metadata, m.metadata.dataAsSlice m.data⟩,
      m.splitSignature_writeTo c session key, ?_, rfl, rfl, by simp⟩
    exact ReceiveMessage.buildFrom_eq_ok_iff.mpr ⟨rfl, by simp⟩
  · intro message r hlen h
    obtain ⟨rfl, hsize⟩ := ReceiveMessage.buildFrom_eq_ok_iff.mp h
    -- the size field holds the length, as the string is shorter than the address space
    have hdata : r.metadata.size.toNat = r.data.length := by
      have : r.data.length < 2 ^ 64 := by
        simp only [layout, List.length_append] at hlen
        omega
      rw [hsize, BitVec.toNat_ofNat, Nat.mod_eq_of_lt this]
    refine ⟨hdata, r.toSend.signature c session key, ?_⟩
    have := r.toSend.splitSignature_writeTo c session key
    rwa [show r.toSend.metadata.dataAsSlice r.toSend.data = r.data from
      Message.dataAsSlice_ofBytes hdata] at this
  · intro message message' r h h'
    rw [(ReceiveMessage.buildFrom_eq_ok_iff.mp h).1, (ReceiveMessage.buildFrom_eq_ok_iff.mp h').1]

/-- The broadcast of the recorded session to party 1, as party 1 decodes it. -/
def Recorded.broadcastTo1 : ReceiveMessage := ReceiveMessage.new .broadcast 6 0 1 7 Recorded.payload

/-- Its bytes, with both features on, come back from `write_to`. -/
theorem wire_round_trip_recorded :
    let message := layout Recorded.session .broadcast 6 0 1 7 Recorded.payload
    (∃ signature, ReceiveMessage.splitSignature true
      (Recorded.broadcastTo1.toSend.writeTo Recorded.crypto Recorded.session
        (Recorded.privateKey 0)) = .ok (message, signature)) ∧
      ∀ message', ReceiveMessage.buildFrom Recorded.session message' =
        .ok Recorded.broadcastTo1 → message' = message := by
  have hread : ReceiveMessage.buildFrom Recorded.session
      (layout Recorded.session .broadcast 6 0 1 7 Recorded.payload) =
        .ok Recorded.broadcastTo1 := rfl
  obtain ⟨-, hback, hinj⟩ := wire_round_trip Recorded.crypto Recorded.features Recorded.session
    (Recorded.privateKey 0)
  exact ⟨(hback _ _ (by decide) hread).2, fun message' h => hinj _ _ _ h hread⟩

end Hmpc.Net
