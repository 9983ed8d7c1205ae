import StryiChain.Misc.Codec
import StryiChain.Misc.Fallible

/-!
# Signed service advertisements (`stryi_network/src/services.rs`)

A peer signs what it offers in an envelope that names its own identity, and whoever receives the
envelope checks both against the key of that peer.
-/

namespace StryiChain

/-- What the network layer takes from libp2p: identities, addresses, signed envelopes, the bytes that
`postcard` writes for them and the text of its errors. -/
class Networking where
  PeerId : Type
  Multiaddr : Type
  PublicKey : Type
  Ed25519Key : Type
  Keypair : Type
  SignedEnvelope : Type
  decPeerId : DecidableEq PeerId
  decMultiaddr : DecidableEq Multiaddr
  decPublicKey : DecidableEq PublicKey
  decEd25519Key : DecidableEq Ed25519Key
  peerIdCodec : Codec PeerId
  multiaddrCodec : Codec Multiaddr
  /-- The message of `postcard::from_bytes` on bytes that it refuses. -/
  postcardError : List UInt8 → String
  /-- `Multiaddr::empty`. -/
  emptyMultiaddr : Multiaddr
  /-- `PeerId::from_public_key`. -/
  fromPublicKey : PublicKey → PeerId
  /-- `PublicKey::try_into_ed25519`. -/
  tryIntoEd25519 : PublicKey → Option Ed25519Key
  /-- `PublicKey::from` an ed25519 key. -/
  ofEd25519 : Ed25519Key → PublicKey
  /-- `ed25519::Keypair::public`. -/
  publicOf : Keypair → Ed25519Key
  /-- `SignedEnvelope::new` with a domain, a payload type and a payload. -/
  signEnvelope : Keypair → String → List UInt8 → List UInt8 → Except String SignedEnvelope
  /-- `SignedEnvelope::payload_and_signing_key`. -/
  payloadAndSigningKey : SignedEnvelope → String → List UInt8 →
    Except String (List UInt8 × PublicKey)

open Networking

instance [Networking] : DecidableEq PeerId := decPeerId

instance [Networking] : DecidableEq Multiaddr := decMultiaddr

instance [Networking] : DecidableEq PublicKey := decPublicKey

instance [Networking] : DecidableEq Ed25519Key := decEd25519Key

/-- What libp2p promises: an envelope opens for what was signed, an ed25519 key is found in the
generic one that it was put in, and the identity of a peer is that of one such key. -/
class LawfulNetworking [Networking] : Prop where
  payloadAndSigningKey_signEnvelope {keypair : Keypair} {domain : String}
    {kind payload : List UInt8} {envelope : SignedEnvelope}
    (signed : signEnvelope keypair domain kind payload = .ok envelope) :
    payloadAndSigningKey envelope domain kind = .ok (payload, ofEd25519 (publicOf keypair))
  tryIntoEd25519_eq_some {key : PublicKey} {pk : Ed25519Key} :
    tryIntoEd25519 key = some pk ↔ key = ofEd25519 pk
  fromPublicKey_injective : Function.Injective fun pk : Ed25519Key => fromPublicKey (ofEd25519 pk)

/-- The errors of `gossipsub.publish`. -/
inductive PublishError where
  | noPeersSubscribedToTopic
  | refused (reason : String)
  deriving DecidableEq

/-- `StryiNetworkError` (`error.rs:7-58`), the variants that the running manager answers with. -/
inductive StryiNetworkError where
  | gossipsubPublish (error : PublishError)
  | signingError (reason : String)
  | other (message : String)
  deriving DecidableEq

/-- `ServiceTransportSecurity` (`services.rs:25-33`). -/
inductive ServiceTransportSecurity where
  | none
  | tlsServerCert (certPem : String)
  deriving DecidableEq

variable [Serializer]

/-- `ServiceTransportSecurity` as `postcard` writes it. -/
def transportSecurityCodec : Codec ServiceTransportSecurity where
  encode
    | .none => Codec.u32.encode 0
    | .tlsServerCert certPem => Codec.u32.encode 1 ++ Codec.text.encode certPem
  decode bytes := do
    let (index, rest) ← Codec.u32.decode bytes
    if index = 0 then
      some (.none, rest)
    else if index = 1 then
      let (certPem, rest) ← Codec.text.decode rest
      some (.tlsServerCert certPem, rest)
    else
      Option.none
  decode_encode := by
    intro security rest
    cases security with
    | none =>
      dsimp only
      rw [Codec.decode_encode, Option.bind_eq_bind, Option.bind_some]
      rfl
    | tlsServerCert certPem =>
      dsimp only
      rw [List.append_assoc, Codec.decode_encode, Option.bind_eq_bind, Option.bind_some]
      dsimp only
      rw [if_neg (by decide), if_pos rfl, Codec.decode_encode, Option.bind_eq_bind,
        Option.bind_some]

section Records

variable [Networking]

/-- `ServiceRecord` (`services.rs:36-52`). -/
structure ServiceRecord where
  address : Multiaddr
  owner : PeerId
  kind : String
  version : UInt32
  transportSecurity : ServiceTransportSecurity
  deriving DecidableEq

/-- `ServiceRecord` as `postcard` writes it. -/
def serviceRecordCodec : Codec ServiceRecord :=
  ((multiaddrCodec.pair peerIdCodec).pair
      (Codec.text.pair (Codec.u32.pair transportSecurityCodec))).imap
    (fun record => ((record.address, record.owner), record.kind, record.version,
      record.transportSecurity))
    (fun fields => some ⟨fields.1.1, fields.1.2, fields.2.1, fields.2.2.1, fields.2.2.2⟩)
    fun _ => rfl

/-- `SIGNED_SERVICE_RECORD_DOMAIN` (`services.rs:92`). -/
def signedServiceRecordDomain : String := "stryichain.service"

/-- `SIGNED_SERVICE_PAYLOAD_TYPE` (`services.rs:93`). -/
def signedServicePayloadType : List UInt8 := 0x71 :: utf8 "stryichain/service"

/-- `SignedServiceRecord` (`services.rs:96-99`). -/
structure SignedServiceRecord where
  inner : SignedEnvelope

namespace SignedServiceRecord

/-- `sign` (`services.rs:102-122`). -/
def sign (peerKeypair : Keypair) (serviceRecord : ServiceRecord) :
    Except StryiNetworkError SignedServiceRecord :=
  match signEnvelope peerKeypair signedServiceRecordDomain signedServicePayloadType
      (serviceRecordCodec.encode serviceRecord) with
  | .ok envelope => .ok ⟨envelope⟩
  | .error reason => .error (.signingError reason)

/-- `payload_and_signing_key` of the envelope, as `verify_and_decode` asks for it. -/
def opened (signed : SignedServiceRecord) : Except String (List UInt8 × PublicKey) :=
  payloadAndSigningKey signed.inner signedServiceRecordDomain signedServicePayloadType

/-- `verify_and_decode` (`services.rs:125-151`). -/
def verifyAndDecode (signed : SignedServiceRecord) (expectedPk : Ed25519Key) :
    Except StryiNetworkError ServiceRecord := do
  let (payload, signingKey) ←
    signed.opened.mapError fun reason => .other s!"read payload: {reason}"
  failIf (tryIntoEd25519 signingKey ≠ some expectedPk) (.other "signing key mismatch")
  let record ← okOr (serviceRecordCodec.fromBytes payload) (.other (postcardError payload))
  failIf (record.owner ≠ fromPublicKey (ofEd25519 expectedPk)) (.other "owner PeerId mismatch")
  return record

end SignedServiceRecord

/-- `filter_verified_records` (`services.rs:155-170`). -/
def filterVerifiedRecords (signed : List SignedServiceRecord) (peerPk : Ed25519Key) :
    List ServiceRecord :=
  signed.filterMap fun record => (record.verifyAndDecode peerPk).toOption

/-- `ServicesInfoRequest` (`services.rs:14-18`). -/
inductive ServicesInfoRequest where
  | listServices
  | pushServices (services : List SignedServiceRecord)

end Records

section Verification

variable [Networking] {signed : SignedServiceRecord} {pk : Ed25519Key} {keypair : Keypair}
  {record : ServiceRecord}

/-- The envelope opens under the key. -/
def SignedServiceRecord.OpensFor (signed : SignedServiceRecord) (pk : Ed25519Key) : Prop :=
  ∃ payload key, signed.opened = .ok (payload, key) ∧ tryIntoEd25519 key = some pk

/-- A record is accepted exactly when the envelope was signed with the expected key, spells the
record and the record names that key as its owner. -/
theorem verifyAndDecode_eq_ok : signed.verifyAndDecode pk = .ok record ↔
    ∃ payload key, signed.opened = .ok (payload, key) ∧ tryIntoEd25519 key = some pk ∧
      serviceRecordCodec.fromBytes payload = some record ∧
      record.owner = fromPublicKey (ofEd25519 pk) := by
  rw [SignedServiceRecord.verifyAndDecode]
  cases opened : signed.opened with
  | error reason => simp [Except.mapError]
  | ok answer =>
    obtain ⟨payload, key⟩ := answer
    simp only [Except.mapError, bind_eq_ok, failIf_eq_ok, okOr_eq_ok, Except.ok.injEq,
      Prod.mk.injEq]
    constructor
    · intro accepted
      obtain ⟨_, rfl, _, keyed, found, decoded, _, owned, same⟩ := accepted
      cases same
      exact ⟨payload, key, ⟨rfl, rfl⟩, not_not.mp keyed, decoded, not_not.mp owned⟩
    · intro accepted
      obtain ⟨_, _, ⟨rfl, rfl⟩, keyed, decoded, owned⟩ := accepted
      exact ⟨_, rfl, ⟨⟩, not_not.mpr keyed, record, decoded, ⟨⟩, not_not.mpr owned, rfl⟩

theorem mem_filterVerifiedRecords {l : List SignedServiceRecord} :
    record ∈ filterVerifiedRecords l pk ↔ ∃ signed ∈ l, signed.verifyAndDecode pk = .ok record := by
  simp only [filterVerifiedRecords, List.mem_filterMap, toOption_eq_some]

variable [LawfulNetworking]

theorem opened_sign (made : SignedServiceRecord.sign keypair record = .ok signed) :
    signed.opened = .ok (serviceRecordCodec.encode record, ofEd25519 (publicOf keypair)) := by
  rw [SignedServiceRecord.sign] at made
  cases sealed : signEnvelope keypair signedServiceRecordDomain signedServicePayloadType
      (serviceRecordCodec.encode record) with
  | error reason =>
    rw [sealed] at made
    cases made
  | ok envelope =>
    rw [sealed] at made
    cases made
    exact LawfulNetworking.payloadAndSigningKey_signEnvelope sealed

/-- What was signed is accepted under the key of the signer when it names the signer, and under no
other key. -/
theorem verifyAndDecode_sign (made : SignedServiceRecord.sign keypair record = .ok signed)
    {other : ServiceRecord} :
    signed.verifyAndDecode pk = .ok other ↔
      pk = publicOf keypair ∧ other = record ∧ record.owner = fromPublicKey (ofEd25519 pk) := by
  have opens := opened_sign made
  rw [verifyAndDecode_eq_ok]
  constructor
  · intro accepted
    obtain ⟨payload, key, opened, keyed, decoded, owned⟩ := accepted
    rw [opens] at opened
    cases opened
    rw [LawfulNetworking.tryIntoEd25519_eq_some.mpr rfl] at keyed
    cases keyed
    rw [Codec.fromBytes_encode] at decoded
    cases decoded
    exact ⟨rfl, rfl, owned⟩
  · intro named
    obtain ⟨rfl, rfl, owned⟩ := named
    exact ⟨_, _, opens, LawfulNetworking.tryIntoEd25519_eq_some.mpr rfl,
      Codec.fromBytes_encode _ _, owned⟩

end Verification

end StryiChain
