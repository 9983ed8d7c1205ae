import StryiChain.Core.Block
import StryiChain.Core.HashText
import StryiChain.Misc.Base64

/-!
# Transactions and genesis states as bytes

What `postcard` writes for the data that the source derives `Serialize` for: the fields in their
order, numbers as varints and an alternative behind its index. Hashes and signatures are texts
(`hash.rs:131-181`, `signature.rs:40-84`).
-/

namespace StryiChain

variable [Primitives]

/-- `Serialize` and `Deserialize` of `Hash<K>` (`hash.rs:131-181`). -/
def hashCodec (kind : HashKind) : Codec (Hash kind) :=
  Codec.text.imap Hash.display (fun s => (Hash.fromHashString kind s).toOption) fun hash => by
    rw [Hash.fromHashString_display]
    rfl

/-- The text of a signature (`signature.rs:45-46`). -/
def StryiSignature.encoded (signature : StryiSignature) : String :=
  String.ofList (base64Encode (beBytes 65 signature.bytes.toNat))

/-- `StryiSignatureVisitor::visit_str` (`signature.rs:59-73`), without the texts of its errors. -/
def StryiSignature.visitStr (v : String) : Option StryiSignature := do
  let decoded ← base64Decode v.toList
  if decoded.length = 65 then
    some ⟨BitVec.ofNat 520 (Nat.ofDigits 256 (decoded.reverse.map UInt8.toNat))⟩
  else
    none

theorem StryiSignature.visitStr_encoded (signature : StryiSignature) :
    visitStr signature.encoded = some signature := by
  have fits : signature.bytes.toNat < (2 ^ 8) ^ 65 := by
    have bits : 520 ≤ 8 * 65 := by decide
    rw [← Nat.pow_mul]
    exact BitVec.toNat_lt_twoPow_of_le bits
  rw [visitStr, encoded, String.toList_ofList, base64Decode_encode, Option.bind_eq_bind,
    Option.bind_some, if_pos (length_beBytes 65 _), beBytes, List.reverse_reverse,
    ofDigits_leBytes fits, BitVec.ofNat_toNat, BitVec.setWidth_eq]

/-- `Serialize` and `Deserialize` of `StryiSignature`. -/
def signatureCodec : Codec StryiSignature :=
  Codec.text.imap StryiSignature.encoded StryiSignature.visitStr StryiSignature.visitStr_encoded

/-- `OutPoint`. -/
def outPointCodec : Codec OutPoint :=
  ((hashCodec .transaction).pair Codec.u32).imap (fun outpoint => (outpoint.txid, outpoint.vout))
    (fun fields => some ⟨fields.1, fields.2⟩) fun _ => rfl

/-- `TransactionIn`. -/
def transactionInCodec : Codec TransactionIn :=
  (outPointCodec.pair Codec.u32).imap (fun input => (input.previousOutput, input.sequence))
    (fun fields => some ⟨fields.1, fields.2⟩) fun _ => rfl

/-- `TransactionOut`. -/
def transactionOutCodec : Codec TransactionOut :=
  (Codec.u64.pair (hashCodec .address)).imap (fun output => (output.value, output.recipient))
    (fun fields => some ⟨fields.1, fields.2⟩) fun _ => rfl

/-- `TransactionKind`. -/
def transactionKindCodec : Codec TransactionKind where
  encode
    | .coinbase height parent =>
        Codec.u32.encode 0 ++ (Codec.u64.pair (hashCodec .block)).encode (height, parent)
    | .genesis => Codec.u32.encode 1
    | .payment => Codec.u32.encode 2
  decode bytes := do
    let (index, rest) ← Codec.u32.decode bytes
    if index = 0 then
      let ((height, parent), rest) ← (Codec.u64.pair (hashCodec .block)).decode rest
      some (.coinbase height parent, rest)
    else if index = 1 then
      some (.genesis, rest)
    else if index = 2 then
      some (.payment, rest)
    else
      none
  decode_encode := by
    intro kind rest
    cases kind with
    | coinbase height parent =>
      dsimp only
      rw [List.append_assoc, Codec.decode_encode, Option.bind_eq_bind, Option.bind_some]
      dsimp only
      rw [if_pos rfl, Codec.decode_encode, Option.bind_eq_bind, Option.bind_some]
    | genesis =>
      dsimp only
      rw [Codec.decode_encode, Option.bind_eq_bind, Option.bind_some]
      rfl
    | payment =>
      dsimp only
      rw [Codec.decode_encode, Option.bind_eq_bind, Option.bind_some]
      rfl

/-- `TransactionData`. -/
def transactionDataCodec : Codec TransactionData :=
  ((Codec.u16.pair transactionKindCodec).pair
      (transactionInCodec.vector.pair transactionOutCodec.vector)).imap
    (fun data => ((data.version, data.kind), data.inputs, data.outputs))
    (fun fields => some ⟨fields.1.1, fields.1.2, fields.2.1, fields.2.2⟩) fun _ => rfl

/-- `Transaction`. -/
def transactionCodec : Codec Transaction :=
  (transactionDataCodec.pair signatureCodec).imap (fun tx => (tx.data, tx.signature))
    (fun fields => some ⟨fields.1, fields.2⟩) fun _ => rfl

/-- `BlockData`. -/
def blockDataCodec : Codec BlockData :=
  transactionCodec.vector.imap BlockData.transactions (fun transactions => some ⟨transactions⟩)
    fun _ => rfl

/-- A `HashThreshold`: its 32 bytes, without a length. -/
def thresholdCodec : Codec HashThreshold :=
  (Codec.raw 32).imap (fun threshold => ⟨thresholdToBytes threshold, length_leBytes 32 _⟩)
    (fun bytes => (thresholdFromBytes bytes.1).toOption) fun threshold => by
      dsimp only
      rw [thresholdFromBytes_toBytes]
      rfl

/-- `PowParams`. -/
def powParamsCodec : Codec PowParams :=
  ((Codec.u32.pair Codec.u32).pair (thresholdCodec.pair thresholdCodec)).imap
    (fun pow => ((pow.targetSpacingSecs, pow.halfLifeSecs), pow.initialHashThreshold,
      pow.maxHashThreshold))
    (fun fields => some ⟨fields.1.1, fields.1.2, fields.2.1, fields.2.2⟩)
    fun _ => rfl

/-- `ConsensusConsts`. -/
def consensusConstsCodec : Codec ConsensusConsts :=
  ((powParamsCodec.pair Codec.u64).pair (Codec.u64.pair Codec.u64)).imap
    (fun consts => ((consts.pow, consts.initialSubsidy), consts.decayInterval, consts.decayStep))
    (fun fields => some ⟨fields.1.1, fields.1.2, fields.2.1, fields.2.2⟩) fun _ => rfl

/-- `GenesisState`. -/
def genesisStateCodec : Codec GenesisState :=
  consensusConstsCodec.imap GenesisState.consensusConsts (fun consts => some ⟨consts⟩) fun _ => rfl

section Size

/-- A hash takes its prefix, two digits for each byte and one byte for the length. -/
theorem size_hashCodec {kind : HashKind} (hash : Hash kind) :
    (hashCodec kind).size hash = (utf8 kind.tag).length + kind.size * 2 + 1 := by
  have length : (utf8 hash.display).length = (utf8 kind.tag).length + kind.size * 2 := by
    rw [Hash.utf8_display, List.length_append, length_digitBytes, Hash.length_bytes]
  have small : (utf8 kind.tag).length + kind.size * 2 < 128 := by
    cases kind <;> decide
  rw [hashCodec, Codec.size_imap, Codec.size_text, length, Codec.length_lengthBytes_eq_one small,
    Nat.add_comm]

/-- A signature takes 88 characters and one byte for the length. -/
theorem size_signatureCodec (signature : StryiSignature) : signatureCodec.size signature = 89 := by
  have length : (utf8 signature.encoded).length = 88 := by
    rw [StryiSignature.encoded, utf8_ofList (base64Encode_ascii _), List.length_map,
      length_base64Encode, length_beBytes]
  rw [signatureCodec, Codec.size_imap, Codec.size_text, length,
    Codec.length_lengthBytes_eq_one (by decide)]

theorem size_transactionInCodec (input : TransactionIn) :
    transactionInCodec.size input =
      67 + Codec.u32.size input.previousOutput.vout + Codec.u32.size input.sequence := by
  rw [transactionInCodec, Codec.size_imap, Codec.size_pair, outPointCodec, Codec.size_imap,
    Codec.size_pair, size_hashCodec]
  rfl

theorem size_transactionOutCodec (output : TransactionOut) :
    transactionOutCodec.size output = Codec.u64.size output.value + 42 := by
  rw [transactionOutCodec, Codec.size_imap, Codec.size_pair, size_hashCodec]
  rfl

theorem size_transactionCodec (tx : Transaction) :
    transactionCodec.size tx =
      Codec.u16.size tx.data.version + transactionKindCodec.size tx.data.kind +
        transactionInCodec.vector.size tx.data.inputs +
        transactionOutCodec.vector.size tx.data.outputs + 89 := by
  rw [transactionCodec, Codec.size_imap, Codec.size_pair, size_signatureCodec, transactionDataCodec,
    Codec.size_imap, Codec.size_pair, Codec.size_pair, Codec.size_pair, ← Nat.add_assoc]

end Size

end StryiChain
