import StryiChain.Core.Postcard
import StryiChain.Storage.Addresses

/-!
# Keys and values of the column families (`stryi_storage/TABLES.md`)

The keys are byte strings of a fixed width. The values are what `postcard` writes for the records,
but for `heights`, which holds the bytes of a block hash. A `ChainWork` takes 64 bytes; it is a
natural number in the model, which is written only when it fits.
-/

namespace StryiChain

section Records

variable [Primitives]

/-- `UTXO`. -/
def utxoCodec : Codec UTXO :=
  (((hashCodec .transaction).pair Codec.u32).pair (Codec.u64.pair (hashCodec .address))).imap
    (fun utxo => ((utxo.txid, utxo.vout), utxo.value, utxo.owner))
    (fun fields => some ⟨fields.1.1, fields.1.2, fields.2.1, fields.2.2⟩) fun _ => rfl

/-- `BlockHeader`. -/
def blockHeaderCodec : Codec BlockHeader :=
  (((Codec.u16.pair (hashCodec .merkle)).pair ((hashCodec .block).pair Codec.u64)).pair
      ((thresholdCodec.pair Codec.u64).pair (Codec.u32.pair genesisStateCodec.option))).imap
    (fun header => (((header.version, header.merkleRootHash), header.previousBlockHash,
      header.height), (header.hashThreshold, header.timestamp), header.nonce, header.genesisState))
    (fun fields => some ⟨fields.1.1.1, fields.1.1.2, fields.1.2.1, fields.1.2.2, fields.2.1.1,
      fields.2.1.2, fields.2.2.1, fields.2.2.2⟩) fun _ => rfl

/-- `Block`. -/
def blockCodec : Codec Block :=
  (blockHeaderCodec.pair blockDataCodec).imap (fun block => (block.header, block.data))
    (fun fields => some ⟨fields.1, fields.2⟩) fun _ => rfl

/-- The header stands at the front of a block, where `take_from_bytes` finds it. -/
theorem blockHeaderCodec_fromBytes (block : Block) :
    blockHeaderCodec.fromBytes (blockCodec.encode block) = some block.header := by
  have front : blockHeaderCodec.decode (blockCodec.encode block) =
      some (block.header, blockDataCodec.encode block.data) :=
    blockHeaderCodec.decode_encode block.header (blockDataCodec.encode block.data)
  rw [Codec.fromBytes, front, Option.map_some]

/-- `ChainWork`, a `U512`: its 64 little-endian bytes, without a length. -/
def chainWorkCodec : Codec (BitVec 512) :=
  (Codec.raw 64).imap (fun work => ⟨leBytes 64 work.toNat, length_leBytes 64 _⟩)
    (fun bytes => some (BitVec.ofNat 512 (Nat.ofDigits 256 (bytes.1.map UInt8.toNat))))
    fun work => by
      have fits : work.toNat < (2 ^ 8) ^ 64 := by
        have bits : 512 ≤ 8 * 64 := by decide
        rw [← Nat.pow_mul]
        exact BitVec.toNat_lt_twoPow_of_le bits
      dsimp only
      rw [ofDigits_leBytes fits, BitVec.ofNat_toNat, BitVec.setWidth_eq]

omit [Primitives] in
theorem toNat_ofNat_of_fits {width n : Nat} (fits : n < 2 ^ width) :
    (BitVec.ofNat width n).toNat = n := by
  rw [BitVec.toNat_ofNat, Nat.mod_eq_of_lt fits]

/-- `BlockIndexData`. -/
def blockIndexCodec : Codec ((BlockHash × UInt64) × BitVec 512) :=
  ((hashCodec .block).pair Codec.u64).pair chainWorkCodec

/-- The fields of a `BlockIndexData`, in their order. -/
def BlockIndexData.fields (index : BlockIndexData) : (BlockHash × UInt64) × BitVec 512 :=
  ((index.parentHash, index.height), BitVec.ofNat 512 index.chainWork)

def BlockIndexData.ofFields (fields : (BlockHash × UInt64) × BitVec 512) : BlockIndexData :=
  ⟨fields.1.1, fields.1.2, fields.2.toNat⟩

omit [Primitives] in
theorem BlockIndexData.ofFields_fields {index : BlockIndexData} (fits : index.chainWork < 2 ^ 512) :
    ofFields index.fields = index := by
  rw [ofFields, fields, toNat_ofNat_of_fits fits]

/-- `TransactionIndexData`. -/
def transactionIndexCodec : Codec TransactionIndexData :=
  (((hashCodec .block).pair Codec.u64).pair Codec.u32).imap
    (fun location => ((location.blockHash, location.blockHeight), location.txIndex))
    (fun fields => some ⟨fields.1.1, fields.1.2, fields.2⟩) fun _ => rfl

/-- `BlockUndo`: its two sets as sequences of their members. -/
def blockUndoCodec : Codec BlockUndo :=
  ((outPointCodec.pair utxoCodec).vector.pair outPointCodec.vector).imap
    (fun undo => (undo.spentUtxos, undo.createdOutpoints))
    (fun fields => some ⟨fields.1, fields.2⟩) fun _ => rfl

/-- `ChainState`. -/
def chainStateCodec : Codec ((UInt64 × BlockHash) × (UInt64 × UInt64) × BitVec 512) :=
  (Codec.u64.pair (hashCodec .block)).pair ((Codec.u64.pair Codec.u64).pair chainWorkCodec)

/-- The fields of a `ChainState`, in their order. -/
def ChainState.fields (state : ChainState) :
    (UInt64 × BlockHash) × (UInt64 × UInt64) × BitVec 512 :=
  (state.latestBlock, (state.lastUpdateTime, state.blocksCount), BitVec.ofNat 512 state.chainWork)

def ChainState.ofFields (fields : (UInt64 × BlockHash) × (UInt64 × UInt64) × BitVec 512) :
    ChainState :=
  ⟨fields.1, fields.2.1.1, fields.2.1.2, fields.2.2.toNat⟩

omit [Primitives] in
theorem ChainState.ofFields_fields {state : ChainState} (fits : state.chainWork < 2 ^ 512) :
    ofFields state.fields = state := by
  rw [ofFields, fields, toNat_ofNat_of_fits fits]

/-- An `i64` as the varint of a `u64`, the numbers near zero first. -/
def zigZag (n : Int64) : UInt64 :=
  UInt64.ofNat (if 0 ≤ n.toInt then 2 * n.toInt.toNat else 2 * n.toInt.natAbs - 1)

def deZigZag (u : UInt64) : Int64 :=
  if u.toNat % 2 = 0 then Int64.ofInt (u.toNat / 2 : Nat) else Int64.ofInt (-((u.toNat + 1) / 2 : Nat))

omit [Primitives] in
theorem deZigZag_zigZag (n : Int64) : deZigZag (zigZag n) = n := by
  have low := n.le_toInt
  have high := n.toInt_lt
  unfold deZigZag zigZag
  by_cases sign : 0 ≤ n.toInt
  · rw [if_pos sign, toNat_ofNat_u64 (by omega), if_pos (by omega)]
    have half : ((2 * n.toInt.toNat / 2 : Nat) : Int) = n.toInt := by omega
    rw [half, Int64.ofInt_toInt]
  · rw [if_neg sign, toNat_ofNat_u64 (by omega), if_neg (by omega)]
    have half : -(((2 * n.toInt.natAbs - 1 + 1) / 2 : Nat) : Int) = n.toInt := by omega
    rw [half, Int64.ofInt_toInt]

/-- `ChainMetadata`. -/
def chainMetadataCodec : Codec ChainMetadata :=
  ((Codec.u32.pair Codec.text).pair
      (Codec.u64.pair (Codec.u64.imap zigZag (fun u => some (deZigZag u)) fun n => by
        rw [deZigZag_zigZag]))).imap
    (fun metadata => ((metadata.schemaVersion, metadata.chainName), metadata.protocolVersion,
      metadata.createdUnixTs))
    (fun fields => some ⟨fields.1.1, fields.1.2, fields.2.1, fields.2.2⟩) fun _ => rfl

end Records

section Keys

/-- `height.to_be_bytes()`. -/
def heightKey (height : UInt64) : List UInt8 := beBytes 8 height.toNat

theorem heightKey_injective : Function.Injective heightKey := by
  intro a b same
  exact UInt64.toNat_inj.mp (beBytes_inj a.toNat_lt b.toNat_lt same)

/-- `STATE_KEY` (`lib.rs:61`). -/
def stateKey : List UInt8 := List.replicate 32 0

/-- `METADATA_KEY` (`lib.rs:62`). -/
def metadataKey : List UInt8 := utf8 "chain"

end Keys

end StryiChain
