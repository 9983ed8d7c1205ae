import StryiChain.Core.Postcard

/-!
# Blocks on the wire (`grpc.rs:254-324`, `proto/sync.proto`)

The messages that carry a block between two nodes, and both conversions. Every field of the header
has a codec of its own; the genesis state and the body are bytes of the serialization.
-/

namespace StryiChain

/-- The message `BlockHeader`. -/
structure PbBlockHeader where
  version : UInt32
  merkleRootHash : String
  previousBlockHash : String
  height : UInt64
  hashThreshold : List UInt8
  timestamp : UInt64
  nonce : UInt32
  genesisData : List UInt8
  deriving DecidableEq

/-- The message `SerializedBlockBody`. -/
structure SerializedBlockBody where
  serialized : List UInt8
  deriving DecidableEq

/-- The message `Block`. A field that is itself a message may be missing. -/
structure PbBlock where
  header : Option PbBlockHeader
  body : Option SerializedBlockBody
  deriving DecidableEq

/-- `postcard::to_stdvec` and `postcard::from_bytes` at the two types that the wire carries as
bytes. An error is kept as its text. -/
class Postcard where
  encodeGenesisState : Option GenesisState → List UInt8
  decodeGenesisState : List UInt8 → Except String (Option GenesisState)
  encodeBlockData : BlockData → List UInt8
  decodeBlockData : List UInt8 → Except String BlockData

section Conversions

variable [Hex] [Postcard]

/-- What has been serialized is read back. -/
structure Postcard.RoundTrips : Prop where
  genesisState : ∀ state, decodeGenesisState (encodeGenesisState state) = .ok state
  blockData : ∀ data, decodeBlockData (encodeBlockData data) = .ok data

/-- `u16::try_from` of a `u32`. -/
def u16TryFrom (n : UInt32) : Option UInt16 :=
  if n.toNat < 2 ^ 16 then some n.toUInt16 else none

/-- `From<Block> for PbBlock` (`grpc.rs:254-279`). -/
def PbBlock.fromBlock (block : Block) : PbBlock where
  header := some {
    version := block.header.version.toUInt32
    merkleRootHash := toString block.header.merkleRootHash
    previousBlockHash := toString block.header.previousBlockHash
    height := block.header.height
    hashThreshold := thresholdToBytes block.header.hashThreshold
    timestamp := block.header.timestamp
    nonce := block.header.nonce
    genesisData := Postcard.encodeGenesisState block.header.genesisState }
  body := some { serialized := Postcard.encodeBlockData block.data }

/-- The header of a message (`grpc.rs:284-312`). -/
def BlockHeader.tryFrom (grpcHeader : PbBlockHeader) : Except DecodeError BlockHeader := do
  let grpcGenesisState ← (Postcard.decodeGenesisState grpcHeader.genesisData).mapError .other
  let version ← okOr (u16TryFrom grpcHeader.version)
    (.other s!"unsupported block version {grpcHeader.version} on the wire")
  let merkleRootHash ← Hash.fromHashString .merkle grpcHeader.merkleRootHash
  let previousBlockHash ← Hash.fromHashString .block grpcHeader.previousBlockHash
  let hashThreshold ← (thresholdFromBytes grpcHeader.hashThreshold).mapError .other
  return {
    version, merkleRootHash, previousBlockHash
    height := grpcHeader.height
    hashThreshold
    timestamp := grpcHeader.timestamp
    nonce := grpcHeader.nonce
    genesisState := grpcGenesisState }

/-- `TryFrom<PbBlock> for Block` (`grpc.rs:281-324`). -/
def Block.tryFrom (value : PbBlock) : Except DecodeError Block := do
  let grpcHeader ← okOr value.header (.other "Got block with no header!")
  let header ← BlockHeader.tryFrom grpcHeader
  let grpcBody ← okOr value.body (.other "Got block with no body!")
  let data ← (Postcard.decodeBlockData grpcBody.serialized).mapError .other
  return ⟨header, data⟩

section Fields

omit [Hex] [Postcard]

theorem u16TryFrom_toUInt32 (n : UInt16) : u16TryFrom n.toUInt32 = some n := by
  have small := n.toNat_lt
  rw [u16TryFrom, UInt16.toNat_toUInt32, if_pos small, UInt16.toUInt16_toUInt32]

theorem u16TryFrom_eq_some {n : UInt32} {m : UInt16} (read : u16TryFrom n = some m) :
    m.toUInt32 = n := by
  rw [u16TryFrom] at read
  split at read
  · rename_i small
    rw [Option.some.injEq] at read
    rw [← read, ← UInt32.toNat_inj, UInt16.toNat_toUInt32, UInt32.toNat_toUInt16,
      Nat.mod_eq_of_lt small]
  · cases read

theorem thresholdFromBytes_eq_ok {bytes : List UInt8} {threshold : HashThreshold}
    (read : thresholdFromBytes bytes = .ok threshold) : thresholdToBytes threshold = bytes := by
  rw [thresholdFromBytes] at read
  split at read
  · cases read
  · rename_i length
    rw [not_not] at length
    rw [Except.ok.injEq] at read
    have spelled := leBytes_ofDigits bytes
    have fits := ofDigits_lt bytes
    rw [length] at spelled fits
    have fits' : Nat.ofDigits 256 (bytes.map UInt8.toNat) < 2 ^ 256 := fits
    rw [← read, thresholdToBytes, BitVec.toNat_ofNat, Nat.mod_eq_of_lt fits', spelled]

end Fields

/-- What a header that is accepted holds, field by field. -/
theorem headerTryFrom_eq_ok {grpcHeader : PbBlockHeader} {header : BlockHeader} :
    BlockHeader.tryFrom grpcHeader = .ok header ↔
      Postcard.decodeGenesisState grpcHeader.genesisData = .ok header.genesisState ∧
      u16TryFrom grpcHeader.version = some header.version ∧
      Hash.fromHashString .merkle grpcHeader.merkleRootHash = .ok header.merkleRootHash ∧
      Hash.fromHashString .block grpcHeader.previousBlockHash = .ok header.previousBlockHash ∧
      thresholdFromBytes grpcHeader.hashThreshold = .ok header.hashThreshold ∧
      grpcHeader.height = header.height ∧ grpcHeader.timestamp = header.timestamp ∧
      grpcHeader.nonce = header.nonce := by
  simp only [BlockHeader.tryFrom, bind_eq_ok, mapError_eq_ok, okOr_eq_ok, pure_eq_ok]
  constructor
  · rintro ⟨state, decoded, version, narrowed, root, merkle, parent, previous, bound, threshold, same⟩
    rw [← same]
    exact ⟨decoded, narrowed, merkle, previous, threshold, rfl, rfl, rfl⟩
  · rintro ⟨decoded, narrowed, merkle, previous, threshold, height, timestamp, nonce⟩
    refine ⟨_, decoded, _, narrowed, _, merkle, _, previous, _, threshold, ?_⟩
    rw [height, timestamp, nonce]

/-- What a block that is accepted holds. -/
theorem blockTryFrom_eq_ok {value : PbBlock} {block : Block} :
    Block.tryFrom value = .ok block ↔
      ∃ grpcHeader grpcBody, value = ⟨some grpcHeader, some grpcBody⟩ ∧
        BlockHeader.tryFrom grpcHeader = .ok block.header ∧
        Postcard.decodeBlockData grpcBody.serialized = .ok block.data := by
  simp only [Block.tryFrom, bind_eq_ok, mapError_eq_ok, okOr_eq_ok, pure_eq_ok]
  constructor
  · rintro ⟨grpcHeader, here, header, read, grpcBody, there, data, decoded, same⟩
    cases value
    rw [← same]
    exact ⟨grpcHeader, grpcBody, PbBlock.mk.injEq _ _ _ _ ▸ ⟨here, there⟩, read, decoded⟩
  · rintro ⟨grpcHeader, grpcBody, whole, read, decoded⟩
    rw [whole]
    exact ⟨grpcHeader, rfl, _, read, grpcBody, rfl, _, decoded, rfl⟩

theorem tryFrom_fromBlock (roundTrips : Postcard.RoundTrips) (block : Block) :
    Block.tryFrom (PbBlock.fromBlock block) = .ok block := by
  refine blockTryFrom_eq_ok.mpr ⟨_, _, rfl, ?_, roundTrips.blockData block.data⟩
  refine headerTryFrom_eq_ok.mpr ⟨?_, ?_, ?_, ?_, ?_, rfl, rfl, rfl⟩
  · exact roundTrips.genesisState block.header.genesisState
  · exact u16TryFrom_toUInt32 block.header.version
  · exact Hash.fromHashString_display block.header.merkleRootHash
  · exact Hash.fromHashString_display block.header.previousBlockHash
  · exact thresholdFromBytes_toBytes block.header.hashThreshold

/-- A block that was accepted is sent on as the message that it came in: only the case of the
digits and the bytes of the serialization may differ. -/
theorem fromBlock_of_tryFrom {value : PbBlock} {block : Block}
    (read : Block.tryFrom value = .ok block) :
    ∃ grpcHeader grpcBody, value = ⟨some grpcHeader, some grpcBody⟩ ∧
      block.header.merkleRootHash.SpelledBy grpcHeader.merkleRootHash ∧
      block.header.previousBlockHash.SpelledBy grpcHeader.previousBlockHash ∧
      PbBlock.fromBlock block =
        ⟨some { grpcHeader with
          merkleRootHash := toString block.header.merkleRootHash
          previousBlockHash := toString block.header.previousBlockHash
          genesisData := Postcard.encodeGenesisState block.header.genesisState },
        some ⟨Postcard.encodeBlockData block.data⟩⟩ := by
  obtain ⟨grpcHeader, grpcBody, whole, header, -⟩ := blockTryFrom_eq_ok.mp read
  obtain ⟨-, version, merkle, previous, threshold, height, timestamp, nonce⟩ :=
    headerTryFrom_eq_ok.mp header
  refine ⟨grpcHeader, grpcBody, whole, Hash.fromHashString_eq_ok_iff.mp merkle,
    Hash.fromHashString_eq_ok_iff.mp previous, ?_⟩
  rw [PbBlock.fromBlock, u16TryFrom_eq_some version, thresholdFromBytes_eq_ok threshold, ← height,
    ← timestamp, ← nonce]

/-- Every block survives the wire, every hash its text, and every message that is accepted stands
for the same block as the message that it is sent on as. -/
theorem block_wire_round_trip (roundTrips : Postcard.RoundTrips) :
    (∀ block, Block.tryFrom (PbBlock.fromBlock block) = .ok block) ∧
    (∀ value block, Block.tryFrom value = .ok block →
      Block.tryFrom (PbBlock.fromBlock block) = .ok block) ∧
    (∀ kind (hash : Hash kind), Hash.fromHashString kind (toString hash) = .ok hash) ∧
    ∀ threshold, thresholdFromBytes (thresholdToBytes threshold) = .ok threshold := by
  refine ⟨tryFrom_fromBlock roundTrips, ?_, ?_, thresholdFromBytes_toBytes⟩
  · intro value block _
    exact tryFrom_fromBlock roundTrips block
  · intro kind hash
    exact hash.fromHashString_display

end Conversions

namespace Sample

/-- What is left after the value is ignored, as by `from_bytes`. -/
def fromBytes {α : Type} (codec : Codec α) (bytes : List UInt8) : Except String α :=
  okOr ((codec.decode bytes).map Prod.fst) "Hit the end of buffer, expected more data"

theorem fromBytes_encode {α : Type} (codec : Codec α) (a : α) :
    fromBytes codec (codec.encode a) = .ok a := by
  have whole := codec.decode_encode a []
  rw [List.append_nil] at whole
  rw [fromBytes, whole, Option.map_some, okOr_some]

scoped instance postcard : Postcard where
  encodeGenesisState := genesisStateCodec.option.encode
  decodeGenesisState := fromBytes genesisStateCodec.option
  encodeBlockData := blockDataCodec.encode
  decodeBlockData := fromBytes blockDataCodec

theorem postcard_roundTrips : Postcard.RoundTrips where
  genesisState := fromBytes_encode genesisStateCodec.option
  blockData := fromBytes_encode blockDataCodec

end Sample

open Sample in
/-- A genesis block and the block above it. -/
theorem block_wire_round_trip_sample :
    Block.tryFrom (PbBlock.fromBlock genesis) = .ok genesis ∧
      Block.tryFrom (PbBlock.fromBlock (above genesis 1 [])) = .ok (above genesis 1 []) := by
  have trips := block_wire_round_trip postcard_roundTrips
  exact ⟨trips.1 genesis, trips.2.1 _ _ (trips.1 (above genesis 1 []))⟩

end StryiChain
