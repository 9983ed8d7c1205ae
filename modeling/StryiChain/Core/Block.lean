import StryiChain.Core.Error
import StryiChain.Misc.Fallible

/-!
# Blocks (`block/mod.rs`, `merkletree.rs`, `consensus/rules.rs`)

Headers, the fixed layout they are hashed in, the Merkle root of a transaction list, the work of
a block and the reward schedule. Every genesis block hashes to the zero digest and carries no
work, which is why its shape is checked wherever that shortcut is taken.
-/

namespace StryiChain

/-- `HashThreshold`, a `U256`. -/
abbrev HashThreshold := BitVec 256

/-- `PowParams` (`difficulty.rs:138-151`). -/
structure PowParams where
  targetSpacingSecs : UInt32
  halfLifeSecs : UInt32
  initialHashThreshold : HashThreshold
  maxHashThreshold : HashThreshold
  deriving DecidableEq

/-- `ConsensusConsts` (`consensus/rules.rs:8-28`). -/
structure ConsensusConsts where
  pow : PowParams
  initialSubsidy : UInt64
  decayInterval : UInt64
  decayStep : UInt64
  deriving DecidableEq

/-- `ConsensusConsts::block_subsidy` (`consensus/rules.rs:57-65`). -/
def ConsensusConsts.blockSubsidy (consts : ConsensusConsts) (height : UInt64) : UInt64 :=
  if consts.decayInterval = 0 then
    consts.initialSubsidy
  else
    let steps := height / consts.decayInterval
    saturatingSub consts.initialSubsidy (saturatingMul steps consts.decayStep)

/-- `GenesisState`. -/
structure GenesisState where
  consensusConsts : ConsensusConsts
  deriving DecidableEq

/-- `BlockHeader` (`block/mod.rs:23-50`). -/
structure BlockHeader where
  version : UInt16
  merkleRootHash : MerkleHash
  previousBlockHash : BlockHash
  height : UInt64
  hashThreshold : HashThreshold
  timestamp : UInt64
  nonce : UInt32
  genesisState : Option GenesisState
  deriving DecidableEq

/-- `BlockData`. -/
structure BlockData where
  transactions : List Transaction
  deriving DecidableEq

/-- `Block`. -/
structure Block where
  header : BlockHeader
  data : BlockData
  deriving DecidableEq

/-- `BlockHeader::is_genesis`: the marker alone makes a header a genesis header. -/
def BlockHeader.isGenesis (header : BlockHeader) : Bool := header.genesisState.isSome

/-- `BlockHeader::to_hash_bytes` (`block/mod.rs:65-78`): 119 bytes, the nonce at offset 114. -/
def BlockHeader.toHashBytes (header : BlockHeader) : List UInt8 :=
  leBytes 2 header.version.toNat ++ header.merkleRootHash.bytes ++
    header.previousBlockHash.bytes ++ leBytes 8 header.height.toNat ++
    leBytes 32 header.hashThreshold.toNat ++ leBytes 8 header.timestamp.toNat ++
    leBytes 4 header.nonce.toNat ++ [if header.isGenesis then 1 else 0]

/-- `block_work` (`difficulty.rs:95-101`): `floor(2^256 / (target + 1))`. The type `ChainWork` of
the source is a `U512`; its only arithmetic is the checked `addWork`, and it is a natural number
here. -/
def blockWork (target : HashThreshold) : Nat := 2 ^ 256 / (target.toNat + 1)

/-- `Block::work` (`block/mod.rs:230-235`). -/
def Block.work (block : Block) : Nat :=
  if block.header.isGenesis then 0 else blockWork block.header.hashThreshold

/-- `verify_genesis_header_work_shape` (`storage/mod.rs:407-422`). -/
def verifyGenesisHeaderWorkShape (header : BlockHeader) : Except StryiCoreError Unit :=
  failIf (header.isGenesis ∧
      (header.height ≠ 0 ∨ header.previousBlockHash ≠ .empty ∨ header.hashThreshold ≠ 0 ∨
        header.timestamp ≠ 0 ∨ header.nonce ≠ 0))
    (.consensusValidationFailed
      "Genesis marker is only valid on a height-0 block with an empty previous hash, zero threshold, timestamp and nonce")

/-- `verify_genesis_work_shape`. -/
def verifyGenesisWorkShape (block : Block) : Except StryiCoreError Unit :=
  verifyGenesisHeaderWorkShape block.header

/-- `verified_block_work` (`storage/mod.rs:426-430`). -/
def verifiedBlockWork (block : Block) : Except StryiCoreError Nat := do
  verifyGenesisWorkShape block
  return block.work

/-- `add_work` (`difficulty.rs:103-108`): the checked addition of `U512`. -/
def addWork (parent work : Nat) : Except StryiCoreError Nat :=
  okOr (if parent + work < 2 ^ 512 then some (parent + work) else none)
    (.consensusChainSelectionFailed "chain work overflow")

variable [Primitives]

/-- `MerkleTree` (`merkletree.rs:31-37`): all levels, the leaves first, and the cached root. -/
structure MerkleTree where
  levels : List (List MerkleHash)
  root : Option MerkleHash

namespace MerkleTree

/-- `MerkleTree::combine_hashes`. -/
def combineHashes (left right : MerkleHash) : MerkleHash :=
  ⟨Primitives.blake3 (left.bytes ++ right.bytes)⟩

/-- One pass of the building loop: pairs are combined, an odd last node with itself. -/
def nextLevel : List MerkleHash → List MerkleHash
  | left :: right :: rest => combineHashes left right :: nextLevel rest
  | [last] => [combineHashes last last]
  | [] => []

/-- The building loop. A level of more than one node is followed by a shorter one, so that the
number of leaves bounds the number of passes. -/
def buildLevels : Nat → List MerkleHash → List (List MerkleHash)
  | 0, level => [level]
  | passes + 1, level =>
      if 1 < level.length then level :: buildLevels passes (nextLevel level) else [level]

/-- `MerkleTree::new` (`merkletree.rs:56-94`). -/
def new (leavesData : List (List UInt8)) : MerkleTree :=
  let leaves : List MerkleHash := leavesData.map fun data => ⟨Primitives.blake3 data⟩
  if leaves.isEmpty then
    { levels := [], root := none }
  else
    let levels := buildLevels leaves.length leaves
    { levels, root := levels.getLast?.bind List.head? }

end MerkleTree

/-- `Block::compute_merkle_root` (`block/mod.rs:207-217`). -/
def computeMerkleRoot (transactions : List Transaction) : MerkleHash :=
  ((MerkleTree.new (transactions.map Primitives.encodeTransaction)).root).getD .empty

/-- `calc_merkle_root` (`merkletree.rs:153-172`), the root that the miner writes. -/
def calcMerkleRoot (txs : List Transaction) : MerkleHash :=
  if txs.isEmpty then
    .empty
  else
    let leaves := txs.map Primitives.encodeTransaction
    (MerkleTree.new leaves).root.getD .empty

/-- Both functions return the empty digest for no transactions, and the same root otherwise. -/
theorem calcMerkleRoot_eq (txs : List Transaction) : calcMerkleRoot txs = computeMerkleRoot txs := by
  cases txs with
  | nil => rfl
  | cons tx txs => rfl

namespace Block

/-- `Block::block_hash` (`block/mod.rs:219-226`). -/
def blockHash (block : Block) : BlockHash :=
  if block.header.isGenesis then .empty else ⟨Primitives.blockDigest block.header.toHashBytes⟩

/-- `Block::is_merkle_root_valid`. -/
def isMerkleRootValid (block : Block) : Bool :=
  decide (computeMerkleRoot block.data.transactions = block.header.merkleRootHash)

end Block

section Work

omit [Primitives]

/-- Every normal threshold is worth at least one unit, so that work grows along a branch. -/
theorem blockWork_pos (target : HashThreshold) : 0 < blockWork target :=
  Nat.div_pos target.isLt (Nat.succ_pos _)

theorem blockWork_le (target : HashThreshold) : blockWork target ≤ 2 ^ 256 := Nat.div_le_self _ _

theorem Block.work_le (block : Block) : block.work ≤ 2 ^ 256 := by
  unfold Block.work
  split
  · exact Nat.zero_le _
  · exact blockWork_le _

theorem Block.work_pos {block : Block} (normal : block.header.isGenesis = false) :
    0 < block.work := by
  simp only [Block.work, normal, Bool.false_eq_true, if_false]
  exact blockWork_pos _

theorem addWork_eq_ok {parent work total : Nat} :
    addWork parent work = .ok total ↔ parent + work < 2 ^ 512 ∧ parent + work = total := by
  unfold addWork
  rw [okOr_eq_ok]
  by_cases fits : parent + work < 2 ^ 512
  · rw [if_pos fits, Option.some.injEq]
    exact ⟨fun h => ⟨fits, h⟩, fun h => h.2⟩
  · rw [if_neg fits]
    simp only [reduceCtorEq, false_iff]
    exact fun h => fits h.1

/-- A header without the marker has no shape to verify. -/
theorem verifyGenesisHeaderWorkShape_of_normal {header : BlockHeader}
    (normal : header.isGenesis = false) : verifyGenesisHeaderWorkShape header = .ok () := by
  simp [verifyGenesisHeaderWorkShape, normal]

@[simp] theorem verifiedBlockWork_eq_ok {block : Block} {work : Nat} :
    verifiedBlockWork block = .ok work ↔
      verifyGenesisWorkShape block = .ok () ∧ block.work = work := by
  rw [verifiedBlockWork, bind_eq_ok]
  constructor
  · rintro ⟨⟨⟩, shape, equal⟩
    exact ⟨shape, (pure_eq_ok _ _).mp equal⟩
  · rintro ⟨shape, equal⟩
    exact ⟨(), shape, (pure_eq_ok _ _).mpr equal⟩

end Work

/-! ### A small instance

Digests that can be evaluated, for concrete chains: a polynomial of the bytes, with an encoding
that leaves nothing out. Every hash meets the threshold of all ones. -/

namespace Sample

def digest (bytes : List UInt8) : BitVec 256 :=
  BitVec.ofNat 256 (bytes.foldl (fun acc byte => acc * 257 + byte.toNat + 1) 0)

def encodeKind : TransactionKind → List UInt8
  | .coinbase height parent => 0 :: leBytes 8 height.toNat ++ parent.bytes
  | .genesis => [1]
  | .payment => [2]

def encodeData (data : TransactionData) : List UInt8 :=
  leBytes 2 data.version.toNat ++ encodeKind data.kind ++ leBytes 8 data.inputs.length ++
    data.inputs.flatMap (fun input => input.previousOutput.txid.bytes ++
      leBytes 4 input.previousOutput.vout.toNat ++ leBytes 4 input.sequence.toNat) ++
    data.outputs.flatMap fun output => leBytes 8 output.value.toNat ++ output.recipient.bytes

/-- The author of a transaction is read from the last bytes of its signature. -/
scoped instance primitives : Primitives where
  toSerializer := .standard
  toBase64 := .standard
  toHex := .standard
  toGraphLibrary := .standard
  blake3 := digest
  blockDigest := digest
  encodeData := encodeData
  encodeTransaction tx := encodeData tx.data ++ leBytes 65 tx.signature.bytes.toNat
  recoverAuthor tx := some ⟨tx.signature.bytes.setWidth 160⟩
  iter l := l
  iter_perm _ := List.Perm.refl _
  schedule _ := []

def consts : ConsensusConsts := ⟨⟨10, 3600, BitVec.allOnes 256, BitVec.allOnes 256⟩, 50, 0, 0⟩

def payment (author : Nat) (inputs : List OutPoint) (outputs : List TransactionOut) : Transaction :=
  ⟨⟨1, .payment, inputs.map fun outpoint => ⟨outpoint, 0⟩, outputs⟩, ⟨BitVec.ofNat 520 author⟩⟩

/-- A genesis block that allocates 1000 units to the account 7. -/
def genesis : Block :=
  let transactions : List Transaction := [⟨⟨1, .genesis, [], [⟨1000, ⟨7⟩⟩]⟩, ⟨0⟩⟩]
  ⟨⟨1, computeMerkleRoot transactions, .empty, 0, 0, 0, 0, some ⟨consts⟩⟩, ⟨transactions⟩⟩

/-- A block above another one that pays the subsidy to the account 9. -/
def above (parent : Block) (nonce : UInt32) (payments : List Transaction) : Block :=
  let height := parent.header.height + 1
  let coinbase : Transaction :=
    ⟨⟨1, .coinbase height parent.blockHash, [], [⟨50, ⟨9⟩⟩]⟩, ⟨0⟩⟩
  let transactions := coinbase :: payments
  ⟨⟨1, computeMerkleRoot transactions, parent.blockHash, height, BitVec.allOnes 256, 10 * height,
    nonce, none⟩, ⟨transactions⟩⟩

end Sample

end StryiChain
