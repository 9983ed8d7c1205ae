import StryiChain.Core.Block
import StryiChain.Misc.Table

/-!
# The storage contract (`storage/mod.rs`, `undo.rs`)

The records that storage keeps, the transitions it commits, and the traits consensus reads and
writes through. A trait of the source is a class here. A write takes `&mut self` inside a
transaction that is dropped on an error, so it returns the next view or the error.
-/

namespace StryiChain

/-- `BlockUndo` (`undo.rs:12-20`): the net change of a block to the UTXO set. Both sets are
listed without repetition. -/
structure BlockUndo where
  spentUtxos : List (OutPoint × UTXO)
  createdOutpoints : List OutPoint
  deriving DecidableEq

/-- `BlockIndexData` (`storage/mod.rs:76-81`). -/
structure BlockIndexData where
  parentHash : BlockHash
  height : UInt64
  chainWork : Nat
  deriving DecidableEq

/-- `TransactionIndexData` (`storage/mod.rs:84-89`). -/
structure TransactionIndexData where
  blockHash : BlockHash
  blockHeight : UInt64
  txIndex : UInt32
  deriving DecidableEq

/-- `ConfirmedTransaction`. -/
structure ConfirmedTransaction where
  transaction : Transaction
  location : TransactionIndexData
  deriving DecidableEq

/-- `ChainState` (`storage/mod.rs:99-112`). -/
structure ChainState where
  latestBlock : UInt64 × BlockHash
  lastUpdateTime : UInt64
  blocksCount : UInt64
  chainWork : Nat
  deriving DecidableEq

/-- `ChainMetadata` (`storage/mod.rs:115-122`). -/
structure ChainMetadata where
  schemaVersion : UInt32
  chainName : String
  protocolVersion : UInt64
  createdUnixTs : Int64
  deriving DecidableEq

/-- `ForkDbDelta` (`forks/overlay.rs:32-41`): a prepared fork replacement. -/
structure ForkDbDelta where
  expectedHead : UInt64 × BlockHash
  commonAncestor : BlockHash
  detached : List (UInt64 × BlockHash)
  blocks : List (Block × BlockUndo)
  utxos : List (OutPoint × UTXO)
  removedUtxos : List OutPoint

/-- `ChainTransition` (`storage/mod.rs:128-146`). -/
inductive ChainTransition where
  | genesis (block : Block) (metadata : ChainMetadata)
  | append (block : Block)
  | reorganize (delta : ForkDbDelta)

/-- `ChainTransitionResult`. -/
structure ChainTransitionResult where
  newHead : UInt64 × BlockHash
  chainWork : Nat
  detached : List (UInt64 × BlockHash)

/-- `UtxoStorage` (`storage/mod.rs:160-192`). -/
class UtxoStorage (S : Type) where
  getUtxo : S → OutPoint → Except StorageError (Option UTXO)
  getUtxosForAddress : S → AccountAddress → Except StorageError (Table OutPoint UTXO)

/-- `BlockStorage` (`storage/mod.rs:195-300`), without the batched reads of the network layer. -/
class BlockStorage (S : Type) where
  getBlockHashByHeight : S → UInt64 → Except StorageError (Option BlockHash)
  getBlockByHash : S → BlockHash → Except StorageError (Option Block)
  getBlockByHeight : S → UInt64 → Except StorageError (Option Block)
  getBlockHeaderByHash : S → BlockHash → Except StorageError (Option BlockHeader) :=
    fun storage hash => do return (← getBlockByHash storage hash).map Block.header
  getBlockIndex : S → BlockHash → Except StorageError (Option BlockIndexData)
  getTransaction : S → TransactionHash → Except StorageError (Option ConfirmedTransaction)

/-- `StorageStats` (`storage/mod.rs:303-341`). -/
class StorageStats (S : Type) where
  chainState : S → Except StorageError (Option ChainState)
  metadata : S → Except StorageError (Option ChainMetadata)

/-- `UndoStorage`. -/
class UndoStorage (S : Type) where
  getBlockUndo : S → BlockHash → Except StorageError (Option BlockUndo)

/-- `StorageRead`: all reads of a consistent view. -/
class StorageRead (S : Type) extends UtxoStorage S, BlockStorage S, StorageStats S, UndoStorage S

/-- `UtxoWrite` (`storage/mod.rs:362-371`). -/
class UtxoWrite (S : Type) extends UtxoStorage S where
  batchPutUtxos : S → List (OutPoint × UTXO) → Except StorageError S
  batchRemoveUtxos : S → List OutPoint → Except StorageError S

/-- `StorageWrite` (`storage/mod.rs:374-391`). `initial` is the freshly opened storage, before
genesis. -/
class StorageWrite (S : Type) extends StorageRead S, UtxoWrite S where
  initial : S
  putBlock : S → Block → BlockIndexData → Except StorageError S
  removeCanonicalBlock : S → Block → Except StorageError S
  putBlockUndo : S → BlockHash → BlockUndo → Except StorageError S
  putChainState : S → ChainState → Except StorageError S
  putMetadata : S → ChainMetadata → Except StorageError S

/-- `FullNodeStorage`: what a backend checks of the chain configuration before it stages genesis. -/
class FullNodeStorage (S : Type) extends StorageWrite S where
  checkSchema : ChainMetadata → Except StorageError Unit

export UtxoStorage (getUtxo getUtxosForAddress)
export BlockStorage (getBlockHashByHeight getBlockByHash getBlockByHeight getBlockHeaderByHash
  getBlockIndex getTransaction)
export StorageStats (chainState metadata)
export UndoStorage (getBlockUndo)
export UtxoWrite (batchPutUtxos batchRemoveUtxos)
export StorageWrite (putBlock removeCanonicalBlock putBlockUndo putChainState putMetadata)

/-- One outpoint of `batch_get_utxos`. -/
def fetchUtxo {S : Type} [UtxoStorage S] (storage : S) (result : Table OutPoint UTXO)
    (outpoint : OutPoint) : Except StorageError (Table OutPoint UTXO) := do
  let utxo ← okOr (← getUtxo storage outpoint) (.utxoNotFound outpoint)
  return AList.insert outpoint utxo result

/-- `UtxoStorage::batch_get_utxos`: the first missing outpoint is the error. -/
def batchGetUtxos {S : Type} [UtxoStorage S] (storage : S) (outpoints : List OutPoint) :
    Except StorageError (Table OutPoint UTXO) :=
  outpoints.foldlM (fetchUtxo storage) ∅

/-- `StorageStats::tip`. -/
def tip {S : Type} [StorageStats S] (storage : S) : Except StorageError (UInt64 × BlockHash) := do
  let state ← okOr (← chainState storage) .uninitialized
  return state.latestBlock

end StryiChain
