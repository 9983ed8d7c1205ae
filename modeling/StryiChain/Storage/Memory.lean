import StryiChain.Storage.Traits

/-!
# The in-memory backend (`storage/in_memory.rs`)

Hash maps that are cloned for a read view and for the staged writes of a transition.
-/

namespace StryiChain

variable [Primitives]

/-- `MemoryView` (`in_memory.rs:20-30`). -/
structure MemoryView where
  utxos : Table OutPoint UTXO
  blocks : Table BlockHash Block
  heights : Table UInt64 BlockHash
  indexes : Table BlockHash BlockIndexData
  transactions : Table TransactionHash TransactionIndexData
  undos : Table BlockHash BlockUndo
  state : Option ChainState
  metadata : Option ChainMetadata

namespace MemoryView

/-- `MemoryView::default()`. -/
def default : MemoryView := ⟨∅, ∅, ∅, ∅, ∅, ∅, none, none⟩

/-- The entries of one address (`in_memory.rs:101-111`). -/
def getUtxosForAddress (view : MemoryView) (address : AccountAddress) : Table OutPoint UTXO :=
  Table.insertAll (view.utxos.toPairs.filter fun (_, utxo) => utxo.owner = address) ∅

/-- `get_block_by_height` (`in_memory.rs:123-130`). -/
def getBlockByHeight (view : MemoryView) (height : UInt64) : Except StorageError (Option Block) :=
  match view.heights.read height with
  | none => .ok none
  | some hash =>
      match view.blocks.read hash with
      | some block => .ok (some block)
      | none => .error (.corruption s!"Height {height} references missing block {hash}")

/-- `get_transaction` (`in_memory.rs:136-171`). -/
def getTransaction (view : MemoryView) (hash : TransactionHash) :
    Except StorageError (Option ConfirmedTransaction) :=
  match view.transactions.read hash with
  | none => .ok none
  | some location => do
      let block ← okOr (view.blocks.read location.blockHash)
        (.corruption s!"Transaction {hash} references absent block {location.blockHash}")
      let transaction ← okOr
        ((block.data.transactions[location.txIndex.toNat]?).filter fun transaction =>
          block.blockHash = location.blockHash ∧ block.header.height = location.blockHeight ∧
            transaction.data.hash = hash)
        (.corruption s!"Transaction {hash} does not match block {location.blockHash} index {location.txIndex}")
      return some { transaction, location }

/-- `batch_remove_utxos` (`in_memory.rs:196-208`): all outpoints are checked before any is
removed. -/
def batchRemoveUtxos (view : MemoryView) (outpoints : List OutPoint) :
    Except StorageError MemoryView := do
  outpoints.forM fun outpoint => failIf (view.utxos.read outpoint = none) (.utxoNotFound outpoint)
  return { view with utxos := view.utxos.removeAll outpoints }

/-- The locator of one transaction of `put_block`. -/
def putLocator (block : Block) (view : MemoryView) (entry : Transaction × Nat) :
    Except StorageError MemoryView := do
  failIf (2 ^ 32 ≤ entry.2) (.invalidTransition "Transaction index overflow")
  let location : TransactionIndexData :=
    ⟨block.blockHash, block.header.height, UInt32.ofNat entry.2⟩
  return { view with
    transactions := AList.insert entry.1.data.hash location view.transactions }

/-- The loop of `put_block` over the transactions. -/
def putLocators (view : MemoryView) (block : Block) : Except StorageError MemoryView :=
  block.data.transactions.zipIdx.foldlM (putLocator block) view

/-- `put_block` (`in_memory.rs:212-234`). -/
def putBlock (view : MemoryView) (block : Block) (index : BlockIndexData) :
    Except StorageError MemoryView :=
  let hash := block.blockHash
  putLocators
    { view with
      blocks := AList.insert hash block view.blocks
      heights := AList.insert block.header.height hash view.heights
      indexes := AList.insert hash index view.indexes }
    block

/-- One transaction of a detached block: a locator of another block stays. -/
def removeLocator (hash : BlockHash) (transactions : Table TransactionHash TransactionIndexData)
    (transaction : Transaction) : Table TransactionHash TransactionIndexData :=
  let txid := transaction.data.hash
  if (transactions.read txid).any fun index => index.blockHash = hash then
    AList.erase txid transactions
  else
    transactions

/-- `remove_canonical_block` (`in_memory.rs:236-259`). -/
def removeCanonicalBlock (view : MemoryView) (block : Block) : Except StorageError MemoryView := do
  let hash := block.blockHash
  failIf (view.heights.read block.header.height ≠ some hash)
    (.corruption "Detached block is outside canonical heights")
  return { view with
    heights := AList.erase block.header.height view.heights
    transactions := block.data.transactions.foldl (removeLocator hash) view.transactions }

end MemoryView

instance : FullNodeStorage MemoryView where
  getUtxo view outpoint := .ok (view.utxos.read outpoint)
  getUtxosForAddress view address := .ok (view.getUtxosForAddress address)
  getBlockHashByHeight view height := .ok (view.heights.read height)
  getBlockByHash view hash := .ok (view.blocks.read hash)
  getBlockByHeight := MemoryView.getBlockByHeight
  getBlockIndex view hash := .ok (view.indexes.read hash)
  getTransaction := MemoryView.getTransaction
  chainState view := .ok view.state
  metadata view := .ok view.metadata
  getBlockUndo view hash := .ok (view.undos.read hash)
  batchPutUtxos view utxos := .ok { view with utxos := view.utxos.insertAll utxos }
  batchRemoveUtxos := MemoryView.batchRemoveUtxos
  initial := .default
  putBlock := MemoryView.putBlock
  removeCanonicalBlock := MemoryView.removeCanonicalBlock
  putBlockUndo view hash undo := .ok { view with undos := AList.insert hash undo view.undos }
  putChainState view state := .ok { view with state := some state }
  putMetadata view metadata := .ok { view with metadata := some metadata }
  checkSchema _ := .ok ()

end StryiChain
