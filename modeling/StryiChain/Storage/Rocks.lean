import StryiChain.Storage.Traits

/-!
# The RocksDB backend (`stryi_storage/src/{write,utxo,blocks,undo,stats}.rs`)

A transaction reads its own writes, so a view is the contents of the column families. Keys and
values are kept decoded: the keys are fixed-width encodings, and a value that does not decode is
a failure of the backend. Unlike the in-memory maps, these tables are checked on every read, and
an `addresses` family lists the outpoints of each owner.
-/

namespace StryiChain

variable [Primitives]

/-- `STORAGE_SCHEMA_VERSION` (`meta.rs:6`). -/
def storageSchemaVersion : UInt32 := 2

/-- The column families of `StorageView` (`stryi_storage/src/lib.rs:48-58`). -/
structure RocksView where
  utxo : Table OutPoint UTXO
  addresses : Table AccountAddress (List OutPoint)
  blocks : Table BlockHash Block
  heights : Table UInt64 BlockHash
  blockIndexes : Table BlockHash BlockIndexData
  transactionIndexes : Table TransactionHash TransactionIndexData
  undo : Table BlockHash BlockUndo
  stats : Option ChainState
  metadata : Option ChainMetadata

namespace RocksView

/-- The column families of a newly created database. -/
def empty : RocksView := ⟨∅, ∅, ∅, ∅, ∅, ∅, ∅, none, none⟩

/-- `get_utxo` (`utxo.rs:17-26`). -/
def getUtxo (view : RocksView) (outpoint : OutPoint) : Except StorageError (Option UTXO) := do
  let value := view.utxo.read outpoint
  failIf (value.any fun utxo => utxo.txid ≠ outpoint.txid ∨ utxo.vout ≠ outpoint.vout)
    (.corruption s!"UTXO value does not match key {outpoint}")
  return value

/-- The members of an address, as `addresses` lists them. -/
def members (view : RocksView) (address : AccountAddress) : List OutPoint :=
  (view.addresses.read address).getD []

/-- `get_utxos_for_address` (`utxo.rs:28-56`). -/
def getUtxosForAddress (view : RocksView) (address : AccountAddress) :
    Except StorageError (Table OutPoint UTXO) :=
  (iter (view.members address)).foldlM
    (fun utxos outpoint => do
      let utxo ← okOr (← view.getUtxo outpoint)
        (.corruption s!"Address {address} references missing UTXO {outpoint}")
      failIf (utxo.owner ≠ address)
        (.corruption s!"Address {address} references UTXO owned by {utxo.owner}")
      return AList.insert outpoint utxo utxos)
    ∅

/-- `get_block_by_hash` (`blocks.rs:26-38`). -/
def getBlockByHash (view : RocksView) (hash : BlockHash) : Except StorageError (Option Block) :=
  match view.blocks.read hash with
  | none => .ok none
  | some block => do
      (verifyGenesisWorkShape block).mapError fun error => .corruption error.message
      failIf (block.blockHash ≠ hash) (.corruption s!"Block body does not match key {hash}")
      return some block

/-- `get_block_by_height` (`blocks.rs:40-56`). -/
def getBlockByHeight (view : RocksView) (height : UInt64) : Except StorageError (Option Block) :=
  match view.heights.read height with
  | none => .ok none
  | some hash => do
      let block ← okOr (← view.getBlockByHash hash)
        (.corruption s!"Height {height} references absent block {hash}")
      failIf (block.header.height ≠ height)
        (.corruption s!"Height {height} references a block at height {block.header.height}")
      return some block

/-- `get_block_header_by_hash` (`blocks.rs:58-73`): the key is not compared with the hash. -/
def getBlockHeaderByHash (view : RocksView) (hash : BlockHash) :
    Except StorageError (Option BlockHeader) :=
  match view.blocks.read hash with
  | none => .ok none
  | some block => do
      (verifyGenesisHeaderWorkShape block.header).mapError fun error => .corruption error.message
      return some block.header

/-- `get_transaction` (`blocks.rs:79-123`). -/
def getTransaction (view : RocksView) (hash : TransactionHash) :
    Except StorageError (Option ConfirmedTransaction) :=
  match view.transactionIndexes.read hash with
  | none => .ok none
  | some location => do
      let block ← okOr (← view.getBlockByHash location.blockHash)
        (.corruption s!"Transaction {hash} references absent block {location.blockHash}")
      failIf (block.header.height ≠ location.blockHeight)
        (.corruption s!"Transaction {hash} height {location.blockHeight} disagrees with block {location.blockHash} height {block.header.height}")
      let transaction ← okOr
        ((block.data.transactions[location.txIndex.toNat]?).filter fun transaction =>
          transaction.data.hash = hash)
        (.corruption s!"Transaction {hash} does not match block {location.blockHash} index {location.txIndex}")
      return some { transaction, location }

/-- Memberships changed by the current call, over the stored ones. -/
abbrev Memberships := Table AccountAddress (List OutPoint)

/-- `memberships.entry(address)`, filled from the stored set on first use. -/
def Memberships.entry (memberships : Memberships) (view : RocksView) (address : AccountAddress) :
    List OutPoint :=
  (memberships.read address).getD (view.members address)

/-- `membership.remove(&outpoint)`, which must have been there. -/
def Memberships.leave (memberships : Memberships) (view : RocksView) (address : AccountAddress)
    (outpoint : OutPoint) : Except StorageError Memberships := do
  let membership := memberships.entry view address
  failIf (outpoint ∉ membership) (.corruption s!"Address index is missing UTXO {outpoint}")
  return AList.insert address (membership.filter (· ≠ outpoint)) memberships

/-- `membership.insert(outpoint)`. -/
def Memberships.join (memberships : Memberships) (view : RocksView) (address : AccountAddress)
    (outpoint : OutPoint) : Memberships :=
  AList.insert address (List.insert outpoint (memberships.entry view address)) memberships

/-- The previous owner of an outpoint gives it up, when the owner changes. -/
def Memberships.moveOut (memberships : Memberships) (view : RocksView) (outpoint : OutPoint)
    (owner : AccountAddress) (previous : Option UTXO) : Except StorageError Memberships :=
  match previous with
  | none => .ok memberships
  | some previous =>
      if previous.owner ≠ owner then memberships.leave view previous.owner outpoint
      else .ok memberships

/-- The closing loop of both batch writes: the changed memberships are stored. -/
def putMemberships (view : RocksView) (memberships : Memberships) : RocksView :=
  { view with addresses := view.addresses.insertAll (iter memberships.toPairs) }

/-- One entry of `batch_put_utxos` (`write.rs:20-51`). -/
def putUtxo (state : RocksView × Memberships) (entry : OutPoint × UTXO) :
    Except StorageError (RocksView × Memberships) := do
  let (view, memberships) := state
  let (outpoint, utxo) := entry
  failIf (utxo.txid ≠ outpoint.txid ∨ utxo.vout ≠ outpoint.vout)
    (.invalidTransition s!"UTXO value does not match key {outpoint}")
  let previous ← view.getUtxo outpoint
  let memberships ← memberships.moveOut view outpoint utxo.owner previous
  return ({ view with utxo := AList.insert outpoint utxo view.utxo },
    memberships.join view utxo.owner outpoint)

/-- `batch_put_utxos` (`write.rs:14-58`). -/
def batchPutUtxos (view : RocksView) (utxos : List (OutPoint × UTXO)) :
    Except StorageError RocksView := do
  let (view, memberships) ← utxos.foldlM putUtxo (view, ∅)
  return view.putMemberships memberships

/-- One outpoint of `batch_remove_utxos` (`write.rs:63-80`). -/
def removeUtxo (state : RocksView × Memberships) (outpoint : OutPoint) :
    Except StorageError (RocksView × Memberships) := do
  let (view, memberships) := state
  let utxo ← okOr (← view.getUtxo outpoint) (.utxoNotFound outpoint)
  let memberships ← memberships.leave view utxo.owner outpoint
  return ({ view with utxo := AList.erase outpoint view.utxo }, memberships)

/-- `batch_remove_utxos` (`write.rs:60-87`). -/
def batchRemoveUtxos (view : RocksView) (outpoints : List OutPoint) :
    Except StorageError RocksView := do
  let (view, memberships) ← outpoints.foldlM removeUtxo (view, ∅)
  return view.putMemberships memberships

/-- The locator of one transaction of `put_block`. -/
def putLocator (block : Block) (view : RocksView) (entry : Transaction × Nat) :
    Except StorageError RocksView := do
  failIf (2 ^ 32 ≤ entry.2) (.invalidTransition "Transaction index exceeds u32")
  let location : TransactionIndexData :=
    ⟨block.blockHash, block.header.height, UInt32.ofNat entry.2⟩
  return { view with
    transactionIndexes := AList.insert entry.1.data.hash location view.transactionIndexes }

/-- The loop of `put_block` over the transactions. -/
def putLocators (view : RocksView) (block : Block) : Except StorageError RocksView :=
  block.data.transactions.zipIdx.foldlM (putLocator block) view

/-- `put_block` (`write.rs:91-143`). -/
def putBlock (view : RocksView) (block : Block) (index : BlockIndexData) :
    Except StorageError RocksView := do
  let hash := block.blockHash
  failIf ((← view.getBlockByHash hash).any fun saved => saved ≠ block)
    (.corruption s!"Different block bodies share hash {hash}")
  failIf ((view.blockIndexes.read hash).any fun saved => saved ≠ index)
    (.corruption s!"Branch work index for block {hash} changed")
  failIf ((view.heights.read block.header.height).any fun saved => saved ≠ hash)
    (.invalidTransition s!"Height {block.header.height} is already canonical")
  putLocators
    { view with
      blocks := AList.insert hash block view.blocks
      blockIndexes := AList.insert hash index view.blockIndexes
      heights := AList.insert block.header.height hash view.heights }
    block

/-- One transaction of a detached block (`write.rs:156-182`). A locator of another block stays,
but is resolved once more. -/
def removeLocator (block : Block) (view : RocksView) (transaction : Transaction) :
    Except StorageError RocksView := do
  let hash := transaction.data.hash
  match view.transactionIndexes.read hash with
  | none => return view
  | some location =>
      if location.blockHash ≠ block.blockHash then
        let _ ← view.getTransaction hash
        return view
      else
        let indexed := block.data.transactions[location.txIndex.toNat]?
        failIf (location.blockHeight ≠ block.header.height ∨
            indexed.all fun transaction => transaction.data.hash ≠ hash)
          (.corruption s!"Transaction {hash} does not match detached block {location.blockHash} index {location.txIndex}")
        return { view with transactionIndexes := AList.erase hash view.transactionIndexes }

/-- `remove_canonical_block` (`write.rs:145-186`). -/
def removeCanonicalBlock (view : RocksView) (block : Block) : Except StorageError RocksView := do
  failIf (view.heights.read block.header.height ≠ some block.blockHash)
    (.corruption s!"Canonical mapping for block {block.blockHash} disagrees")
  block.data.transactions.foldlM (removeLocator block)
    { view with heights := AList.erase block.header.height view.heights }

end RocksView

instance : FullNodeStorage RocksView where
  getUtxo := RocksView.getUtxo
  getUtxosForAddress := RocksView.getUtxosForAddress
  getBlockHashByHeight view height := .ok (view.heights.read height)
  getBlockByHash := RocksView.getBlockByHash
  getBlockByHeight := RocksView.getBlockByHeight
  getBlockHeaderByHash := RocksView.getBlockHeaderByHash
  getBlockIndex view hash := .ok (view.blockIndexes.read hash)
  getTransaction := RocksView.getTransaction
  chainState view := .ok view.stats
  metadata view := .ok view.metadata
  getBlockUndo view hash := .ok (view.undo.read hash)
  batchPutUtxos := RocksView.batchPutUtxos
  batchRemoveUtxos := RocksView.batchRemoveUtxos
  initial := .empty
  putBlock := RocksView.putBlock
  removeCanonicalBlock := RocksView.removeCanonicalBlock
  putBlockUndo view hash undo := .ok { view with undo := AList.insert hash undo view.undo }
  putChainState view state := .ok { view with stats := some state }
  putMetadata view metadata := .ok { view with metadata := some metadata }
  checkSchema metadata :=
    failIf (metadata.schemaVersion ≠ storageSchemaVersion) (.unsupportedSchema metadata.schemaVersion)

end StryiChain
