import StryiChain.Misc.Rows
import StryiChain.Storage.Encoding

/-!
# The RocksDB backend down to its rows (`stryi_storage/src/{lib,write,utxo,blocks,undo,stats}.rs`)

Every column family is a set of rows, and every read and write goes through the encodings of keys
and values. A value that cannot be decoded is reported as corruption.
-/

namespace StryiChain

/-- `TABLES` (`lib.rs:50-60`). -/
inductive TableName where
  | blocks
  | heights
  | utxo
  | addresses
  | stats
  | undo
  | blockIndexes
  | transactionIndexes
  | metadata
  deriving DecidableEq

/-- The name of a column family. -/
def TableName.name : TableName → String
  | .blocks => "blocks"
  | .heights => "heights"
  | .utxo => "utxo"
  | .addresses => "addresses"
  | .stats => "stats"
  | .undo => "undo"
  | .blockIndexes => "block_indexes"
  | .transactionIndexes => "transaction_indexes"
  | .metadata => "metadata"

/-- `StorageView` (`lib.rs:82-85`): the rows that a snapshot or an active transaction reads. -/
structure ByteView where
  table : TableName → Rows

namespace ByteView

variable {T : Type}

/-- The column families of a newly created database. -/
def empty : ByteView := ⟨fun _ => ∅⟩

/-- `raw_get` (`lib.rs:304-318`). -/
def rawGet (view : ByteView) (table : TableName) (key : List UInt8) : Option (List UInt8) :=
  (view.table table).read key

/-- `decode` (`lib.rs:329-332`), without the text of the error of `postcard`. -/
def decode (table : TableName) (codec : Codec T) (bytes : List UInt8) : Except StorageError T :=
  okOr (codec.fromBytes bytes) (.corruption s!"Invalid {table.name} value")

/-- `get` (`lib.rs:320-327`). -/
def get (view : ByteView) (table : TableName) (codec : Codec T) (key : List UInt8) :
    Except StorageError (Option T) :=
  match view.rawGet table key with
  | none => .ok none
  | some bytes => do return some (← decode table codec bytes)

/-- `put_cf` of the transaction. -/
def putRaw (view : ByteView) (table : TableName) (key bytes : List UInt8) : ByteView :=
  ⟨Function.update view.table table (AList.insert key bytes (view.table table))⟩

/-- `put` (`lib.rs:342-349`). -/
def put (view : ByteView) (table : TableName) (codec : Codec T) (key : List UInt8) (value : T) :
    ByteView := view.putRaw table key (codec.encode value)

/-- `remove` (`lib.rs:351-355`). -/
def remove (view : ByteView) (table : TableName) (key : List UInt8) : ByteView :=
  ⟨Function.update view.table table (AList.erase key (view.table table))⟩

section Reads

variable [Primitives]

/-- `get_utxo` (`utxo.rs:17-26`). -/
def getUtxo (view : ByteView) (outpoint : OutPoint) : Except StorageError (Option UTXO) := do
  let value ← view.get .utxo utxoCodec (encodeUtxoKey outpoint)
  failIf (value.any fun utxo => utxo.txid ≠ outpoint.txid ∨ utxo.vout ≠ outpoint.vout)
    (.corruption s!"UTXO value does not match key {outpoint}")
  return value

/-- The set that `addresses` holds for an address, or an empty one. -/
def members (view : ByteView) (address : AccountAddress) : Except StorageError (List OutPoint) := do
  return (← view.get .addresses outPointCodec.vector address.bytes).getD []

/-- `get_block_hash_by_height` (`blocks.rs:10-23`). -/
def getBlockHashByHeight (view : ByteView) (height : UInt64) :
    Except StorageError (Option BlockHash) :=
  match view.rawGet .heights (heightKey height) with
  | none => .ok none
  | some bytes => do
      let hash ← (Hash.tryFrom .block bytes).mapError fun _ =>
        .corruption s!"Invalid block hash at height {height}"
      return some hash

/-- `get_block_header_by_hash` (`blocks.rs:57-72`): the header is read from the front. -/
def getBlockHeaderByHash (view : ByteView) (hash : BlockHash) :
    Except StorageError (Option BlockHeader) :=
  match view.rawGet .blocks hash.bytes with
  | none => .ok none
  | some bytes => do
      let header ← okOr (blockHeaderCodec.fromBytes bytes) (.corruption "Invalid blocks value")
      (verifyGenesisHeaderWorkShape header).mapError fun error => .corruption error.message
      return some header

/-- `get_block_index` (`blocks.rs:74-76`). -/
def getBlockIndex (view : ByteView) (hash : BlockHash) :
    Except StorageError (Option BlockIndexData) := do
  return (← view.get .blockIndexes blockIndexCodec hash.bytes).map BlockIndexData.ofFields

/-- `chain_state` (`stats.rs:5-7`). -/
def chainState (view : ByteView) : Except StorageError (Option ChainState) := do
  return (← view.get .stats chainStateCodec stateKey).map ChainState.ofFields

/-- `metadata` (`stats.rs:9-11`). -/
def metadata (view : ByteView) : Except StorageError (Option ChainMetadata) :=
  view.get .metadata chainMetadataCodec metadataKey

/-- `get_block_undo` (`undo.rs:7-9`). -/
def getBlockUndo (view : ByteView) (hash : BlockHash) : Except StorageError (Option BlockUndo) :=
  view.get .undo blockUndoCodec hash.bytes

/-- `get_block_by_hash` (`blocks.rs:25-37`). -/
def getBlockByHash (view : ByteView) (hash : BlockHash) : Except StorageError (Option Block) := do
  match ← view.get .blocks blockCodec hash.bytes with
  | none => return none
  | some block =>
      (verifyGenesisWorkShape block).mapError fun error => .corruption error.message
      failIf (block.blockHash ≠ hash) (.corruption s!"Block body does not match key {hash}")
      return some block

/-- `get_block_by_height` (`blocks.rs:39-55`). -/
def getBlockByHeight (view : ByteView) (height : UInt64) : Except StorageError (Option Block) := do
  match ← view.getBlockHashByHeight height with
  | none => return none
  | some hash =>
      let block ← okOr (← view.getBlockByHash hash)
        (.corruption s!"Height {height} references absent block {hash}")
      failIf (block.header.height ≠ height)
        (.corruption s!"Height {height} references a block at height {block.header.height}")
      return some block

/-- One outpoint of the loop of `get_utxos_for_address` (`utxo.rs:36-51`). -/
def fetchOwned (view : ByteView) (address : AccountAddress) (utxos : Table OutPoint UTXO)
    (outpoint : OutPoint) : Except StorageError (Table OutPoint UTXO) := do
  let utxo ← okOr (← view.getUtxo outpoint)
    (.corruption s!"Address {address} references missing UTXO {outpoint}")
  failIf (utxo.owner ≠ address)
    (.corruption s!"Address {address} references UTXO owned by {utxo.owner}")
  return AList.insert outpoint utxo utxos

/-- `get_utxos_for_address` (`utxo.rs:28-53`). -/
def getUtxosForAddress (view : ByteView) (address : AccountAddress) :
    Except StorageError (Table OutPoint UTXO) := do
  (iter (← view.members address)).foldlM (view.fetchOwned address) ∅

/-- `get_transaction` (`blocks.rs:78-122`). -/
def getTransaction (view : ByteView) (hash : TransactionHash) :
    Except StorageError (Option ConfirmedTransaction) := do
  match ← view.get .transactionIndexes transactionIndexCodec hash.bytes with
  | none => return none
  | some location =>
      let block ← okOr (← view.getBlockByHash location.blockHash)
        (.corruption s!"Transaction {hash} references absent block {location.blockHash}")
      failIf (block.header.height ≠ location.blockHeight)
        (.corruption s!"Transaction {hash} height {location.blockHeight} disagrees with block {location.blockHash} height {block.header.height}")
      let transaction ← okOr
        ((block.data.transactions[location.txIndex.toNat]?).filter fun transaction =>
          transaction.data.hash = hash)
        (.corruption s!"Transaction {hash} does not match block {location.blockHash} index {location.txIndex}")
      return some { transaction, location }

end Reads

section Writes

variable [Primitives]

/-- The sets that a batch write has read or changed. -/
abbrev Memberships := Table AccountAddress (List OutPoint)

/-- `memberships.entry(address)`, filled from the stored set on first use. -/
def Memberships.entry (memberships : Memberships) (view : ByteView) (address : AccountAddress) :
    Except StorageError (List OutPoint) :=
  match memberships.read address with
  | some membership => .ok membership
  | none => view.members address

/-- `membership.remove(&outpoint)`, which must have been there. -/
def Memberships.leave (memberships : Memberships) (view : ByteView) (address : AccountAddress)
    (outpoint : OutPoint) : Except StorageError Memberships := do
  let membership ← memberships.entry view address
  failIf (outpoint ∉ membership) (.corruption s!"Address index is missing UTXO {outpoint}")
  return AList.insert address (membership.filter (· ≠ outpoint)) memberships

/-- `membership.insert(outpoint)`. -/
def Memberships.join (memberships : Memberships) (view : ByteView) (address : AccountAddress)
    (outpoint : OutPoint) : Except StorageError Memberships := do
  let membership ← memberships.entry view address
  return AList.insert address (List.insert outpoint membership) memberships

/-- The previous owner of an outpoint gives it up, when the owner changes. -/
def Memberships.moveOut (memberships : Memberships) (view : ByteView) (outpoint : OutPoint)
    (owner : AccountAddress) (previous : Option UTXO) : Except StorageError Memberships :=
  match previous with
  | none => .ok memberships
  | some previous =>
      if previous.owner ≠ owner then memberships.leave view previous.owner outpoint
      else .ok memberships

/-- One entry of `batch_put_utxos` (`write.rs:20-51`). -/
def putUtxo (state : ByteView × Memberships) (entry : OutPoint × UTXO) :
    Except StorageError (ByteView × Memberships) := do
  let (view, memberships) := state
  let (outpoint, utxo) := entry
  failIf (utxo.txid ≠ outpoint.txid ∨ utxo.vout ≠ outpoint.vout)
    (.invalidTransition s!"UTXO value does not match key {outpoint}")
  let previous ← view.getUtxo outpoint
  let memberships ← memberships.moveOut view outpoint utxo.owner previous
  let memberships ← memberships.join view utxo.owner outpoint
  return (view.put .utxo utxoCodec (encodeUtxoKey outpoint) utxo, memberships)

/-- One outpoint of `batch_remove_utxos` (`write.rs:63-80`). -/
def removeUtxo (state : ByteView × Memberships) (outpoint : OutPoint) :
    Except StorageError (ByteView × Memberships) := do
  let (view, memberships) := state
  let utxo ← okOr (← view.getUtxo outpoint) (.utxoNotFound outpoint)
  let memberships ← memberships.leave view utxo.owner outpoint
  return (view.remove .utxo (encodeUtxoKey outpoint), memberships)

/-- `put_block_undo` (`write.rs:188-190`): the members of the two sets in any order. -/
def putBlockUndo (view : ByteView) (hash : BlockHash) (undo : BlockUndo) : ByteView :=
  view.put .undo blockUndoCodec hash.bytes ⟨iter undo.spentUtxos, iter undo.createdOutpoints⟩

/-- `put_chain_state` (`write.rs:192-194`). -/
def putChainState (view : ByteView) (state : ChainState) : ByteView :=
  view.put .stats chainStateCodec stateKey state.fields

/-- `put_metadata` (`write.rs:196-198`). -/
def putMetadata (view : ByteView) (metadata : ChainMetadata) : ByteView :=
  view.put .metadata chainMetadataCodec metadataKey metadata

/-- One set of the closing loop of both batch writes: its members are written in any order. -/
def putMembership (view : ByteView) (entry : AccountAddress × List OutPoint) : ByteView :=
  view.put .addresses outPointCodec.vector entry.1.bytes (iter entry.2)

/-- The closing loop of both batch writes. -/
def putMemberships (view : ByteView) (memberships : Memberships) : ByteView :=
  (iter memberships.toPairs).foldl putMembership view

/-- `batch_put_utxos` (`write.rs:14-58`). -/
def batchPutUtxos (view : ByteView) (utxos : List (OutPoint × UTXO)) :
    Except StorageError ByteView := do
  let (view, memberships) ← utxos.foldlM putUtxo (view, ∅)
  return view.putMemberships memberships

/-- `batch_remove_utxos` (`write.rs:61-88`). -/
def batchRemoveUtxos (view : ByteView) (outpoints : List OutPoint) :
    Except StorageError ByteView := do
  let (view, memberships) ← outpoints.foldlM removeUtxo (view, ∅)
  return view.putMemberships memberships

/-- The locator of one transaction of `put_block`. -/
def putLocator (block : Block) (view : ByteView) (entry : Transaction × Nat) :
    Except StorageError ByteView := do
  failIf (2 ^ 32 ≤ entry.2) (.invalidTransition "Transaction index exceeds u32")
  let location : TransactionIndexData :=
    ⟨block.blockHash, block.header.height, UInt32.ofNat entry.2⟩
  return view.put .transactionIndexes transactionIndexCodec entry.1.data.hash.bytes location

/-- `put_block` (`write.rs:92-145`). -/
def putBlock (view : ByteView) (block : Block) (index : BlockIndexData) :
    Except StorageError ByteView := do
  let hash := block.blockHash
  failIf ((← view.getBlockByHash hash).any fun saved => saved ≠ block)
    (.corruption s!"Different block bodies share hash {hash}")
  failIf ((← view.getBlockIndex hash).any fun saved => saved ≠ index)
    (.corruption s!"Branch work index for block {hash} changed")
  failIf ((← view.getBlockHashByHeight block.header.height).any fun saved => saved ≠ hash)
    (.invalidTransition s!"Height {block.header.height} is already canonical")
  let view := view.put .blocks blockCodec hash.bytes block
  let view := view.put .blockIndexes blockIndexCodec hash.bytes index.fields
  let view := view.putRaw .heights (heightKey block.header.height) hash.bytes
  block.data.transactions.zipIdx.foldlM (putLocator block) view

/-- One transaction of a detached block (`write.rs:156-182`). -/
def removeLocator (block : Block) (view : ByteView) (transaction : Transaction) :
    Except StorageError ByteView := do
  let hash := transaction.data.hash
  match ← view.get .transactionIndexes transactionIndexCodec hash.bytes with
  | none => return view
  | some location =>
      if location.blockHash ≠ block.blockHash then
        let _ ← view.getTransaction hash
        return view
      else
        let indexed := block.data.transactions[location.txIndex.toNat]?
        failIf (location.blockHeight ≠ block.header.height ∨
            indexed.all fun transaction => transaction.data.hash ≠ hash)
          (.corruption s!"Transaction {hash} does not match detached block {location.blockHash} index {location.txIndex}")
        return view.remove .transactionIndexes hash.bytes

/-- `remove_canonical_block` (`write.rs:147-186`). -/
def removeCanonicalBlock (view : ByteView) (block : Block) : Except StorageError ByteView := do
  failIf ((← view.getBlockHashByHeight block.header.height) ≠ some block.blockHash)
    (.corruption s!"Canonical mapping for block {block.blockHash} disagrees")
  block.data.transactions.foldlM (removeLocator block)
    (view.remove .heights (heightKey block.header.height))

end Writes

end ByteView

instance [Primitives] : FullNodeStorage ByteView where
  getUtxo := ByteView.getUtxo
  getUtxosForAddress := ByteView.getUtxosForAddress
  getBlockHashByHeight := ByteView.getBlockHashByHeight
  getBlockByHash := ByteView.getBlockByHash
  getBlockByHeight := ByteView.getBlockByHeight
  getBlockHeaderByHash := ByteView.getBlockHeaderByHash
  getBlockIndex := ByteView.getBlockIndex
  getTransaction := ByteView.getTransaction
  chainState := ByteView.chainState
  metadata := ByteView.metadata
  getBlockUndo := ByteView.getBlockUndo
  batchPutUtxos := ByteView.batchPutUtxos
  batchRemoveUtxos := ByteView.batchRemoveUtxos
  initial := .empty
  putBlock := ByteView.putBlock
  removeCanonicalBlock := ByteView.removeCanonicalBlock
  putBlockUndo view hash undo := .ok (view.putBlockUndo hash undo)
  putChainState view state := .ok (view.putChainState state)
  putMetadata view chainMetadata := .ok (view.putMetadata chainMetadata)
  checkSchema chainMetadata :=
    failIf (chainMetadata.schemaVersion ≠ storageSchemaVersion)
      (.unsupportedSchema chainMetadata.schemaVersion)

end StryiChain
