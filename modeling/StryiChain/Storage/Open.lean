import StryiChain.Storage.Genesis
import StryiChain.Storage.Rocks

/-!
# Opening a storage (`stryi_storage/src/open.rs`, `meta.rs`)

A database is checked before anything reads it: it is empty, or it has been initialized and its
genesis, its tip and its heights agree. The directory and its files are not modelled: a storage is
opened from its column families, of which `default` is always empty.
-/

namespace StryiChain

variable [Primitives]

/-- `GenesisInitConfig` (`stryi_storage/src/lib.rs:105-109`). -/
structure GenesisInitConfig where
  wantedBalances : Table AccountAddress UInt64
  genesisState : GenesisState
  version : UInt16

/-- The block that the configuration asks for. -/
def GenesisInitConfig.genesis (config : GenesisInitConfig) : Block :=
  Block.newGenesis config.version config.wantedBalances config.genesisState

/-- `StorageStatus` (`meta.rs:8-18`). -/
inductive StorageStatus where
  | noGenesis
  | initialized (chainName : String) (protocolVersion : UInt64) (createdUnixTs : Int64)
  deriving DecidableEq

/-- `status` (`meta.rs:23-32`). -/
def status {S : Type} [StorageRead S] (storage : S) : Except StorageError StorageStatus := do
  match ← metadata storage with
  | none => return .noGenesis
  | some metadata =>
      return .initialized metadata.chainName metadata.protocolVersion metadata.createdUnixTs

/-- `i64::try_from` of a number of seconds. -/
def i64TryFrom (seconds : UInt64) : Option Int64 :=
  if seconds.toNat < 2 ^ 63 then some (Int64.ofNat seconds.toNat) else none

/-- `Display for StorageError` (`storage/mod.rs:26-63`), without the sources of backend failures. -/
def StorageError.display : StorageError → String
  | .utxoNotFound outpoint => s!"UTXO {outpoint.debug} not found"
  | .blockNotFound hash => s!"Block {hash} not found"
  | .heightMissing height => s!"No block at height {height}"
  | .uninitialized => "Storage is not initialized"
  | .invalidRange start finish => s!"Invalid range: start={start}, end={finish}"
  | .invalidTransition details => s!"Invalid chain transition: {details}"
  | .unsupportedSchema version => s!"Unsupported storage schema {version}"
  | .corruption details => s!"Storage corruption: {details}"
  | .backend operation => s!"Storage operation {operation} failed"
  | .commit => "Storage commit failed"
  | .unhealthy => "Storage stopped after a previous failure"

namespace RocksView

/-- No column family but `default` has an entry. -/
def tablesEmpty (view : RocksView) : Bool :=
  view.blocks.keys.isEmpty && view.heights.keys.isEmpty && view.utxo.keys.isEmpty &&
    view.addresses.keys.isEmpty && view.stats.isNone && view.undo.keys.isEmpty &&
    view.blockIndexes.keys.isEmpty && view.transactionIndexes.keys.isEmpty && view.metadata.isNone

/-- `verify_pre_genesis_tables_empty` (`open.rs:154-171`). -/
def verifyPreGenesisTablesEmpty (view : RocksView) : Except StorageError Unit :=
  failIf (view.tablesEmpty = false)
    (.corruption "Storage has data without genesis metadata and chain state")

/-- `verify_initialization_records` (`open.rs:136-152`). -/
def verifyInitializationRecords (view : RocksView) :
    Except StorageError (Option (ChainMetadata × ChainState)) :=
  match view.metadata, view.stats with
  | none, none => do
      view.verifyPreGenesisTablesEmpty
      return none
  | some metadata, some state => .ok (some (metadata, state))
  | _, _ => .error (.corruption "Genesis metadata and chain state must be committed together")

/-- `verify_genesis_index` (`open.rs:173-193`). -/
def verifyGenesisIndex (view : RocksView) : Except StorageError Unit := do
  let genesis ← okOr (← view.getBlockByHeight 0)
    (.corruption "Initialized storage has no genesis")
  (validateGenesis genesis).mapError fun error =>
    .corruption s!"Saved genesis is invalid: {error.display}"
  let index ← okOr (view.blockIndexes.read .empty) (.corruption "Genesis index is absent")
  failIf (index.height ≠ 0 ∨ index.parentHash ≠ .empty ∨ index.chainWork ≠ 0)
    (.corruption "Genesis index does not match genesis")

/-- `verify_canonical_tip` (`open.rs:195-214`). -/
def verifyCanonicalTip (view : RocksView) (state : ChainState) : Except StorageError Unit := do
  let tip ← okOr (← view.getBlockByHeight state.latestBlock.1)
    (.corruption "Canonical tip height is absent")
  let index ← okOr (view.blockIndexes.read state.latestBlock.2)
    (.corruption "Canonical tip index is absent")
  failIf (tip.blockHash ≠ state.latestBlock.2 ∨ tip.header.height ≠ state.latestBlock.1 ∨
      index.height ≠ state.latestBlock.1 ∨ index.parentHash ≠ tip.header.previousBlockHash ∨
      index.chainWork ≠ state.chainWork ∨
      checkedAdd state.latestBlock.1 1 ≠ some state.blocksCount)
    (.corruption "Canonical tip, index and chain state disagree")

/-- The last key of `heights`: the keys are big-endian, so that their order is the numeric one. -/
def highestKey (view : RocksView) : Option Nat := (view.heights.keys.map UInt64.toNat).max?

/-- `verify_highest_canonical_height` (`open.rs:216-240`). -/
def verifyHighestCanonicalHeight (view : RocksView) (tipHeight : UInt64) :
    Except StorageError Unit := do
  let highest ← okOr view.highestKey
    (.corruption "Initialized storage has no canonical heights")
  failIf (highest ≠ tipHeight.toNat)
    (.corruption "Canonical heights extend beyond the saved tip")

/-- `verify_initialized_state` (`open.rs:98-113`). -/
def verifyInitializedState (view : RocksView) : Except StorageError Unit := do
  match ← view.verifyInitializationRecords with
  | none => return ()
  | some (metadata, state) =>
      failIf (metadata.schemaVersion ≠ storageSchemaVersion)
        (.unsupportedSchema metadata.schemaVersion)
      view.verifyGenesisIndex
      view.verifyCanonicalTip state
      view.verifyHighestCanonicalHeight state.latestBlock.1

/-- `metadata_for_genesis` (`open.rs:76-95`), at a reading of the local clock. -/
def metadataForGenesis (view : RocksView) (nowSecs : UInt64) :
    Except StorageError ChainMetadata :=
  match view.metadata with
  | some metadata => .ok metadata
  | none => do
      let createdUnixTs ← okOr (i64TryFrom nowSecs)
        (.invalidTransition "Local clock exceeds i64")
      return ⟨storageSchemaVersion, "dev", 1, createdUnixTs⟩

/-- `initialize_in_path` (`open.rs:20-48`) on the column families of the database. -/
def initializeInPath (view : RocksView) (genesisConfig : Option GenesisInitConfig)
    (nowSecs : UInt64) : Except StorageError RocksView := do
  let genesis := genesisConfig.map GenesisInitConfig.genesis
  match genesis with
  | some block => validateGenesis block
  | none => .ok ()
  view.verifyInitializedState
  match genesis with
  | some block =>
      let metadata ← view.metadataForGenesis nowSecs
      let (_, view) ← commitTransition view (.genesis block metadata)
      return view
  | none => return view

end RocksView

end StryiChain
