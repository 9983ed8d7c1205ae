import StryiChain.Storage.Lockstep
import StryiChain.Storage.Open
import StryiChain.Storage.Rowwise

/-!
# The database as rows (`stryi_storage/src/{lib,open}.rs`)

Opening a database reads its rows too, some of them through iterators. Every call on the rows, from
a newly created database on, has the result that it has on the decoded tables, and a call that
fails leaves both as they were.
-/

namespace StryiChain

/-- `TABLES` (`lib.rs:50-60`), in their order. -/
def TableName.all : List TableName :=
  [.blocks, .heights, .utxo, .addresses, .stats, .undo, .blockIndexes, .transactionIndexes,
    .metadata]

/-- `u64::from_be_bytes`, of eight bytes. -/
def u64FromBeBytes (key : List UInt8) : Option UInt64 :=
  if key.length = 8 then some (UInt64.ofNat (Nat.ofDigits 256 (key.reverse.map UInt8.toNat)))
  else none

theorem u64FromBeBytes_heightKey (height : UInt64) :
    u64FromBeBytes (heightKey height) = some height := by
  have fits : height.toNat < (2 ^ 8) ^ 8 := height.toNat_lt
  rw [u64FromBeBytes, heightKey, if_pos (length_beBytes 8 _), beBytes, List.reverse_reverse,
    ofDigits_leBytes fits, UInt64.ofNat_toNat]

namespace ByteView

/-- `iterator_cf` from the start of a family. -/
def firstRow (view : ByteView) (table : TableName) : Option (List UInt8 × List UInt8) :=
  (view.table table).inOrder.head?

/-- `iterator_cf` from the end of a family. -/
def lastRow (view : ByteView) (table : TableName) : Option (List UInt8 × List UInt8) :=
  (view.table table).inOrder.getLast?

/-- `verify_pre_genesis_tables_empty` (`open.rs:157-173`). -/
def verifyPreGenesisTablesEmpty (view : ByteView) : Except StorageError Unit :=
  TableName.all.forM fun table =>
    failIf (view.firstRow table).isSome
      (.corruption "Storage has data without genesis metadata and chain state")

variable [Primitives]

/-- `verify_initialization_records` (`open.rs:140-155`). -/
def verifyInitializationRecords (view : ByteView) :
    Except StorageError (Option (ChainMetadata × ChainState)) := do
  let metadata ← view.metadata
  let state ← view.chainState
  match metadata, state with
  | none, none =>
      view.verifyPreGenesisTablesEmpty
      return none
  | some metadata, some state => return some (metadata, state)
  | _, _ => .error (.corruption "Genesis metadata and chain state must be committed together")

/-- `verify_highest_canonical_height` (`open.rs:218-238`). -/
def verifyHighestCanonicalHeight (view : ByteView) (tipHeight : UInt64) :
    Except StorageError Unit := do
  let row ← okOr (view.lastRow .heights)
    (.corruption "Initialized storage has no canonical heights")
  let highest ← okOr (u64FromBeBytes row.1) (.corruption "Invalid canonical height key")
  failIf (highest ≠ tipHeight) (.corruption "Canonical heights extend beyond the saved tip")

/-- `metadata_for_genesis` (`open.rs:85-103`), at a reading of the local clock. -/
def metadataForGenesis (view : ByteView) (nowSecs : UInt64) :
    Except StorageError ChainMetadata := do
  match ← view.metadata with
  | some metadata => return metadata
  | none =>
      let createdUnixTs ← okOr (i64TryFrom nowSecs)
        (.invalidTransition "Local clock exceeds i64")
      return ⟨storageSchemaVersion, "dev", 1, createdUnixTs⟩

/-- `verify_genesis_index` (`open.rs:176-196`). -/
def verifyGenesisIndex (view : ByteView) : Except StorageError Unit := do
  let genesis ← okOr (← view.getBlockByHeight 0)
    (.corruption "Initialized storage has no genesis")
  (validateGenesis genesis).mapError fun error =>
    .corruption s!"Saved genesis is invalid: {error.display}"
  let index ← okOr (← view.getBlockIndex .empty) (.corruption "Genesis index is absent")
  failIf (index.height ≠ 0 ∨ index.parentHash ≠ .empty ∨ index.chainWork ≠ 0)
    (.corruption "Genesis index does not match genesis")

/-- `verify_canonical_tip` (`open.rs:198-216`). -/
def verifyCanonicalTip (view : ByteView) (state : ChainState) : Except StorageError Unit := do
  let tip ← okOr (← view.getBlockByHeight state.latestBlock.1)
    (.corruption "Canonical tip height is absent")
  let index ← okOr (← view.getBlockIndex state.latestBlock.2)
    (.corruption "Canonical tip index is absent")
  failIf (tip.blockHash ≠ state.latestBlock.2 ∨ tip.header.height ≠ state.latestBlock.1 ∨
      index.height ≠ state.latestBlock.1 ∨ index.parentHash ≠ tip.header.previousBlockHash ∨
      index.chainWork ≠ state.chainWork ∨
      checkedAdd state.latestBlock.1 1 ≠ some state.blocksCount)
    (.corruption "Canonical tip, index and chain state disagree")

/-- `verify_initialized_state` (`open.rs:106-121`). -/
def verifyInitializedState (view : ByteView) : Except StorageError Unit := do
  match ← view.verifyInitializationRecords with
  | none => return ()
  | some (metadata, state) =>
      failIf (metadata.schemaVersion ≠ storageSchemaVersion)
        (.unsupportedSchema metadata.schemaVersion)
      view.verifyGenesisIndex
      view.verifyCanonicalTip state
      view.verifyHighestCanonicalHeight state.latestBlock.1

/-- `initialize_in_path` (`open.rs:24-55`) on the rows of the database. -/
def initializeInPath (view : ByteView) (genesisConfig : Option GenesisInitConfig)
    (nowSecs : UInt64) : Except StorageError ByteView := do
  let genesis := genesisConfig.map GenesisInitConfig.genesis
  match genesis with
  | some block => validateGenesis block
  | none => .ok ()
  view.verifyInitializedState
  match genesis with
  | some block =>
      let metadata ← view.metadataForGenesis nowSecs
      let (_, view) ← commitTransition view (.genesis block metadata)
      return view
  | none => return view

end ByteView

section Open

variable {bytes : ByteView} {view : RocksView}

theorem isEmpty_keys {K V : Type} [DecidableEq K] (t : Table K V) :
    t.keys.isEmpty = true ↔ ∀ k, t.read k = none := by
  rw [List.isEmpty_iff, List.eq_nil_iff_forall_not_mem]
  apply forall_congr'
  intro k
  rw [Table.mem_keys_iff, Option.eq_none_iff_forall_ne_some, not_exists]

theorem firstRow_eq_none {table : TableName} :
    bytes.firstRow table = none ↔ ∀ name, (bytes.table table).read name = none := by
  rw [ByteView.firstRow, List.head?_eq_none_iff]
  exact Rows.inOrder_eq_nil

namespace Stores

variable [Primitives]

/-- A family is found empty when its table is. -/
theorem tablesEmpty_iff (stores : Stores bytes view) :
    view.tablesEmpty = true ↔ ∀ table ∈ TableName.all, bytes.firstRow table = none := by
  simp only [TableName.all, List.forall_mem_cons, firstRow_eq_none, stores.utxo.blank_iff,
    stores.addresses.blank_iff, stores.blocks.blank_iff, stores.heights.blank_iff,
    stores.blockIndexes.blank_iff, stores.transactionIndexes.blank_iff, stores.undo.blank_iff,
    stores.stats.blank_iff, stores.metadata.blank_iff, RocksView.tablesEmpty, Bool.and_eq_true,
    isEmpty_keys, Option.isNone_iff_eq_none]
  constructor
  · rintro ⟨⟨⟨⟨⟨⟨⟨⟨blocks, heights⟩, utxo⟩, addresses⟩, stats⟩, undo⟩, indexes⟩, locators⟩, saved⟩
    exact ⟨blocks, heights, utxo, addresses, fun _ => stats, undo, indexes, locators,
      fun _ => saved, nofun⟩
  · rintro ⟨blocks, heights, utxo, addresses, stats, undo, indexes, locators, saved, -⟩
    exact ⟨⟨⟨⟨⟨⟨⟨⟨blocks, heights⟩, utxo⟩, addresses⟩, stats ()⟩, undo⟩, indexes⟩, locators⟩,
      saved ()⟩

/-- The last row of `heights` has the greatest height. -/
theorem lastRow_heights (stores : Stores bytes view) :
    (bytes.lastRow .heights = none ∧ view.highestKey = none) ∨
      ∃ row height, bytes.lastRow .heights = some row ∧ u64FromBeBytes row.1 = some height ∧
        view.highestKey = some height.toNat := by
  cases last : bytes.lastRow .heights with
  | none =>
    have blank := stores.heights.blank_iff.mp
      (Rows.inOrder_eq_nil.mp (List.getLast?_eq_none_iff.mp last))
    have nothing : view.heights.keys = [] :=
      List.isEmpty_iff.mp ((isEmpty_keys view.heights).mpr blank)
    exact .inl ⟨rfl, by rw [RocksView.highestKey, nothing]; rfl⟩
  | some row =>
    have found : (bytes.table .heights).read row.1 = some row.2 :=
      Rows.mem_inOrder.mp (List.mem_of_getLast? last)
    obtain ⟨height, hash, named, bound, -⟩ := stores.heights.of_read found
    refine .inr ⟨row, height, rfl, named ▸ u64FromBeBytes_heightKey height, ?_⟩
    rw [RocksView.highestKey, List.max?_eq_some_iff]
    constructor
    · exact List.mem_map_of_mem (Table.mem_keys_iff.mpr ⟨hash, bound⟩)
    · intro n mem
      obtain ⟨other, listed, rfl⟩ := List.mem_map.mp mem
      obtain ⟨hash', bound'⟩ := Table.mem_keys_iff.mp listed
      obtain ⟨value, found', -⟩ := stores.heights.read_some bound'
      have below := Rows.le_getLast last found'
      rw [← named] at below
      -- a greater height would have a greater key
      by_contra above
      have less := Rows.beBytes_lt_beBytes (n := 8) (Nat.lt_of_not_le above) other.toNat_lt
      exact absurd below (List.not_le.mpr less)

theorem verifyHighestCanonicalHeight_eq (stores : Stores bytes view) (tipHeight : UInt64) :
    bytes.verifyHighestCanonicalHeight tipHeight =
      view.verifyHighestCanonicalHeight tipHeight := by
  unfold ByteView.verifyHighestCanonicalHeight RocksView.verifyHighestCanonicalHeight
  rcases stores.lastRow_heights with ⟨last, highest⟩ | ⟨row, height, last, read, highest⟩
  · rw [last, highest]
    rfl
  · rw [last, highest, okOr_some, bind_ok, read, okOr_some, bind_ok, okOr_some, bind_ok]
    have same : height ≠ tipHeight ↔ height.toNat ≠ tipHeight.toNat :=
      not_congr UInt64.toNat_inj.symm
    simp only [same]

theorem verifyPreGenesisTablesEmpty_eq (stores : Stores bytes view) :
    bytes.verifyPreGenesisTablesEmpty = view.verifyPreGenesisTablesEmpty := by
  rw [ByteView.verifyPreGenesisTablesEmpty, RocksView.verifyPreGenesisTablesEmpty, forM_failIf]
  have same : (∃ table ∈ TableName.all, (bytes.firstRow table).isSome = true) ↔
      view.tablesEmpty = false := by
    rw [← Bool.not_eq_true, stores.tablesEmpty_iff]
    simp only [Option.isSome_iff_ne_none, not_forall, exists_prop, ne_eq]
  simp only [same]

theorem verifyInitializationRecords_eq (stores : Stores bytes view) :
    bytes.verifyInitializationRecords = view.verifyInitializationRecords := by
  rw [ByteView.verifyInitializationRecords, stores.metadata_eq, stores.chainState_eq, bind_ok,
    bind_ok, stores.verifyPreGenesisTablesEmpty_eq]
  rfl

theorem metadataForGenesis_eq (stores : Stores bytes view) (nowSecs : UInt64) :
    bytes.metadataForGenesis nowSecs = view.metadataForGenesis nowSecs := by
  rw [ByteView.metadataForGenesis, stores.metadata_eq, bind_ok]
  rfl

theorem verifyGenesisIndex_eq (stores : Stores bytes view) :
    bytes.verifyGenesisIndex = view.verifyGenesisIndex := by
  rw [ByteView.verifyGenesisIndex, stores.getBlockByHeight_eq, stores.getBlockIndex_eq]
  rfl

theorem verifyCanonicalTip_eq (stores : Stores bytes view) (state : ChainState) :
    bytes.verifyCanonicalTip state = view.verifyCanonicalTip state := by
  rw [ByteView.verifyCanonicalTip, stores.getBlockByHeight_eq, stores.getBlockIndex_eq]
  rfl

theorem verifyInitializedState_eq (stores : Stores bytes view) :
    bytes.verifyInitializedState = view.verifyInitializedState := by
  simp only [ByteView.verifyInitializedState, stores.verifyInitializationRecords_eq,
    stores.verifyGenesisIndex_eq, stores.verifyCanonicalTip_eq,
    stores.verifyHighestCanonicalHeight_eq]
  rfl

end Stores

end Open

section Filed

variable [Primitives] {bytes : ByteView} {view view' : RocksView}

namespace RocksView

omit [Primitives] in
/-- A batch whose loop ends has keyed entries. -/
theorem putUtxos_keyed {entries : List (OutPoint × UTXO)} {state state' : RocksView × Memberships}
    (run : entries.foldlM putUtxo state = .ok state') : ∀ entry ∈ entries, Keyed entry := by
  induction entries generalizing state with
  | nil => exact fun _ mem => absurd mem List.not_mem_nil
  | cons entry entries ih =>
    rw [List.foldlM_cons, bind_eq_ok] at run
    obtain ⟨middle, first, rest⟩ := run
    intro other mem
    rcases List.mem_cons.mp mem with rfl | later
    · simp only [putUtxo, bind_eq_ok, failIf_eq_ok, not_or, not_not] at first
      obtain ⟨-, keyed, -⟩ := first
      exact keyed
    · exact ih rest other later

omit [Primitives] in
/-- A batch whose loop ends has removed distinct outputs, all of which were there. -/
theorem removeUtxos_legal {outpoints : List OutPoint} {memberships : Memberships}
    {state' : RocksView × Memberships} (keyed : view.tables.utxo.WellKeyed)
    (mirrors : view.Mirrors memberships)
    (run : outpoints.foldlM removeUtxo (view, memberships) = .ok state') :
    outpoints.Nodup ∧ ∀ o ∈ outpoints, view.utxo.read o ≠ none := by
  induction outpoints generalizing view memberships with
  | nil => exact ⟨List.nodup_nil, fun _ mem => absurd mem List.not_mem_nil⟩
  | cons o os ih =>
    have present : ∀ other ∈ o :: os, view.utxo.read other ≠ none := by
      intro other mem absent
      obtain ⟨error, failed⟩ := removeUtxos_absent memberships mem absent
      rw [failed] at run
      cases run
    obtain ⟨middle, first, mirrors'⟩ :=
      removeUtxo_ok keyed (present o List.mem_cons_self) mirrors
    rw [List.foldlM_cons, first, bind_ok] at run
    have keyed' : Coins.WellKeyed (tables { view with
        utxo := AList.erase o view.utxo }).utxo := wellKeyed_erase keyed
    obtain ⟨distinct, still⟩ := ih keyed' mirrors' run
    refine ⟨List.nodup_cons.mpr ⟨fun again => still o again ?_, distinct⟩, present⟩
    -- an output that was removed is not there a second time
    show Table.read (AList.erase o view.utxo) o = none
    rw [Table.read_erase, Function.update_self]

/-- Every batch that succeeds leaves an index of the outputs. -/
theorem Indexed.batchPutUtxos {entries : List (OutPoint × UTXO)} (indexed : view.Indexed)
    (run : view.batchPutUtxos entries = .ok view') : view'.Indexed := by
  have loop := run
  rw [RocksView.batchPutUtxos, bind_eq_ok] at loop
  obtain ⟨state, ended, -⟩ := loop
  obtain ⟨addresses, done, indexed'⟩ := batchPutUtxos_indexed indexed (putUtxos_keyed ended)
  rw [done] at run
  cases run
  exact indexed'

theorem Indexed.batchRemoveUtxos {outpoints : List OutPoint} (indexed : view.Indexed)
    (run : view.batchRemoveUtxos outpoints = .ok view') : view'.Indexed := by
  have loop := run
  rw [RocksView.batchRemoveUtxos, bind_eq_ok] at loop
  obtain ⟨state, ended, -⟩ := loop
  have start : view.Mirrors ∅ := indexed.addresses
  obtain ⟨distinct, present⟩ := removeUtxos_legal indexed.keyed start ended
  obtain ⟨addresses, done, indexed'⟩ := batchRemoveUtxos_indexed indexed distinct present
  rw [done] at run
  cases run
  exact indexed'

omit [Primitives] in
/-- A write that leaves the two families alone. -/
theorem Indexed.congr (indexed : view.Indexed) (utxo : view'.utxo = view.utxo)
    (addresses : view'.addresses = view.addresses) : view'.Indexed := by
  refine ⟨by rw [utxo]; exact indexed.keyed, fun address o => ?_⟩
  unfold RocksView.members RocksView.Owns
  rw [utxo, addresses]
  exact indexed.addresses address o

end RocksView

/-- The rows of a decoded view whose address index mirrors its outputs. -/
structure Filed (bytes : ByteView) (view : RocksView) : Prop where
  stores : Stores bytes view
  indexed : view.Indexed

theorem filed_empty : Filed .empty .empty := by
  refine ⟨stores_empty, ⟨?_, ?_⟩⟩
  · intro o u present
    cases present
  · intro address o
    constructor
    · intro mem
      cases mem
    · intro owns
      obtain ⟨u, present, -⟩ := owns
      cases present

/-- The rows and the decoded tables go in lockstep. -/
theorem filed_lockstep : Lockstep ByteView RocksView Filed where
  initial := filed_empty
  checkSchema _ := rfl
  getUtxo_eq filed := filed.stores.getUtxo_eq
  getBlockHashByHeight_eq filed := filed.stores.getBlockHashByHeight_eq
  getBlockByHash_eq filed := filed.stores.getBlockByHash_eq
  getBlockByHeight_eq filed := filed.stores.getBlockByHeight_eq
  getBlockHeaderByHash_eq filed := filed.stores.getBlockHeaderByHash_eq
  getBlockIndex_eq filed := filed.stores.getBlockIndex_eq
  getBlockIndex_fits {bytes view} filed hash index read := by
    have found : bytes.getBlockIndex hash = .ok (some index) := read
    rw [filed.stores.getBlockIndex_eq, Except.ok.injEq] at found
    obtain ⟨-, -, fits, -⟩ := filed.stores.blockIndexes.read_some found
    exact fits
  chainState_eq filed := filed.stores.chainState_eq
  metadata_eq filed := filed.stores.metadata_eq
  batchPutUtxos filed utxos :=
    (filed.stores.batchPutUtxos_agree utxos).strengthen.mono fun _ _ both =>
      ⟨both.1, filed.indexed.batchPutUtxos both.2.2⟩
  batchRemoveUtxos filed outpoints :=
    (filed.stores.batchRemoveUtxos_agree outpoints).strengthen.mono fun _ _ both =>
      ⟨both.1, filed.indexed.batchRemoveUtxos both.2.2⟩
  putBlock filed block _ fits :=
    (filed.stores.putBlock_agree block fits).strengthen.mono fun _ _ both => by
      obtain ⟨stores, -, run⟩ := both
      obtain rfl := RocksView.putBlock_stored run
      exact ⟨stores, filed.indexed.congr rfl rfl⟩
  removeCanonicalBlock filed block :=
    (filed.stores.removeCanonicalBlock_agree block).strengthen.mono fun _ _ both => by
      obtain ⟨stores, -, run⟩ := both
      obtain ⟨addresses, utxo, -⟩ := RocksView.removeCanonicalBlock_tables run
      exact ⟨stores, filed.indexed.congr utxo addresses⟩
  putBlockUndo filed hash undo :=
    .ok ⟨filed.stores.insertUndo hash undo, filed.indexed.congr rfl rfl⟩
  putChainState filed _ fits := .ok ⟨filed.stores.putChainState fits, filed.indexed.congr rfl rfl⟩
  putMetadata filed chainMetadata :=
    .ok ⟨filed.stores.putMetadata chainMetadata, filed.indexed.congr rfl rfl⟩

/-- Opening a database. -/
theorem initializeInPath_agree (filed : Filed bytes view) (genesisConfig : Option GenesisInitConfig)
    (nowSecs : UInt64) :
    Agree Filed (bytes.initializeInPath genesisConfig nowSecs)
      (view.initializeInPath genesisConfig nowSecs) := by
  cases genesisConfig with
  | none =>
    apply Agree.bind_same
    intro _ _
    apply Agree.bind_eq filed.stores.verifyInitializedState_eq
    intro _ _
    exact .ok filed
  | some config =>
    apply Agree.bind_same
    intro _ _
    apply Agree.bind_eq filed.stores.verifyInitializedState_eq
    intro _ _
    apply Agree.bind_eq (filed.stores.metadataForGenesis_eq nowSecs)
    intro metadata _
    apply Agree.bind (filed_lockstep.commitTransition_agree filed (.genesis config.genesis metadata))
    intro a b beside
    exact .ok beside.2

end Filed

section Sessions

/-- A call on the database of a node: a transition, or another opening of it. -/
inductive StorageCall where
  | applyTransition (transition : ChainTransition)
  | initializeInPath (genesisConfig : Option GenesisInitConfig) (nowSecs : UInt64)

variable [Primitives] {S T : Type}

/-- The answer of a call: an opening only says that it has succeeded. -/
abbrev CallAnswer := Option ChainTransitionResult

def ByteView.call (view : ByteView) : StorageCall → Except StorageError (CallAnswer × ByteView)
  | .applyTransition transition => do
      let (result, view) ← commitTransition view transition
      return (some result, view)
  | .initializeInPath genesisConfig nowSecs => do
      return (none, ← view.initializeInPath genesisConfig nowSecs)

def RocksView.call (view : RocksView) : StorageCall → Except StorageError (CallAnswer × RocksView)
  | .applyTransition transition => do
      let (result, view) ← commitTransition view transition
      return (some result, view)
  | .initializeInPath genesisConfig nowSecs => do
      return (none, ← view.initializeInPath genesisConfig nowSecs)

/-- Calls one after another, with their answers. The rows are written when a call succeeds. -/
def session (call : S → StorageCall → Except StorageError (CallAnswer × S)) :
    S → List StorageCall → List (Except StorageError CallAnswer) × S
  | storage, [] => ([], storage)
  | storage, request :: requests =>
      match call storage request with
      | .ok (answer, next) =>
          let (answers, last) := session call next requests
          (.ok answer :: answers, last)
      | .error error =>
          let (answers, last) := session call storage requests
          (.error error :: answers, last)

omit [Primitives] in
/-- Two storages whose calls agree give the same answers all along. -/
theorem session_agree {R : S → T → Prop}
    {call : S → StorageCall → Except StorageError (CallAnswer × S)}
    {call' : T → StorageCall → Except StorageError (CallAnswer × T)}
    (one : ∀ s t, R s t → ∀ request, Agree (Lockstep.Beside R) (call s request) (call' t request))
    {s : S} {t : T} (related : R s t) (requests : List StorageCall) :
    Lockstep.Beside R (session call s requests) (session call' t requests) := by
  induction requests generalizing s t with
  | nil => exact ⟨rfl, related⟩
  | cons request requests ih =>
    have step := one s t related request
    rw [session, session]
    cases h : call s request with
    | error error =>
      rw [step.error_iff.mp h]
      obtain ⟨same, last⟩ := ih related
      exact ⟨congrArg _ same, last⟩
    | ok next =>
      rw [h] at step
      obtain ⟨next', done, same, related'⟩ := step.ok_exists
      rw [done]
      obtain ⟨answers, last⟩ := ih related'
      refine ⟨?_, last⟩
      show Except.ok next.1 :: _ = Except.ok next'.1 :: _
      rw [same, answers]

theorem call_agree {bytes : ByteView} {view : RocksView} (filed : Filed bytes view)
    (request : StorageCall) :
    Agree (Lockstep.Beside Filed) (bytes.call request) (view.call request) := by
  cases request with
  | applyTransition transition =>
    apply Agree.bind (filed_lockstep.commitTransition_agree filed transition)
    intro a b beside
    exact .ok ⟨congrArg some beside.1, beside.2⟩
  | initializeInPath genesisConfig nowSecs =>
    apply Agree.bind (initializeInPath_agree filed genesisConfig nowSecs)
    intro bytes view filed
    exact .ok ⟨rfl, filed⟩

/-- The rows of a database after a session. -/
theorem session_filed (requests : List StorageCall) :
    Lockstep.Beside Filed (session ByteView.call .empty requests)
      (session RocksView.call .empty requests) :=
  session_agree (fun _ _ filed request => call_agree filed request) filed_empty requests

/-- Every read of the rows answers as the decoded tables do. -/
structure AnswersAs (bytes : ByteView) (view : RocksView) : Prop where
  getUtxo : ∀ outpoint, bytes.getUtxo outpoint = view.getUtxo outpoint
  getUtxosForAddress : ∀ address, ∃ found found',
    bytes.getUtxosForAddress address = .ok found ∧
      view.getUtxosForAddress address = .ok found' ∧ found.read = found'.read
  getBlockHashByHeight : ∀ height,
    bytes.getBlockHashByHeight height = .ok (view.heights.read height)
  getBlockByHash : ∀ hash, bytes.getBlockByHash hash = view.getBlockByHash hash
  getBlockByHeight : ∀ height, bytes.getBlockByHeight height = view.getBlockByHeight height
  getBlockHeaderByHash : ∀ hash,
    bytes.getBlockHeaderByHash hash = view.getBlockHeaderByHash hash
  getBlockIndex : ∀ hash, bytes.getBlockIndex hash = .ok (view.blockIndexes.read hash)
  getTransaction : ∀ hash, bytes.getTransaction hash = view.getTransaction hash
  getBlockUndo : ∀ hash, ∃ found, bytes.getBlockUndo hash = .ok found ∧
    Option.Rel SameUndo found (view.undo.read hash)
  chainState : bytes.chainState = .ok view.stats
  metadata : bytes.metadata = .ok view.metadata

theorem Filed.answersAs {bytes : ByteView} {view : RocksView} (filed : Filed bytes view) :
    AnswersAs bytes view where
  getUtxo := filed.stores.getUtxo_eq
  getUtxosForAddress := filed.stores.getUtxosForAddress_same filed.indexed
  getBlockHashByHeight := filed.stores.getBlockHashByHeight_eq
  getBlockByHash := filed.stores.getBlockByHash_eq
  getBlockByHeight := filed.stores.getBlockByHeight_eq
  getBlockHeaderByHash := filed.stores.getBlockHeaderByHash_eq
  getBlockIndex := filed.stores.getBlockIndex_eq
  getTransaction := filed.stores.getTransaction_eq
  getBlockUndo := filed.stores.getBlockUndo_same
  chainState := filed.stores.chainState_eq
  metadata := filed.stores.metadata_eq

/-- Whatever transitions and openings a new database sees, its rows give the answers that the
decoded tables give, are the encodings of what these hold and nothing else, and are read back as
these are. -/
theorem rows_refine (requests : List StorageCall) :
    (session ByteView.call .empty requests).1 = (session RocksView.call .empty requests).1 ∧
      Stores (session ByteView.call .empty requests).2 (session RocksView.call .empty requests).2 ∧
      AnswersAs (session ByteView.call .empty requests).2
        (session RocksView.call .empty requests).2 := by
  obtain ⟨answers, filed⟩ := session_filed requests
  exact ⟨answers, filed.stores, filed.answersAs⟩

/-- Whatever transitions and openings a new database sees, valid or not, its address rows find
exactly the stored outputs of each owner. -/
theorem rows_index_owners (requests : List StorageCall) (address : AccountAddress) :
    ∃ found, (session ByteView.call .empty requests).2.getUtxosForAddress address = .ok found ∧
      ∀ outpoint utxo, found.read outpoint = some utxo ↔
        (session ByteView.call .empty requests).2.getUtxo outpoint = .ok (some utxo) ∧
          utxo.owner = address := by
  obtain ⟨-, filed⟩ := session_filed requests
  obtain ⟨found, found', read, read', same⟩ :=
    filed.stores.getUtxosForAddress_same filed.indexed address
  obtain ⟨all, run, owners⟩ := RocksView.getUtxosForAddress_ok filed.indexed address
  refine ⟨found, read, fun outpoint utxo => ?_⟩
  rw [run, Except.ok.injEq] at read'
  rw [same, ← read', owners, filed.stores.getUtxo_eq, RocksView.getUtxo_ok filed.indexed.keyed,
    Except.ok.injEq]

end Sessions

end StryiChain
