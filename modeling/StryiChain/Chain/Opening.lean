import StryiChain.Chain.Run
import StryiChain.Storage.Addresses
import StryiChain.Storage.Open

/-!
# Opening the storage of a node

An empty storage opens for every fit configuration, and holds its balances afterwards. A committed
genesis fixes the chain that a storage belongs to: whatever the engine has done to the storage
since, it opens again, and it opens for the balances and parameters it was made from and for no
others. Opening it changes nothing then.
-/

namespace StryiChain

open LawfulStorage StryiConsensusEngine

section Metadata

variable [Primitives] {DB : Type} [FullNodeStorage DB] [LawfulStorage DB]
  {engine engine' : StryiConsensusEngine DB} {g b : Block} {w w' : List Block} {nowSecs : UInt64}

/-- No move of the chain touches the metadata. -/
theorem Moves.metadata (moves : Moves engine nowSecs b w engine' w') :
    (tables engine'.db).metadata = (tables engine.db).metadata := by
  cases moves with
  | stays same => rw [same]
  | grows follows appended =>
    rw [appended]
    rfl
  | @switches p q bs lca overtakes below branch heavier room reorganized =>
    rw [reorganized]
    exact ((Tables.attachAll_frame _ p (bs ++ [b])).2.2).trans
      (Tables.detachAll_frame _ q).2.2.2.2.2

/-- A run keeps the invariant and the metadata. -/
theorem Invariant.run_metadata (inv : Invariant g engine w) (deliveries : List Delivery) :
    ∃ w', Invariant g (deliverAll engine deliveries) w' ∧
      (tables (deliverAll engine deliveries).db).metadata = (tables engine.db).metadata := by
  induction deliveries generalizing engine w with
  | nil => exact ⟨w, inv, rfl⟩
  | cons delivery deliveries ih =>
    obtain ⟨w', inv', moves⟩ := inv.deliver delivery
    obtain ⟨w'', last, kept⟩ := ih inv'
    exact ⟨w'', last, kept.trans moves.metadata⟩

end Metadata

section Genesis

variable [Primitives] {DB : Type} [FullNodeStorage DB] [LawfulStorage DB] {db db' : DB}
  {g block : Block} {w : List Block} {saved chainMetadata : ChainMetadata}

/-- The metadata name the same chain; the time of creation does not matter. -/
structure SameIdentity (chainMetadata saved : ChainMetadata) : Prop where
  schema : saved.schemaVersion = chainMetadata.schemaVersion
  name : saved.chainName = chainMetadata.chainName
  version : saved.protocolVersion = chainMetadata.protocolVersion

/-- A committed genesis was valid, and its schema was checked. -/
theorem genesis_checked {result : ChainTransitionResult}
    (run : commitTransition (StorageWrite.initial : DB) (.genesis g chainMetadata) =
      .ok (result, db)) :
    FullNodeStorage.checkSchema DB chainMetadata = .ok () ∧ validateGenesis g = .ok () := by
  have start := initial_sound (S := DB)
  have empty := initial_tables (S := DB)
  simp only [commitTransition, applyTransition, chainState_eq start, empty, Tables.empty, bind_ok,
    stageGenesis, bind_eq_ok, pure_eq_ok, Prod.exists, Prod.mk.injEq] at run
  obtain ⟨⟨⟩, schema, staged, view, ⟨⟨⟩, valid, -⟩, -⟩ := run
  exact ⟨schema, valid⟩

/-- Genesis is accepted again on an initialized storage if it is the stored one and names the same
chain, and changes nothing then. -/
theorem commitGenesis_again (sound : Sound db) (chain : IsChain w)
    (represents : Represents (tables db) w) (first : w[0]? = some g)
    (named : (tables db).metadata = some saved) :
    (∃ result, commitTransition db (.genesis block chainMetadata) = .ok (result, db')) ↔
      FullNodeStorage.checkSchema DB chainMetadata = .ok () ∧ validateGenesis block = .ok () ∧
        block = g ∧ SameIdentity chainMetadata saved ∧ db' = db := by
  obtain ⟨state, hstate⟩ := exists_stateOf chain
  have height : g.header.height = 0 := by
    rw [← UInt64.toNat_inj, UInt64.toNat_zero]
    exact chain.height first
  have mapped := represents.holds.get_height chain first
  rw [height] at mapped
  have genesis : getBlockByHeight db 0 = .ok (some g) :=
    getBlockByHeight_some sound mapped (represents.holds.body g (List.mem_of_getElem? first)) height
  have current := verifyCurrentState_ok sound chain represents hstate
  have initialized : chainState db = .ok (some state) := by
    rw [chainState_eq sound, represents.state, hstate]
  simp only [commitTransition, applyTransition, initialized, bind_ok, stageGenesis, reopenGenesis,
    genesis, okOr_some, metadata_eq sound, named, current, bind_eq_ok, pure_eq_ok, failIf_eq_ok,
    Prod.exists, Prod.mk.injEq, not_or, not_not]
  constructor
  · rintro ⟨result, ⟨⟩, schema, staged, view, ⟨⟨⟩, valid, ⟨⟩, ⟨same, identity⟩, -, rfl⟩, -, rfl⟩
    exact ⟨schema, valid, same.symm, ⟨identity.1, identity.2.1, identity.2.2⟩, rfl⟩
  · rintro ⟨schema, valid, rfl, identity, rfl⟩
    exact ⟨_, (), schema, ⟨state, []⟩, _, ⟨(), valid, (),
      ⟨rfl, identity.schema, identity.name, identity.version⟩, rfl, rfl⟩, rfl, rfl⟩

end Genesis

section Open

variable [Primitives] {view : RocksView} {g : Block} {w : List Block} {saved : ChainMetadata}

/-- The last key of `heights` is the height of the tip. -/
theorem highestKey_eq (chain : IsChain w) (holds : Holds view.tables w) (fits : w.length < 2 ^ 64) :
    view.highestKey = some (w.length - 1) := by
  have key : ∀ height : UInt64, height ∈ view.heights.keys ↔ height.toNat < w.length := by
    intro height
    have read : view.heights.read height = (w[height.toNat]?).map Block.blockHash :=
      holds.height height
    rw [Table.mem_keys_iff, read]
    constructor
    · rintro ⟨hash, found⟩
      obtain ⟨b, at_b, -⟩ := Option.map_eq_some_iff.mp found
      exact (List.getElem?_eq_some_iff.mp at_b).1
    · intro inside
      exact ⟨_, by rw [List.getElem?_eq_getElem inside, Option.map_some]⟩
  have pos := chain.length_pos
  rw [RocksView.highestKey, List.max?_eq_some_iff]
  constructor
  · apply List.mem_map.mpr
    refine ⟨UInt64.ofNat (w.length - 1), (key _).mpr ?_, ?_⟩ <;>
      rw [toNat_ofNat_u64 (by omega)]
    omega
  · intro height mem
    obtain ⟨height, inside, rfl⟩ := List.mem_map.mp mem
    have bound := (key height).mp inside
    omega

/-- A storage that represents a chain above a valid genesis passes the checks of an opening. -/
theorem verifyInitializedState_ok (sound : view.Sound) (chain : IsChain w)
    (represents : Represents view.tables w) (first : w[0]? = some g)
    (valid : validateGenesis g = .ok ()) (named : view.metadata = some saved)
    (schema : saved.schemaVersion = storageSchemaVersion) :
    view.verifyInitializedState = .ok () := by
  obtain ⟨state, hstate⟩ := exists_stateOf chain
  obtain ⟨tip, last, latest, count, work⟩ := stateOf_eq_some hstate
  have fits := represents.fits
  have holds := represents.holds
  have top := chain.tip_height last
  have stored : view.stats = some state := represents.state.trans hstate
  have block_at : ∀ {height : UInt64} {b : Block}, w[height.toNat]? = some b →
      view.getBlockByHeight height = .ok (some b) := by
    intro height b at_height
    have number : b.header.height = height := UInt64.toNat_inj.mp (chain.height at_height)
    have mapped := holds.get_height chain at_height
    rw [number] at mapped
    exact getBlockByHeight_some (S := RocksView) sound mapped
      (holds.body b (List.mem_of_getElem? at_height)) number
  have genesis : view.verifyGenesisIndex = .ok () := by
    have shape := validateGenesis_shape valid
    have index : view.blockIndexes.read g.blockHash =
        some (BlockIndexData.of g (chainWork (w.take 1))) := holds.index first
    have hash : g.blockHash = .empty := by
      rw [Block.blockHash, shape.marker]
      rfl
    have start : chainWork (w.take 1) = 0 := by
      rw [List.take_add_one, first]
      simp [GenesisShape.work shape.marker]
    have parent : g.header.previousBlockHash = .empty := by
      have fields := shape.shape
      simp only [verifyGenesisWorkShape, verifyGenesisHeaderWorkShape, failIf_eq_ok, shape.marker,
        true_and, not_or, not_not] at fields
      exact fields.2.1
    rw [hash, start] at index
    rw [RocksView.verifyGenesisIndex, block_at (show w[(0 : UInt64).toNat]? = some g from first)]
    simp [valid, index, BlockIndexData.of, shape.height, parent]
  have canonical : view.verifyCanonicalTip state = .ok () := by
    have at_top : w[tip.header.height.toNat]? = some tip := by
      rw [List.getLast?_eq_getElem?, ← top, Nat.add_sub_cancel] at last
      exact last
    have index : view.blockIndexes.read tip.blockHash =
        some (BlockIndexData.of tip (chainWork (w.take (tip.header.height.toNat + 1)))) :=
      holds.index at_top
    rw [top, List.take_length] at index
    have room : checkedAdd tip.header.height 1 = some (UInt64.ofNat w.length) := by
      rw [checkedAdd_eq_some, toNat_ofNat_u64 (by omega), UInt64.toNat_one, top]
    rw [RocksView.verifyCanonicalTip, latest, block_at at_top]
    simp [index, BlockIndexData.of, work, count, room]
  have heights : view.verifyHighestCanonicalHeight state.latestBlock.1 = .ok () := by
    rw [RocksView.verifyHighestCanonicalHeight, highestKey_eq chain holds fits, latest]
    simp
    omega
  simp [RocksView.verifyInitializedState, RocksView.verifyInitializationRecords, named, stored,
    schema, genesis, canonical, heights]

end Open

section Create

variable [Primitives] {DB : Type} [FullNodeStorage DB] [LawfulStorage DB] {g : Block}
  {chainMetadata : ChainMetadata}

/-- A new storage accepts every valid genesis block. -/
theorem commitGenesis_ok (schema : FullNodeStorage.checkSchema DB chainMetadata = .ok ())
    (valid : validateGenesis g = .ok ()) :
    ∃ result db, commitTransition (StorageWrite.initial : DB) (.genesis g chainMetadata) =
      .ok (result, db) := by
  have genesis := validateGenesis_shape valid
  have start := initial_sound (S := DB)
  have empty := initial_tables (S := DB)
  have state : chainState (StorageWrite.initial : DB) = .ok none := by
    rw [chainState_eq start, empty]
    rfl
  have unnamed : metadata (StorageWrite.initial : DB) = .ok none := by
    rw [metadata_eq start, empty]
    rfl
  have blank : getBlockByHeight (StorageWrite.initial : DB) 0 = .ok none :=
    getBlockByHeight_none start (by rw [empty]; rfl)
  have accepts : (tables (StorageWrite.initial : DB)).Accepts g
      ⟨g.header.previousBlockHash, 0, 0⟩ := by
    obtain ⟨tx, single, -⟩ := genesis.transaction
    rw [empty]
    refine ⟨?_, ?_, ?_, by simp [single]⟩ <;>
    · intro saved found
      cases found
  obtain ⟨stored, put⟩ := putBlock_ok start accepts
  obtain ⟨soundStored, -⟩ := putBlock_eq_ok start genesis.shape put
  obtain ⟨applied, apply, soundApplied, -⟩ :=
    applyBlock_tables_ok soundStored (genesis.applicable _)
  obtain ⟨saved, save, soundSaved, -⟩ := putMetadata_ok chainMetadata soundApplied
  obtain ⟨last, finish, -, -⟩ := putChainState_ok
    (⟨(0, g.blockHash), g.header.timestamp, 1, 0⟩ : ChainState) soundSaved
  refine ⟨⟨(0, g.blockHash), 0, []⟩, last, ?_⟩
  simp [commitTransition, schema, applyTransition, state, stageGenesis, valid, unnamed, blank, put,
    apply, save, finish]

end Create

section Balances

variable [Primitives] {config : GenesisInitConfig} {nowSecs : UInt64} {db : RocksView}

omit [Primitives] in
/-- Positions below 2^32 keep their outputs apart. -/
theorem nodup_truncated (txid : TransactionHash) {n : Nat} (fits : n ≤ 2 ^ 32) :
    ((List.range n).map fun index => (⟨txid, UInt32.ofNat index⟩ : OutPoint)).Nodup := by
  apply List.Nodup.map_on _ List.nodup_range
  intro i hi j hj same
  rw [List.mem_range] at hi hj
  have index : UInt32.ofNat i = UInt32.ofNat j := congrArg OutPoint.vout same
  rw [← UInt32.toNat_inj, UInt32.toNat_ofNat', UInt32.toNat_ofNat', Nat.mod_eq_of_lt (by omega),
    Nat.mod_eq_of_lt (by omega)] at index
  exact index

/-- The outputs of a transaction stand under different outpoints, as long as their indices fit. -/
theorem Transaction.nodup_createdUtxos {tx : Transaction} (fits : tx.data.outputs.length ≤ 2 ^ 32) :
    (tx.createdUtxos.map Prod.fst).Nodup := by
  have keys : tx.createdUtxos.map Prod.fst = (List.range tx.data.outputs.length).map
      fun index => (⟨tx.data.hash, UInt32.ofNat index⟩ : OutPoint) := by
    rw [List.range_eq_range', ← List.zipIdx_map_snd 0 tx.data.outputs, createdUtxos, List.map_map,
      List.map_map]
    rfl
  rw [keys]
  exact nodup_truncated tx.data.hash fits

/-- The outputs of a new chain are those of its configuration. -/
theorem ledger_newGenesis (fits : config.wantedBalances.toPairs.length ≤ 2 ^ 32)
    (genesis : GenesisShape config.genesis) :
    ∃ tx : Transaction, tx.data.outputs = genesisOutputs config.wantedBalances ∧
      (tx.createdUtxos.map Prod.fst).Nodup ∧
      ∀ o u, Coins.ledger [config.genesis] o = some u ↔ (o, u) ∈ tx.createdUtxos := by
  let tx : Transaction :=
    ⟨⟨config.version, .genesis, [], genesisOutputs config.wantedBalances⟩, ⟨0⟩⟩
  have count : tx.data.outputs.length ≤ 2 ^ 32 := by
    have length : (genesisOutputs config.wantedBalances).length =
        config.wantedBalances.toPairs.length := by
      rw [genesisOutputs, List.length_map, List.length_mergeSort, (iter_perm _).length_eq]
    exact length ▸ fits
  have distinct := Transaction.nodup_createdUtxos count
  refine ⟨tx, rfl, distinct, fun o u => ?_⟩
  have created : config.genesis.created = Table.insertAll tx.createdUtxos ∅ := by
    rw [(scan_block genesis.external).2, show config.genesis.data.transactions = [tx] from rfl,
      List.flatMap_singleton]
  have ledger : Coins.ledger [config.genesis] = (Table.insertAll tx.createdUtxos ∅).read := by
    funext o
    have nothing : o ∉ config.genesis.external := fun mem =>
      (genesis.applicable fun _ => none).2 o mem rfl
    rw [Coins.ledger, Coins.applyAll_cons, Coins.applyAll_nil, Coins.apply_apply_eq, created,
      eraseAll_of_notMem nothing, Option.or_none]
  rw [ledger, Table.read_insertAll_empty distinct]

/-- What an address owns on a new chain. -/
theorem newGenesis_owned (fits : config.wantedBalances.toPairs.length ≤ 2 ^ 32)
    (genesis : GenesisShape config.genesis) (address : AccountAddress)
    {found : Table OutPoint UTXO}
    (owned : ∀ o u, found.read o = some u ↔
      Coins.ledger [config.genesis] o = some u ∧ u.owner = address) :
    (found.toPairs.map fun entry => entry.2.value) =
      (config.wantedBalances.read address).toList := by
  obtain ⟨tx, outputs, distinct, ledger⟩ := ledger_newGenesis fits genesis
  have created : ∀ o u, (o, u) ∈ tx.createdUtxos → ∃ i output,
      (genesisOutputs config.wantedBalances)[i]? = some output ∧
        o = ⟨tx.data.hash, UInt32.ofNat i⟩ ∧
        u = ⟨tx.data.hash, UInt32.ofNat i, output.value, output.recipient⟩ := by
    intro o u mem
    obtain ⟨⟨output, i⟩, at_i, same⟩ := List.mem_map.mp mem
    rw [Prod.mk.injEq] at same
    exact ⟨i, output, outputs ▸ List.mem_zipIdx_iff_getElem?.mp at_i, same.1.symm, same.2.symm⟩
  cases bound : config.wantedBalances.read address with
  | none =>
    have nothing : found.toPairs = [] := by
      apply Table.toPairs_of_blank
      intro o
      rw [Option.eq_none_iff_forall_ne_some]
      intro u stored
      obtain ⟨mem, owner⟩ := (owned o u).mp stored
      obtain ⟨i, output, at_i, -, rfl⟩ := created o u ((ledger o u).mp mem)
      have paid := mem_genesisOutputs.mp (List.mem_of_getElem? at_i)
      rw [show output.recipient = address from owner, bound] at paid
      cases paid
    rw [nothing]
    rfl
  | some balance =>
    have paid : (⟨balance, address⟩ : TransactionOut) ∈ genesisOutputs config.wantedBalances :=
      mem_genesisOutputs.mpr bound
    obtain ⟨i, at_i⟩ := List.mem_iff_getElem?.mp paid
    -- Every account is paid once, so that the position is the only one with this recipient.
    have single : found.toPairs = [(⟨tx.data.hash, UInt32.ofNat i⟩,
        ⟨tx.data.hash, UInt32.ofNat i, balance, address⟩)] := by
      apply Table.toPairs_of_single
      intro o u
      rw [owned, ledger]
      constructor
      · rintro ⟨mem, owner⟩
        obtain ⟨j, output, at_j, rfl, rfl⟩ := created o u mem
        have same : j = i := by
          have recipients := nodup_recipients config.wantedBalances
          have inside : j < ((genesisOutputs config.wantedBalances).map
              TransactionOut.recipient).length := by
            rw [List.length_map]
            exact (List.getElem?_eq_some_iff.mp at_j).1
          apply (List.getElem?_inj inside recipients).mp
          rw [List.getElem?_map, List.getElem?_map, at_i, at_j, Option.map_some, Option.map_some]
          exact congrArg some owner
        subst same
        rw [at_i, Option.some.injEq] at at_j
        rw [← at_j]
        exact ⟨rfl, rfl⟩
      · rintro ⟨rfl, rfl⟩
        refine ⟨List.mem_map.mpr ⟨(⟨balance, address⟩, i), ?_, rfl⟩, rfl⟩
        exact List.mem_zipIdx_iff_getElem?.mpr (outputs ▸ at_i)
    rw [single]
    rfl

omit [Primitives] in
/-- The metadata of a new database. -/
theorem metadataForGenesis_empty {chainMetadata : ChainMetadata} :
    RocksView.empty.metadataForGenesis nowSecs = .ok chainMetadata ↔ nowSecs.toNat < 2 ^ 63 ∧
      chainMetadata = ⟨storageSchemaVersion, "dev", 1, Int64.ofNat nowSecs.toNat⟩ := by
  simp only [RocksView.metadataForGenesis, RocksView.empty, bind_eq_ok, okOr_eq_ok, pure_eq_ok]
  by_cases clock : nowSecs.toNat < 2 ^ 63
  · rw [i64TryFrom, if_pos clock, eq_comm]
    simp only [Option.some.injEq, exists_eq_left', clock, true_and]
  · rw [i64TryFrom, if_neg clock]
    simp only [clock, reduceCtorEq, false_and, exists_false]

/-- A new database that was initialized holds the genesis block of its configuration. -/
theorem initialize_eq_ok
    (initialized : RocksView.empty.initializeInPath (some config) nowSecs = .ok db) :
    ∃ chainMetadata result, chainMetadata.schemaVersion = storageSchemaVersion ∧
      commitTransition (StorageWrite.initial : RocksView) (.genesis config.genesis chainMetadata) =
        .ok (result, db) := by
  simp only [RocksView.initializeInPath, Option.map_some, bind_eq_ok, pure_eq_ok,
    Prod.exists] at initialized
  obtain ⟨-, -, -, -, chainMetadata, named, result, view, committed, rfl⟩ := initialized
  obtain ⟨-, rfl⟩ := metadataForGenesis_empty.mp named
  exact ⟨_, result, rfl, committed⟩

/-- A storage is made exactly when the clock fits, the proof of work is valid and there are
positive balances. The index of addresses then finds one output with the balance of each configured
account, and nothing for anyone else. -/
theorem initializes_iff (config : GenesisInitConfig) (nowSecs : UInt64)
    (fits : config.wantedBalances.toPairs.length ≤ 2 ^ 32) :
    ((∃ db, RocksView.empty.initializeInPath (some config) nowSecs = .ok db) ↔
      nowSecs.toNat < 2 ^ 63 ∧ config.genesisState.consensusConsts.pow.validate = .ok () ∧
        (∃ address balance, config.wantedBalances.read address = some balance) ∧
          ∀ address balance, config.wantedBalances.read address = some balance → balance ≠ 0) ∧
    ∀ db, RocksView.empty.initializeInPath (some config) nowSecs = .ok db → ∀ address,
      ∃ found, db.getUtxosForAddress address = .ok found ∧
        (found.toPairs.map fun entry => entry.2.value) =
          (config.wantedBalances.read address).toList := by
  have blank : RocksView.empty.verifyInitializedState = .ok () := by
    simp [RocksView.verifyInitializedState, RocksView.verifyInitializationRecords,
      RocksView.verifyPreGenesisTablesEmpty, RocksView.tablesEmpty, RocksView.empty]
  have valid : validateGenesis config.genesis = .ok () ↔ _ := validateGenesis_newGenesis
  constructor
  · rw [← valid]
    constructor
    · rintro ⟨db, opened⟩
      simp only [RocksView.initializeInPath, Option.map_some, bind_eq_ok] at opened
      obtain ⟨⟨⟩, passes, -, -, chainMetadata, named, -⟩ := opened
      exact ⟨(metadataForGenesis_empty.mp named).1, passes⟩
    · rintro ⟨clock, passes⟩
      have named := metadataForGenesis_empty.mpr ⟨clock, rfl⟩
      have schema : FullNodeStorage.checkSchema RocksView
          ⟨storageSchemaVersion, "dev", 1, Int64.ofNat nowSecs.toNat⟩ = .ok () := rfl
      obtain ⟨result, db, committed⟩ := commitGenesis_ok schema passes
      have committed' : commitTransition RocksView.empty _ = .ok (result, db) := committed
      exact ⟨db, by
        simp [RocksView.initializeInPath, passes, blank, named, committed']⟩
  · intro db opened address
    obtain ⟨chainMetadata, result, -, committed⟩ := initialize_eq_ok opened
    obtain ⟨genesis, sound, tables'⟩ := genesis_eq_ok committed
    obtain ⟨found, run, owned⟩ :=
      RocksView.getUtxosForAddress_ok (RocksView.Sound.indexed sound) address
    have ledger : db.utxo.read = Coins.ledger [config.genesis] := congrArg Tables.utxo tables'
    rw [ledger] at owned
    exact ⟨found, run, newGenesis_owned fits genesis address owned⟩

end Balances

namespace Sample

/-- The configuration of the sample chain. -/
def launchConfig : GenesisInitConfig := ⟨AList.insert ⟨7⟩ 1000 ∅, ⟨consts⟩, 1⟩

end Sample

open Sample in
/-- The account of the sample finds its balance. -/
theorem initializes_iff_sample : ∃ db,
    RocksView.empty.initializeInPath (some launchConfig) 0 = .ok db ∧
      ∃ found, db.getUtxosForAddress ⟨7⟩ = .ok found ∧
        (found.toPairs.map fun entry => entry.2.value) = [1000] := by
  obtain ⟨created, balances⟩ := initializes_iff launchConfig 0 (by decide)
  obtain ⟨db, opened⟩ := created.mpr ⟨by decide, by decide +kernel, ⟨⟨7⟩, 1000, rfl⟩, by
    intro address balance bound
    rw [launchConfig, Table.read_insert] at bound
    by_cases same : address = ⟨7⟩
    · rw [same, Function.update_self, Option.some.injEq] at bound
      rw [← bound]
      decide
    · rw [Function.update_of_ne same, Table.read_empty] at bound
      cases bound⟩
  exact ⟨db, opened, balances db opened ⟨7⟩⟩

section Reopen

variable [Primitives] {config : GenesisInitConfig} {nowSecs : UInt64} {db : RocksView}
  {engine : StryiConsensusEngine RocksView} {consensusConsts : ConsensusConsts}
  {blockValidator : BlockValidator}

/-- Whatever has been delivered to a node since its storage was initialized, the storage opens
again. It opens for a configuration if and only if this spells out the same version, parameters
and balances, and stays as it is. -/
theorem reopens_iff
    (initialized : RocksView.empty.initializeInPath (some config) nowSecs = .ok db)
    (started : StryiConsensusEngine.new consensusConsts blockValidator db = .ok engine)
    (deliveries : List Delivery) (nowSecs' : UInt64) :
    (deliverAll engine deliveries).db.initializeInPath none nowSecs' =
        .ok (deliverAll engine deliveries).db ∧
      ∀ config' db', (deliverAll engine deliveries).db.initializeInPath (some config') nowSecs' =
          .ok db' ↔
        (config'.version = config.version ∧
          config'.wantedBalances.read = config.wantedBalances.read ∧
          config'.genesisState = config.genesisState) ∧ db' = (deliverAll engine deliveries).db := by
  obtain ⟨chainMetadata, result, schema, committed⟩ := initialize_eq_ok initialized
  have launched : launch consensusConsts blockValidator config.genesis chainMetadata =
      .ok engine := by
    rw [launch, committed]
    exact started
  obtain ⟨checked, valid⟩ := genesis_checked committed
  obtain ⟨inv, -, tables'⟩ := Invariant.launched launched
  obtain ⟨w, reached, kept⟩ := inv.run_metadata deliveries
  have canonical := reached.canonical
  obtain ⟨rest, first⟩ := reached.first
  have bottom : w[0]? = some config.genesis := by rw [first]; rfl
  have named : (tables (deliverAll engine deliveries).db).metadata = some chainMetadata := by
    rw [kept, tables']
    rfl
  have saved : (deliverAll engine deliveries).db.metadata = some chainMetadata := named
  have verified := verifyInitializedState_ok canonical.sound canonical.chain canonical.represents
    bottom valid saved schema
  constructor
  · rw [RocksView.initializeInPath, Option.map_none, verified]
    rfl
  · intro config' db'
    have again : (∃ result', commitTransition (deliverAll engine deliveries).db
        (.genesis config'.genesis chainMetadata) = .ok (result', db')) ↔ _ :=
      commitGenesis_again canonical.sound canonical.chain canonical.represents bottom named
    have same : config'.genesis = config.genesis ↔ config'.version = config.version ∧
        config'.wantedBalances.read = config.wantedBalances.read ∧
        config'.genesisState = config.genesisState := Block.newGenesis_inj
    simp only [RocksView.initializeInPath, Option.map_some, verified, bind_ok,
      RocksView.metadataForGenesis, saved, bind_eq_ok, pure_eq_ok, Prod.exists]
    rw [← same]
    constructor
    · rintro ⟨⟨⟩, -, result', view, opened, rfl⟩
      obtain ⟨-, -, block, -, unchanged⟩ := again.mp ⟨result', opened⟩
      exact ⟨block, unchanged⟩
    · rintro ⟨block, unchanged⟩
      obtain ⟨result', opened⟩ := again.mpr ⟨checked, block ▸ valid, block, ⟨rfl, rfl, rfl⟩, unchanged⟩
      exact ⟨(), block ▸ valid, result', db', opened, rfl⟩

end Reopen

open Sample in
/-- A storage that was made, overtaken by a branch, and opened again, with the right balances and
with others. -/
theorem reopens_iff_sample : ∃ db engine,
    RocksView.empty.initializeInPath (some launchConfig) 0 = .ok db ∧
      StryiConsensusEngine.new consts validator db = .ok engine ∧
      (deliverAll engine ([rival, other, next].map call)).db.initializeInPath (some launchConfig) 5 =
        .ok (deliverAll engine ([rival, other, next].map call)).db ∧
      ¬ ∃ db', (deliverAll engine ([rival, other, next].map call)).db.initializeInPath
        (some { launchConfig with wantedBalances := AList.insert ⟨7⟩ 999 ∅ }) 5 = .ok db' := by
  have opened : (RocksView.empty.initializeInPath (some launchConfig) 0).toOption.any (fun db =>
      (StryiConsensusEngine.new consts validator db).toOption.any fun _ => true) = true := by
    decide +kernel
  obtain ⟨db, opened, started⟩ := exists_ok_of_any opened
  obtain ⟨engine, started, -⟩ := exists_ok_of_any started
  have again := (reopens_iff opened started ([rival, other, next].map call) 5).2
  refine ⟨db, engine, opened, started, (again launchConfig _).mpr ⟨⟨rfl, rfl, rfl⟩, rfl⟩, ?_⟩
  rintro ⟨db', different⟩
  have balances := ((again _ db').mp different).1.2.1
  have balance := congrFun balances ⟨7⟩
  revert balance
  decide

end StryiChain
