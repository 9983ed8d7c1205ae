import StryiChain.Chain.Opening
import StryiChain.Node.Sync

/-!
# The genesis of a node (`bootstrap.rs`, `node/sync.rs`)

A node takes its genesis from its operator or from a peer, once. Every later candidate is compared
with the stored block and the identity of the chain, whatever the node has done in between, and the
rules that the engine enforces are read from the stored block.
-/

namespace StryiChain

open LawfulStorage StryiConsensusEngine

/-- `SaveOutcome` (`bootstrap.rs:26-30`). -/
inductive SaveOutcome where
  | alreadySaved
  | savedNow
  deriving DecidableEq

section Bootstrap

variable [Primitives] {DB : Type} [FullNodeStorage DB]

/-- `verify_saved_genesis` (`bootstrap.rs:102-127`): the stored time of creation is supplied. -/
def verifySavedGenesis (storage : DB) (block : Block) (chainName : String)
    (protocolVersion : UInt64) : Except StryiNodeError DB := do
  let savedMetadata ← okOr (← (metadata storage).mapError .storage)
    (.other "initialized storage has no metadata")
  let expectedMetadata := { savedMetadata with chainName, protocolVersion }
  let (_, storage) ← (commitTransition storage (.genesis block expectedMetadata)).mapError .storage
  return storage

/-- `save_genesis` (`bootstrap.rs:160-185`), at a reading of the local clock. -/
def saveGenesis (storage : DB) (block : Block) (chainName : String) (protocolVersion nowSecs : UInt64) :
    Except StryiNodeError DB := do
  let createdUnixTs ← okOr (i64TryFrom nowSecs) (.other "local clock exceeds metadata range")
  let metadata : ChainMetadata := ⟨storageSchemaVersion, chainName, protocolVersion, createdUnixTs⟩
  let (_, storage) ← (commitTransition storage (.genesis block metadata)).mapError .storage
  return storage

/-- `confirm_and_save` (`bootstrap.rs:62-100`); `accepted` is the answer of the operator, or
`accept_genesis`. -/
def confirmAndSave (storage : DB) (block : Block) (chainName : String) (protocolVersion : UInt64)
    (accepted : Bool) (nowSecs : UInt64) : Except StryiNodeError (SaveOutcome × DB) := do
  (validateGenesis block).mapError (.quoting "provided genesis candidate is invalid")
  match ← (status storage).mapError (.quoting "failed to probe storage meta") with
  | .initialized _ _ _ =>
      let storage ← verifySavedGenesis storage block chainName protocolVersion
      return (.alreadySaved, storage)
  | .noGenesis =>
      failIf (accepted = false) (.other "user rejected the provided genesis")
      let storage ← saveGenesis storage block chainName protocolVersion nowSecs
      return (.savedNow, storage)

/-- `build_consensus_constants` (`sync.rs:557-580`). -/
def buildConsensusConstants (storage : DB) : Except StryiNodeError ConsensusConsts := do
  let genesis ← okOr (← (getBlockByHeight storage 0).mapError (.quoting "get_block_by_height(0)"))
    (.other "genesis block not found in storage")
  failIf (genesis.header.isGenesis = false) (.other "block at height 0 is not marked as genesis")
  let genesisState ← okOr genesis.header.genesisState
    (.panicked "called Option::unwrap() on a None value")
  return genesisState.consensusConsts

/-- `build_consensus_engine` (`sync.rs:193-216`). -/
def buildConsensusEngine (storage : DB) : Except StryiNodeError (StryiConsensusEngine DB) := do
  let consensusConstants ← buildConsensusConstants storage
  let difficultyCalculator ← (DifficultyCalc.new consensusConstants.pow).mapError fun error =>
    .other s!"invalid pow params in genesis: {error.message}"
  let blockValidator : BlockValidator := ⟨consensusConstants, difficultyCalculator⟩
  (StryiConsensusEngine.new consensusConstants blockValidator storage).mapError .core

end Bootstrap

section Rebuild

variable [Primitives] {DB : Type} [FullNodeStorage DB] [LawfulStorage DB]
  {g : Block} {w : List Block} {engine : StryiConsensusEngine DB} {consts : ConsensusConsts}
  {validator : BlockValidator}

/-- An engine over the storage of another one that enforces the same rules starts with its chain and
without branches. -/
theorem Invariant.restarted (inv : Invariant g engine w)
    (rules : validator.consensusConsts = engine.blockValidator.consensusConsts) :
    ∃ engine', StryiConsensusEngine.new consts validator engine.db = .ok engine' ∧
      Invariant g engine' w ∧ engine'.db = engine.db ∧ engine'.forks = ∅ ∧
      engine'.blockValidator = validator := by
  have canonical := inv.canonical
  obtain ⟨index, built, indexOf⟩ :=
    buildChainIndex_ok canonical.sound canonical.chain canonical.represents
  refine ⟨⟨consts, validator, engine.db, ∅, index⟩, ?_, ?_, rfl, rfl, rfl⟩
  · rw [StryiConsensusEngine.new, built]
    rfl
  · exact ⟨⟨canonical.sound, canonical.chain, canonical.represents, indexOf, canonical.applies,
      canonical.below⟩, inv.genesis, inv.first, rules ▸ inv.admissible, RegistryOk.empty⟩

/-- The validator enforces the rules that the genesis block spells out. -/
structure EnforcesGenesis (g : Block) (validator : BlockValidator) : Prop where
  rules : g.header.genesisState = some ⟨validator.consensusConsts⟩
  pow : validator.difficultyCalc.params = validator.consensusConsts.pow

omit [Primitives] in
theorem EnforcesGenesis.calculator (enforces : EnforcesGenesis g validator) :
    DifficultyCalc.new validator.consensusConsts.pow = .ok validator.difficultyCalc := by
  obtain ⟨consensusConsts, ⟨params, valid⟩⟩ := validator
  obtain rfl : params = consensusConsts.pow := enforces.pow
  dsimp only
  unfold DifficultyCalc.new
  split
  · rfl
  · rename_i error failed
    rw [valid] at failed
    cases failed

/-- What a node reads of the rules of its chain. -/
theorem EnforcesGenesis.constants (enforces : EnforcesGenesis g validator) {s : DB} (sound : Sound s)
    (chain : IsChain w) (represents : Represents (tables s) w) (first : w[0]? = some g) :
    buildConsensusConstants s = .ok validator.consensusConsts := by
  have genesis : getBlockByHeight s 0 = .ok (some g) :=
    getBlockByHeight_of_represents sound chain represents first
  have marked : ¬ g.header.isGenesis = false := by
    simp [BlockHeader.isGenesis, enforces.rules]
  rw [buildConsensusConstants, genesis]
  simp only [mapError_ok, bind_ok, okOr_some, failIf_of_not _ marked, enforces.rules, pure_except]

/-- The engine that a node builds over a stored chain enforces the rules of its genesis block. -/
theorem buildConsensusEngine_eq {s : DB} (sound : Sound s) (chain : IsChain w)
    (represents : Represents (tables s) w) (first : w[0]? = some g)
    (enforces : EnforcesGenesis g validator) :
    buildConsensusEngine s =
      (StryiConsensusEngine.new validator.consensusConsts validator s).mapError .core := by
  rw [buildConsensusEngine, enforces.constants sound chain represents first, bind_ok,
    enforces.calculator]
  rfl

end Rebuild

section Life

variable [Primitives] {DB : Type} [FullNodeStorage DB] [LawfulStorage DB] {s s' : DB} {g : Block}
  {saved chainMetadata : ChainMetadata} {block : Block} {chainName : String}
  {protocolVersion nowSecs : UInt64} {accepted : Bool} {outcome : SaveOutcome}
  {deliveries : List Delivery}

/-- The storage of a node with a genesis: an engine that enforces its rules can have left it. -/
structure Keeps (g : Block) (saved : ChainMetadata) (s : DB) : Prop where
  engine : ∃ (engine : StryiConsensusEngine DB) (w : List Block), Invariant g engine w ∧
    engine.db = s ∧ EnforcesGenesis g engine.blockValidator
  named : (tables s).metadata = some saved
  schema : FullNodeStorage.checkSchema DB saved = .ok ()
  valid : validateGenesis g = .ok ()

omit [LawfulStorage DB] in
/-- A valid genesis block has rules to enforce. -/
theorem exists_enforces (valid : validateGenesis g = .ok ()) :
    ∃ validator, EnforcesGenesis g validator := by
  simp only [validateGenesis, bind_eq_ok, mapError_eq_ok, okOr_eq_ok] at valid
  obtain ⟨⟨⟩, shape, genesisState, marked, ⟨⟩, pow, rest⟩ := valid
  exact ⟨⟨genesisState.consensusConsts, ⟨genesisState.consensusConsts.pow, pow⟩⟩, marked, rfl⟩

/-- An engine can be started over a committed genesis. -/
theorem launch_of_committed {result : ChainTransitionResult}
    (run : commitTransition (StorageWrite.initial : DB) (.genesis g saved) = .ok (result, s))
    (validator : BlockValidator) :
    ∃ engine, launch validator.consensusConsts validator g saved = .ok engine ∧ engine.db = s ∧
      engine.blockValidator = validator := by
  obtain ⟨genesis, sound, tables'⟩ := genesis_eq_ok run
  have represents := genesis.represents saved
  rw [← tables'] at represents
  obtain ⟨index, built, -⟩ := buildChainIndex_ok sound genesis.isChain represents
  refine ⟨⟨validator.consensusConsts, validator, s, ∅, index⟩, ?_, rfl, rfl⟩
  rw [launch, run]
  simp only [mapError_ok, bind_ok, StryiConsensusEngine.new, built]
  rfl

/-- A committed genesis is kept. -/
theorem Keeps.committed {result : ChainTransitionResult}
    (run : commitTransition (StorageWrite.initial : DB) (.genesis g saved) = .ok (result, s)) :
    Keeps g saved s := by
  obtain ⟨schema, valid⟩ := genesis_checked run
  obtain ⟨validator, enforces⟩ := exists_enforces valid
  obtain ⟨engine, launched, storage, validator'⟩ := launch_of_committed run validator
  obtain ⟨inv, -, -⟩ := Invariant.launched launched
  obtain ⟨genesis, sound, tables'⟩ := genesis_eq_ok run
  refine ⟨⟨engine, [g], inv, storage, validator' ▸ enforces⟩, ?_, schema, valid⟩
  rw [tables']
  rfl

/-- Over a kept storage the node builds an engine with its chain. -/
theorem Keeps.builds (keeps : Keeps g saved s) :
    ∃ (engine : StryiConsensusEngine DB) (w : List Block), buildConsensusEngine s = .ok engine ∧
      Invariant g engine w ∧ engine.db = s ∧ EnforcesGenesis g engine.blockValidator := by
  obtain ⟨old, w, inv, rfl, enforces⟩ := keeps.engine
  obtain ⟨engine, built, inv', storage, -, validator⟩ :=
    inv.restarted rfl
  obtain ⟨rest, first⟩ := inv.first
  have canonical := inv.canonical
  refine ⟨engine, w, ?_, inv', storage, validator ▸ enforces⟩
  rw [buildConsensusEngine_eq canonical.sound canonical.chain canonical.represents
    (by rw [first]; rfl) enforces, built]
  rfl

/-- A session of the engine keeps genesis and metadata. -/
theorem Keeps.serves (keeps : Keeps g saved s) {engine : StryiConsensusEngine DB}
    (built : buildConsensusEngine s = .ok engine) (deliveries : List Delivery) :
    Keeps g saved (deliverAll engine deliveries).db := by
  obtain ⟨engine', w, built', inv, rfl, enforces⟩ := keeps.builds
  obtain rfl : engine' = engine := Except.ok.inj (built'.symm.trans built)
  obtain ⟨w', inv', kept⟩ := inv.run_metadata deliveries
  refine ⟨⟨_, w', inv', rfl, ?_⟩, kept.trans keeps.named, keeps.schema, keeps.valid⟩
  rw [deliverAll_blockValidator]
  exact enforces

/-- A kept storage accepts its own genesis and the identity it was saved under, and no other, and
stays as it is. -/
theorem Keeps.confirm_iff (keeps : Keeps g saved s) :
    confirmAndSave s block chainName protocolVersion accepted nowSecs = .ok (outcome, s') ↔
      (block = g ∧ chainName = saved.chainName ∧ protocolVersion = saved.protocolVersion) ∧
        outcome = .alreadySaved ∧ s' = s := by
  obtain ⟨engine, w, inv, rfl, enforces⟩ := keeps.engine
  have canonical := inv.canonical
  obtain ⟨rest, first⟩ := inv.first
  have stored : metadata engine.db = .ok (some saved) := by
    rw [metadata_eq canonical.sound, keeps.named]
  have known : status engine.db =
      .ok (.initialized saved.chainName saved.protocolVersion saved.createdUnixTs) := by
    rw [status, stored]
    rfl
  have again : (∃ result, commitTransition engine.db (.genesis block
      { saved with chainName, protocolVersion }) = .ok (result, s')) ↔ _ :=
    commitGenesis_again canonical.sound canonical.chain canonical.represents
      (by rw [first]; rfl) keeps.named
  simp only [confirmAndSave, known, verifySavedGenesis, stored, mapError_ok, bind_ok, okOr_some,
    bind_eq_ok, mapError_eq_ok, pure_eq_ok, Prod.exists, Prod.mk.injEq]
  constructor
  · rintro ⟨⟨⟩, -, storage, ⟨result, storage', committed, rfl⟩, rfl, rfl⟩
    obtain ⟨-, -, same, identity, rfl⟩ := again.mp ⟨result, committed⟩
    exact ⟨⟨same, identity.name.symm, identity.version.symm⟩, rfl, rfl⟩
  · rintro ⟨⟨rfl, rfl, rfl⟩, rfl, rfl⟩
    obtain ⟨result, committed⟩ := again.mpr
      ⟨keeps.schema, keeps.valid, rfl, ⟨rfl, rfl, rfl⟩, rfl⟩
    exact ⟨(), keeps.valid, engine.db, ⟨result, engine.db, committed, rfl⟩, rfl, rfl⟩

/-- What happens to the storage of a node: a candidate for the genesis block is offered, or an
engine is built over it and fed. -/
inductive LifeEvent where
  | confirm (block : Block) (chainName : String) (protocolVersion : UInt64) (accepted : Bool)
      (nowSecs : UInt64)
  | serve (deliveries : List Delivery)

/-- The storage after an event; what fails leaves it alone. -/
def live (storage : DB) : LifeEvent → DB
  | .confirm block chainName protocolVersion accepted nowSecs =>
      match confirmAndSave storage block chainName protocolVersion accepted nowSecs with
      | .ok (_, storage) => storage
      | .error _ => storage
  | .serve deliveries =>
      match buildConsensusEngine storage with
      | .ok engine => (deliverAll engine deliveries).db
      | .error _ => storage

def liveAll (storage : DB) (events : List LifeEvent) : DB := events.foldl live storage

theorem status_initial : status (StorageWrite.initial : DB) = .ok .noGenesis := by
  have unnamed : metadata (StorageWrite.initial : DB) = .ok none := by
    rw [metadata_eq initial_sound, initial_tables]
    rfl
  rw [status, unnamed]
  rfl

/-- A genesis that is saved first is committed under the name and the version that come with it. -/
theorem confirmAndSave_initial
    (run : confirmAndSave (StorageWrite.initial : DB) g chainName protocolVersion accepted nowSecs =
      .ok (outcome, s)) :
    ∃ (saved : ChainMetadata) (result : ChainTransitionResult), commitTransition
        (StorageWrite.initial : DB) (.genesis g saved) = .ok (result, s) ∧
      saved.chainName = chainName ∧ saved.protocolVersion = protocolVersion := by
  simp only [confirmAndSave, status_initial, saveGenesis, mapError_ok, bind_ok, bind_eq_ok,
    mapError_eq_ok, failIf_eq_ok, okOr_eq_ok, pure_eq_ok, Prod.exists, Prod.mk.injEq] at run
  obtain ⟨⟨⟩, -, ⟨⟩, -, storage, ⟨created, -, result, storage', committed, rfl⟩, -, rfl⟩ := run
  exact ⟨_, result, committed, rfl, rfl⟩

/-- A valid genesis is saved when it is accepted. -/
theorem confirmAndSave_ok {created : Int64} (now : i64TryFrom nowSecs = some created)
    (schema : FullNodeStorage.checkSchema DB
      ⟨storageSchemaVersion, chainName, protocolVersion, created⟩ = .ok ())
    (valid : validateGenesis g = .ok ()) :
    ∃ s : DB, confirmAndSave StorageWrite.initial g chainName protocolVersion true nowSecs =
      .ok (.savedNow, s) := by
  obtain ⟨result, s, committed⟩ := commitGenesis_ok schema valid
  refine ⟨s, ?_⟩
  simp [confirmAndSave, valid, status_initial, saveGenesis, now, committed]

/-- The first genesis that is saved is kept. -/
theorem Keeps.confirmed
    (run : confirmAndSave (StorageWrite.initial : DB) g chainName protocolVersion accepted nowSecs =
      .ok (outcome, s)) :
    ∃ saved, Keeps g saved s ∧ saved.chainName = chainName ∧
      saved.protocolVersion = protocolVersion := by
  obtain ⟨saved, result, committed, name, version⟩ := confirmAndSave_initial run
  exact ⟨saved, .committed committed, name, version⟩

theorem Keeps.live (keeps : Keeps g saved s) (event : LifeEvent) :
    Keeps g saved (StryiChain.live s event) := by
  unfold StryiChain.live
  cases event with
  | confirm block chainName protocolVersion accepted nowSecs =>
    dsimp only
    cases run : confirmAndSave s block chainName protocolVersion accepted nowSecs with
    | error error => exact keeps
    | ok done =>
      obtain ⟨outcome, storage⟩ := done
      obtain ⟨-, -, rfl⟩ := keeps.confirm_iff.mp run
      exact keeps
  | serve deliveries =>
    dsimp only
    cases built : buildConsensusEngine s with
    | error error => exact keeps
    | ok engine => exact keeps.serves built deliveries

theorem Keeps.liveAll (keeps : Keeps g saved s) (events : List LifeEvent) :
    Keeps g saved (StryiChain.liveAll s events) := by
  induction events generalizing s with
  | nil => exact keeps
  | cons event events ih => exact ih (keeps.live event)

theorem genesis_initial : getBlockByHeight (StorageWrite.initial : DB) 0 = .ok none :=
  getBlockByHeight_none initial_sound (by rw [initial_tables]; rfl)

/-- No engine is built over a new storage. -/
theorem buildConsensusEngine_initial : buildConsensusEngine (StorageWrite.initial : DB) =
    .error (.other "genesis block not found in storage") := by
  rw [buildConsensusEngine, buildConsensusConstants, genesis_initial]
  rfl

/-- A storage is new or keeps a genesis. -/
theorem liveAll_initial (events : List LifeEvent) :
    liveAll (StorageWrite.initial : DB) events = StorageWrite.initial ∨
      ∃ g saved, Keeps g saved (liveAll (StorageWrite.initial : DB) events) := by
  induction events with
  | nil => exact .inl rfl
  | cons event events ih =>
    have next : live (StorageWrite.initial : DB) event = StorageWrite.initial ∨
        ∃ g saved, Keeps g saved (live (StorageWrite.initial : DB) event) := by
      unfold live
      cases event with
      | confirm block chainName protocolVersion accepted nowSecs =>
        dsimp only
        cases run : confirmAndSave (StorageWrite.initial : DB) block chainName protocolVersion
            accepted nowSecs with
        | error error => exact .inl rfl
        | ok done =>
          obtain ⟨saved, keeps, -⟩ := Keeps.confirmed run
          exact .inr ⟨block, saved, keeps⟩
      | serve deliveries =>
        rw [buildConsensusEngine_initial]
        exact .inl rfl
    rcases next with blank | ⟨g, saved, keeps⟩
    · rw [liveAll, List.foldl_cons, blank]
      exact ih
    · exact .inr ⟨g, saved, keeps.liveAll events⟩

/-- Once a genesis has been confirmed, whatever is offered and whatever the engines do, the node
confirms this block under this name and version and nothing else, and its storage stays as it is
then. -/
theorem genesis_pinned {before : List LifeEvent}
    (confirmed : confirmAndSave (liveAll (StorageWrite.initial : DB) before) g chainName
      protocolVersion accepted nowSecs = .ok (outcome, s)) (after : List LifeEvent) :
    getBlockByHeight (liveAll s after) 0 = .ok (some g) ∧
      ∀ (block : Block) (chainName' : String) (protocolVersion' : UInt64) (accepted' : Bool)
        (nowSecs' : UInt64) (outcome' : SaveOutcome) (s' : DB),
        confirmAndSave (liveAll s after) block chainName' protocolVersion' accepted' nowSecs' =
            .ok (outcome', s') ↔
          (block = g ∧ chainName' = chainName ∧ protocolVersion' = protocolVersion) ∧
            outcome' = .alreadySaved ∧ s' = liveAll s after := by
  obtain ⟨saved, keeps, name, version⟩ : ∃ saved, Keeps g saved s ∧ saved.chainName = chainName ∧
      saved.protocolVersion = protocolVersion := by
    have start : _ ∨ ∃ g saved, Keeps g saved (liveAll (StorageWrite.initial : DB) before) :=
      liveAll_initial before
    rcases start with blank | ⟨g', saved, keeps⟩
    · rw [blank] at confirmed
      exact Keeps.confirmed confirmed
    · obtain ⟨⟨rfl, rfl, rfl⟩, -, rfl⟩ := keeps.confirm_iff.mp confirmed
      exact ⟨saved, keeps, rfl, rfl⟩
  have kept := keeps.liveAll after
  constructor
  · obtain ⟨engine, w, inv, storage, -⟩ := kept.engine
    obtain ⟨rest, first⟩ := inv.first
    rw [← storage]
    exact getBlockByHeight_of_represents inv.canonical.sound inv.canonical.chain
      inv.canonical.represents (by rw [first]; rfl)
  · intro block chainName' protocolVersion' accepted' nowSecs' outcome' s'
    rw [kept.confirm_iff, name, version]

end Life

open Sample in
/-- A genesis that was offered twice with other names before it was accepted, and is confirmed
again after the node has made a reorganization. -/
theorem genesis_pinned_sample : ∃ s s' : RocksView,
    confirmAndSave (liveAll (StorageWrite.initial : RocksView)
      [.confirm genesis "refused" 1 false 0, .serve [call rival]]) genesis "sample" 1 true 0 =
        .ok (.savedNow, s) ∧
      confirmAndSave (liveAll s [.confirm genesis "other" 1 true 0,
        .serve ([rival, other, next].map call)]) genesis "sample" 1 false 0 =
          .ok (.alreadySaved, s') := by
  have first : (confirmAndSave (liveAll (StorageWrite.initial : RocksView)
      [.confirm genesis "refused" 1 false 0, .serve [call rival]]) genesis "sample" 1 true
        0).toOption.any (fun done => done.1 = .savedNow) = true := by decide +kernel
  obtain ⟨⟨outcome, s⟩, confirmed, now⟩ := exists_ok_of_any first
  obtain rfl : outcome = .savedNow := of_decide_eq_true now
  exact ⟨s, _, confirmed, ((genesis_pinned confirmed _).2 _ _ _ _ _ _ _).mpr
    ⟨⟨rfl, rfl, rfl⟩, rfl, rfl⟩⟩

end StryiChain
