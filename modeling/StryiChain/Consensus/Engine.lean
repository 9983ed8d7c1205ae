import StryiChain.Consensus.Index
import StryiChain.Consensus.Overlay
import StryiChain.Consensus.Validator

/-!
# The consensus engine (`consensus/engine.rs`, `consensus/classify.rs`)

The handlers take `&mut self`: what was written before an error stays written. They run in
`EngineM`, whose state survives an error, so that nothing is undone by the model itself.
-/

namespace StryiChain

variable [Primitives]

/-- `KnownLocation`. -/
inductive KnownLocation where
  | canonicalChain
  | forkTree
  deriving DecidableEq

/-- `BlockDisposition` (`classify.rs:9-29`). -/
inductive BlockDisposition where
  | known (location : KnownLocation)
  | extendsCanonical
  | createsForkFromCanonical (lca : BlockHash)
  | extendsFork (parent forkRoot : BlockHash)
  | orphan (parent : BlockHash)
  deriving DecidableEq

/-- `CommittedTransition` (`consensus/mod.rs:34-42`). -/
structure CommittedTransition where
  newHead : UInt64 × BlockHash
  chainWork : Nat
  attached : List Block
  detached : List (UInt64 × BlockHash)

/-- `ConsensusVerdict` (`consensus/mod.rs:46-67`). -/
inductive ConsensusVerdict where
  | applied (transition : CommittedTransition)
  | buffered
  | alreadyIncludedInChain
  | alreadyKnownInForkTree
  | rejected (error : StryiCoreError)
  | causedReorganization (transition : CommittedTransition)

/-- The failures of the backend during one call of `on_block`. Every access to storage is
followed by a question mark, so a failure inside the read-only phase `check` (the view, the
overlay and validation) or `prepare` (the delta of a reorganization) ends that phase with an
error of the layer that was read; `commit` is a failure of `apply_transition`, which discards
its staged writes. -/
structure Faults where
  check : Option (StorageLayer × StorageError)
  prepare : Option (StorageLayer × StorageError)
  commit : Option StorageError

/-- A read-only phase under a failure of the backend. -/
def readPhase {α : Type} (fault : Option (StorageLayer × StorageError))
    (phase : Except StryiCoreError α) : Except StryiCoreError α :=
  withFault (fault.map fun (layer, error) => .storageError layer error) phase

/-- A backend that does not fail by itself. -/
def Faults.none : Faults := ⟨.none, .none, .none⟩

/-- `StryiConsensusEngine` (`engine.rs:28-52`); the UTXO processor has no state. -/
structure StryiConsensusEngine (DB : Type) where
  consensusConsts : ConsensusConsts
  blockValidator : BlockValidator
  db : DB
  forks : ForkRegistry
  chainIndex : ChainIndex

/-- A handler on `&mut self`. -/
abbrev EngineM (DB : Type) := EStateM StryiCoreError (StryiConsensusEngine DB)

/-- A step that does not touch the engine. -/
def EngineM.lift {DB α : Type} (x : Except StryiCoreError α) : EngineM DB α :=
  match x with
  | .ok a => pure a
  | .error error => throw error

/-- The outcome of validation as the handlers read it: `none` for a valid block, `some error` for
a rejection. Storage errors are passed on, and a panic unwinds. -/
def judge (outcome : Except StryiCoreError Unit) : Except StryiCoreError (Option StryiCoreError) :=
  match outcome with
  | .ok () => .ok none
  | .error error => if error.escapes then .error error else .ok (some error)

/-- `canonical_corruption`. -/
def canonicalCorruption (layer : StorageLayer) (details : String) : StryiCoreError :=
  .storageError layer (.corruption details)

section BuildIndex

variable {S : Type} [StorageRead S]

/-- One iteration of the walk of `collect_canonical_ancestry` (`engine.rs:174-226`). -/
def readCanonical (view : S) (height : UInt64) (hash : BlockHash) :
    Except StryiCoreError Block := do
  let block ← okOr (← (getBlockByHash view hash).mapError (.storageError .block))
    (canonicalCorruption .block s!"Canonical block {hash} is absent")
  let atHeight ← (getBlockHashByHeight view height).mapError (.storageError .block)
  failIf (block.blockHash ≠ hash ∨ block.header.height ≠ height ∨ atHeight ≠ some hash)
    (canonicalCorruption .block "Canonical ancestry and heights disagree")
  verifyGenesisWorkShape block
  if 0 < height then
    let undo ← (getBlockUndo view hash).mapError (.storageError .undo)
    failIf undo.isNone (canonicalCorruption .undo s!"Canonical undo {hash} is absent")
  else
    failIf (block.header.isGenesis = false)
      (canonicalCorruption .block "Height zero has no genesis marker")
  return block

/-- The walk from the tip down to height zero, parents first in the result. -/
def collectFrom (view : S) : Nat → BlockHash → Except StryiCoreError (List Block)
  | 0, hash => do
      let block ← readCanonical view 0 hash
      return [block]
  | height + 1, hash => do
      let block ← readCanonical view (UInt64.ofNat (height + 1)) hash
      let below ← collectFrom view height block.header.previousBlockHash
      return below ++ [block]

/-- `collect_canonical_ancestry` (`engine.rs:167-234`). -/
def collectCanonicalAncestry (view : S) (tip : UInt64 × BlockHash) :
    Except StryiCoreError (List Block) :=
  collectFrom view tip.1.toNat tip.2

/-- One block of `rebuild_chain_index` (`engine.rs:244-266`). -/
def indexBlock (view : S) (state : ChainIndex × Nat) (block : Block) :
    Except StryiCoreError (ChainIndex × Nat) := do
  let (index, cumulativeWork) := state
  let work ← verifiedBlockWork block
  let cumulativeWork ← addWork cumulativeWork work
  let savedIndex ← okOr (← (getBlockIndex view block.blockHash).mapError (.storageError .block))
    (canonicalCorruption .block "Canonical block index is absent")
  failIf (savedIndex.height ≠ block.header.height ∨
      savedIndex.parentHash ≠ block.header.previousBlockHash ∨
      savedIndex.chainWork ≠ cumulativeWork)
    (canonicalCorruption .block "Canonical block index disagrees with ancestry")
  return (index.insert block cumulativeWork, cumulativeWork)

/-- `rebuild_chain_index` (`engine.rs:236-278`). -/
def rebuildChainIndex (view : S) (state : ChainState) (blocks : List Block) :
    Except StryiCoreError ChainIndex := do
  let (index, cumulativeWork) ← blocks.foldlM (indexBlock view) (ChainIndex.new, 0)
  failIf (cumulativeWork ≠ state.chainWork ∨
      checkedAdd state.latestBlock.1 1 ≠ some state.blocksCount)
    (canonicalCorruption .stats "Chain state disagrees with canonical history")
  return index

/-- `build_chain_index` (`engine.rs:150-165`). -/
def buildChainIndex (view : S) : Except StryiCoreError ChainIndex := do
  let state ← okOr (← (chainState view).mapError (.storageError .stats))
    (.storageError .stats .uninitialized)
  let blocks ← collectCanonicalAncestry view state.latestBlock
  rebuildChainIndex view state blocks

end BuildIndex

section Overlay

variable {S : Type} [StorageRead S]

/-- The rewinding loop of `build_fork_overlay` (`engine.rs:355-366`) with a bound on its
iterations. Each rewind lowers the height of the rewound tip by one, and stops with the error of
the last branch at the height of the fork point. -/
def rewindLoop (index : ChainIndex) (lca : BlockHash) :
    Nat → ForkDbOverlay S → BlockHash → Except StryiCoreError (ForkDbOverlay S)
  | 0, overlay, cursor =>
      if cursor = lca then
        .ok overlay
      else
        .error (.storageError .undo
          (.invalidTransition "Cannot rewind past the fork ancestor or after replay"))
  | steps + 1, overlay, cursor =>
      if cursor = lca then
        .ok overlay
      else do
        let overlay ← overlay.rewindBlock.mapError (.storageError .undo)
        let cursor ← okOr (index.parent cursor)
          (.consensusChainSelectionFailed "Missing parent while rewinding fork view")
        rewindLoop index lca steps overlay cursor

/-- `self.chain_index.tip().expect(..)`. -/
def expectTip (index : ChainIndex) : Except StryiCoreError TipInfo :=
  okOr index.tip (.panicked "Initialized chain has a tip")

/-- `build_fork_overlay` (`engine.rs:345-369`). -/
def buildForkOverlay (index : ChainIndex) (view : S) (lca : BlockHash) :
    Except StryiCoreError (ForkDbOverlay S) := do
  let overlay ← (ForkDbOverlay.new view lca).mapError (.storageError .other)
  let tip ← expectTip index
  rewindLoop index lca (overlay.expectedHead.1.toNat - overlay.commonAncestor.1.toNat) overlay
    tip.hash

/-- The loop that replays the blocks of a branch. -/
def replayAll (layer : StorageLayer) (overlay : ForkDbOverlay S) (blocks : List Block) :
    Except StryiCoreError (ForkDbOverlay S) :=
  blocks.foldlM (fun overlay block => (overlay.replayBlock block).mapError (.storageError layer))
    overlay

/-- The scope of `handle_creates_fork_from_canonical` that validates the block
(`engine.rs:384-397`). -/
def checkNewFork (validator : BlockValidator) (index : ChainIndex) (view : S) (nowSecs : UInt64)
    (block : Block) (lca : BlockHash) : Except StryiCoreError (Option StryiCoreError) := do
  let overlay ← buildForkOverlay index view lca
  judge (validator.validateForFork nowSecs block overlay)

/-- The scope of `handle_extends_fork` that validates the block (`engine.rs:438-459`). The branch
is replayed first, so that its history is visible. -/
def checkFork (validator : BlockValidator) (index : ChainIndex) (view : S) (nowSecs : UInt64)
    (block : Block) (entry : ForkEntry) : Except StryiCoreError (Option StryiCoreError) := do
  let overlay ← buildForkOverlay index view entry.commonAncestor
  let overlay ← replayAll .other overlay entry.blocks
  judge (validator.validateForFork nowSecs block overlay)

/-- The scope of `perform_reorg` that prepares the delta (`engine.rs:514-532`). -/
def prepareDelta (index : ChainIndex) (view : S) (lca : BlockHash) (forkBlocks : List Block) :
    Except StryiCoreError ForkDbDelta := do
  let overlay ← buildForkOverlay index view lca
  let overlay ← replayAll .utxo overlay forkBlocks
  overlay.intoDelta.mapError (.storageError .utxo)

end Overlay

/-- The cumulative work after each block of a branch (`engine.rs:502-512`). -/
def branchWork (start : Nat) : List Block → Except StryiCoreError (List Nat)
  | [] => .ok []
  | block :: rest => do
      let work ← verifiedBlockWork block
      let total ← addWork start work
      return total :: (← branchWork total rest)

/-- The loop of `perform_reorg` over the registry: entries that hang off a detached block, or
that contain a block which is canonical now, are dropped (`engine.rs:547-556`). -/
def pruneForks (index : ChainIndex) (forks : ForkRegistry) : ForkRegistry :=
  (ForkRegistry.all forks).foldl
    (fun forks entry =>
      if index.has entry.commonAncestor = false ∨
          entry.blocks.any (fun block => index.has block.blockHash) then
        ForkRegistry.remove forks entry.tip
      else
        forks)
    forks

/-- The index after a reorganization: the detached hashes leave, the branch enters. -/
def reindex (index : ChainIndex) (detached : List (UInt64 × BlockHash))
    (attached : List (Block × Nat)) : ChainIndex :=
  attached.foldl (fun index (block, work) => index.insert block work)
    (detached.foldl (fun index (_, hash) => index.remove hash) index)

namespace StryiConsensusEngine

variable {DB : Type} [FullNodeStorage DB]

/-- `StryiConsensusEngine::new` (`engine.rs:58-77`). -/
def new (consensusConsts : ConsensusConsts) (blockValidator : BlockValidator) (db : DB) :
    Except StryiCoreError (StryiConsensusEngine DB) := do
  let chainIndex ← buildChainIndex db
  return { consensusConsts, blockValidator, db, forks := ∅, chainIndex }

/-- `validate_height` (`engine.rs:132-145`). -/
def validateHeight (engine : StryiConsensusEngine DB) (block : Block) : Bool :=
  let parent := block.header.previousBlockHash
  let height := (engine.chainIndex.height parent).or
    ((ForkRegistry.get engine.forks parent).bind fun entry =>
      entry.blocks.getLast?.map fun last => last.header.height)
  height.all fun height => checkedAdd height 1 = some block.header.height

/-- `classify_block` (`classify.rs:47-101`). -/
def classifyBlock (engine : StryiConsensusEngine DB) (block : Block) : BlockDisposition :=
  let hash := block.blockHash
  let parent := block.header.previousBlockHash
  if engine.chainIndex.has hash then
    .known .canonicalChain
  else if ForkRegistry.has engine.forks hash ∨ ForkRegistry.hasBlock engine.forks hash then
    .known .forkTree
  else if engine.chainIndex.tip.any fun tip => parent = tip.hash then
    .extendsCanonical
  else if engine.chainIndex.has parent then
    .createsForkFromCanonical parent
  else
    match ForkRegistry.get engine.forks parent with
    | some entry => .extendsFork parent entry.commonAncestor
    | none => .orphan parent

/-- `handle_known`. -/
def handleKnown (location : KnownLocation) : EngineM DB ConsensusVerdict :=
  match location with
  | .canonicalChain => pure .alreadyIncludedInChain
  | .forkTree => pure .alreadyKnownInForkTree

/-- `apply_transition` as the handlers call it: `db` is shared, and changes when the transition
commits. -/
def commit (faults : Faults) (transition : ChainTransition) :
    EngineM DB ChainTransitionResult := do
  let engine ← get
  let (result, db) ← EngineM.lift
    ((withFault faults.commit (commitTransition engine.db transition)).mapError
      (.storageError .other))
  set { engine with db }
  return result

/-- `handle_extend_canonical` (`engine.rs:299-342`). -/
def handleExtendCanonical (nowSecs : UInt64) (faults : Faults) (block : Block) :
    EngineM DB ConsensusVerdict := do
  let engine ← get
  let verdict ← EngineM.lift (readPhase faults.check
    (judge (engine.blockValidator.validate nowSecs block engine.db)))
  match verdict with
  | some error => return .rejected error
  | none =>
      let tip ← EngineM.lift (expectTip engine.chainIndex)
      let work ← EngineM.lift (verifiedBlockWork block)
      let cumulativeWork ← EngineM.lift (addWork tip.work work)
      let transition ← commit faults (.append block)
      modify fun engine =>
        { engine with chainIndex := engine.chainIndex.insert block cumulativeWork }
      return .applied {
        newHead := transition.newHead
        chainWork := transition.chainWork
        attached := [block]
        detached := transition.detached }

/-- `perform_reorg` (`engine.rs:491-570`). -/
def performReorg (faults : Faults) (lca : BlockHash) (forkBlocks : List Block) :
    EngineM DB ConsensusVerdict := do
  let engine ← get
  let lcaWork ← EngineM.lift (okOr (engine.chainIndex.work lca)
    (.consensusChainSelectionFailed "Fork ancestor is outside canonical history"))
  let works ← EngineM.lift (branchWork lcaWork forkBlocks)
  let delta ← EngineM.lift
    (readPhase faults.prepare (prepareDelta engine.chainIndex engine.db lca forkBlocks))
  let transition ← commit faults (.reorganize delta)
  modify fun engine =>
    { engine with
      chainIndex := reindex engine.chainIndex transition.detached (forkBlocks.zip works) }
  modify fun engine => { engine with forks := pruneForks engine.chainIndex engine.forks }
  return .causedReorganization {
    newHead := transition.newHead
    chainWork := transition.chainWork
    attached := forkBlocks
    detached := transition.detached }

/-- `handle_creates_fork_from_canonical` (`engine.rs:372-416`). -/
def handleCreatesForkFromCanonical (nowSecs : UInt64) (faults : Faults) (block : Block)
    (lca : BlockHash) : EngineM DB ConsensusVerdict := do
  let engine ← get
  let lcaWork ← EngineM.lift (okOr (engine.chainIndex.work lca)
    (.consensusChainSelectionFailed "Fork ancestor is outside canonical history"))
  let verdict ← EngineM.lift (readPhase faults.check
    (checkNewFork engine.blockValidator engine.chainIndex engine.db nowSecs block lca))
  match verdict with
  | some error => return .rejected error
  | none =>
      let work ← EngineM.lift (verifiedBlockWork block)
      let forkWork ← EngineM.lift (addWork lcaWork work)
      let tip ← EngineM.lift (expectTip engine.chainIndex)
      if tip.work < forkWork then
        performReorg faults lca [block]
      else
        let entry : ForkEntry := ⟨block.blockHash, forkWork, lca, [block]⟩
        modify fun engine => { engine with forks := ForkRegistry.insert engine.forks entry }
        return .buffered

/-- `handle_extends_fork` (`engine.rs:420-486`). -/
def handleExtendsFork (nowSecs : UInt64) (faults : Faults) (block : Block) :
    EngineM DB ConsensusVerdict := do
  let engine ← get
  let parent := block.header.previousBlockHash
  let entry ← EngineM.lift (okOr (ForkRegistry.get engine.forks parent)
    (.consensusChainSelectionFailed "Fork parent is absent"))
  let lca := entry.commonAncestor
  let verdict ← EngineM.lift (readPhase faults.check
    (checkFork engine.blockValidator engine.chainIndex engine.db nowSecs block entry))
  match verdict with
  | some error => return .rejected error
  | none =>
      let work ← EngineM.lift (verifiedBlockWork block)
      let forkWork ← EngineM.lift (addWork entry.cumulativeWork work)
      let forkBlocks := entry.blocks ++ [block]
      let tip ← EngineM.lift (expectTip engine.chainIndex)
      if tip.work < forkWork then
        let verdict ← performReorg faults lca forkBlocks
        modify fun engine => { engine with forks := ForkRegistry.remove engine.forks parent }
        return verdict
      else
        modify fun engine => { engine with forks := ForkRegistry.remove engine.forks parent }
        let entry : ForkEntry := ⟨block.blockHash, forkWork, lca, forkBlocks⟩
        modify fun engine => { engine with forks := ForkRegistry.insert engine.forks entry }
        return .buffered

/-- `on_block` (`engine.rs:576-628`). -/
def onBlock (nowSecs : UInt64) (faults : Faults) (block : Block) :
    EngineM DB ConsensusVerdict := do
  let engine ← get
  match verifyGenesisWorkShape block with
  | .error error => return .rejected error
  | .ok () =>
      if engine.validateHeight block = false then
        return .rejected (.consensusValidationFailed "Block height must follow its parent")
      else
        match engine.classifyBlock block with
        | .known location => handleKnown location
        | .extendsCanonical => handleExtendCanonical nowSecs faults block
        | .createsForkFromCanonical lca =>
            handleCreatesForkFromCanonical nowSecs faults block lca
        | .extendsFork _ _ => handleExtendsFork nowSecs faults block
        | .orphan _ => return .buffered

end StryiConsensusEngine

end StryiChain
