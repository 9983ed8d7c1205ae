import StryiChain.Consensus.Difficulty
import StryiChain.Utxo.Processor

/-!
# Chain transitions (`storage/transition.rs`)

How genesis, an appended block or a prepared reorganization is staged inside a write view.
-/

namespace StryiChain

variable [Primitives]

/-- `StagedTransition`. -/
structure StagedTransition where
  state : ChainState
  detached : List (UInt64 × BlockHash)

/-- The loop over the allocations of `validate_genesis` (`transition.rs:392-399`). -/
def checkAllocations (outputs : List TransactionOut) : Except StorageError Unit := do
  let _ ← outputs.foldlM
    (fun (recipients : List AccountAddress) output => do
      failIf (output.value = 0 ∨ output.recipient ∈ recipients)
        (.invalidTransition "Genesis allocations must be positive with unique recipients")
      return output.recipient :: recipients)
    []
  return ()

/-- `validate_genesis` (`transition.rs:359-402`). -/
def validateGenesis (block : Block) : Except StorageError Unit := do
  (verifyGenesisWorkShape block).mapError fun error => .invalidTransition error.message
  let genesis ← okOr block.header.genesisState (.invalidTransition "Genesis marker is absent")
  genesis.consensusConsts.pow.validate.mapError fun error => .invalidTransition error.message
  match block.isMerkleRootValid, block.data.transactions with
  | true, [transaction] =>
      failIf (transaction.data.kind ≠ .genesis ∨ transaction.data.inputs ≠ [] ∨
          transaction.data.outputs = [])
        (.invalidTransition "Genesis must have one allocation transaction without inputs")
      checkAllocations transaction.data.outputs
  | _, _ =>
      .error (.invalidTransition "Genesis must have a valid merkle root and one transaction")

/-- `extended_state` (`transition.rs:327-355`). -/
def extendedState (state : ChainState) (block : Block) : Except StorageError ChainState := do
  (verifyGenesisWorkShape block).mapError fun error => .invalidTransition error.message
  failIf (block.header.isGenesis ∨ block.header.hashThreshold = 0 ∨
      block.header.previousBlockHash ≠ state.latestBlock.2 ∨
      checkedAdd state.latestBlock.1 1 ≠ some block.header.height)
    (.invalidTransition "Block must extend the current canonical tip")
  let chainWork ← (addWork state.chainWork block.work).mapError fun error =>
    .invalidTransition error.message
  let blocksCount ← okOr (checkedAdd block.header.height 1)
    (.invalidTransition "Block count overflow")
  return {
    latestBlock := (block.header.height, block.blockHash)
    lastUpdateTime := block.header.timestamp
    blocksCount
    chainWork }

/-- The index record of a block whose branch work is known. -/
def BlockIndexData.of (block : Block) (chainWork : Nat) : BlockIndexData :=
  ⟨block.header.previousBlockHash, block.header.height, chainWork⟩

section Read

variable {S : Type} [StorageRead S]

/-- `verify_current_state` (`transition.rs:269-302`). -/
def verifyCurrentState (storage : S) (state : ChainState) : Except StorageError Unit := do
  failIf ((← metadata storage) = none) (.corruption "Initialized storage has no metadata")
  let header ← okOr (← getBlockHeaderByHash storage state.latestBlock.2)
    (.corruption "Canonical tip body is absent")
  let canonical ← okOr (← getBlockHashByHeight storage state.latestBlock.1)
    (.corruption "Canonical tip height is absent")
  let index ← okOr (← getBlockIndex storage state.latestBlock.2)
    (.corruption "Canonical tip index is absent")
  failIf (header.height ≠ state.latestBlock.1 ∨ canonical ≠ state.latestBlock.2 ∨
      index.height ≠ state.latestBlock.1 ∨ index.parentHash ≠ header.previousBlockHash ∨
      index.chainWork ≠ state.chainWork ∨
      checkedAdd state.latestBlock.1 1 ≠ some state.blocksCount)
    (.corruption "Canonical tip, index and chain state disagree")

/-- `canonical_ancestor` (`transition.rs:170-217`). -/
def canonicalAncestor (storage : S) (commonAncestor : BlockHash) :
    Except StorageError (Block × BlockIndexData) := do
  let ancestor ← okOr (← getBlockByHash storage commonAncestor) (.blockNotFound commonAncestor)
  let canonical ← okOr (← getBlockHashByHeight storage ancestor.header.height)
    (.corruption "Common ancestor height is absent")
  failIf (ancestor.blockHash ≠ commonAncestor)
    (.corruption "Common ancestor body does not match its key")
  if canonical ≠ commonAncestor then
    let canonicalBlock ← okOr (← getBlockByHash storage canonical)
      (.corruption "Common ancestor height body is absent")
    failIf (canonicalBlock.header.height ≠ ancestor.header.height)
      (.corruption "Common ancestor height references a block at another height")
    .error (.invalidTransition "Common ancestor is outside the canonical chain")
  else
    let index ← okOr (← getBlockIndex storage commonAncestor)
      (.corruption "Common ancestor index is absent")
    failIf (index.height ≠ ancestor.header.height ∨
        index.parentHash ≠ ancestor.header.previousBlockHash)
      (.corruption "Common ancestor index does not match its block")
    return (ancestor, index)

end Read

variable {S : Type} [StorageWrite S]

/-- One iteration of the detaching loop, for the tip at `height` (`transition.rs:235-260`). -/
def detachTip (storage : S) (height : UInt64) (hash : BlockHash) :
    Except StorageError (Block × S) := do
  let block ← okOr (← getBlockByHash storage hash)
    (.corruption s!"Canonical block {hash} is absent")
  let canonical ← okOr (← getBlockHashByHeight storage height)
    (.corruption s!"Canonical height {height} is absent")
  failIf (block.blockHash ≠ hash ∨ block.header.height ≠ height ∨ canonical ≠ hash)
    (.corruption "Canonical tip mappings disagree")
  let storage ← removeCanonicalBlock storage block
  return (block, storage)

/-- `detach_to_ancestor` (`transition.rs:219-264`), as a loop of at most `steps` iterations: each
one lowers the height by one and the guard stops it at the height of the ancestor. -/
def detachLoop (commonAncestor : BlockHash) :
    Nat → S → UInt64 × BlockHash → Except StorageError (S × (UInt64 × BlockHash) ×
      List (UInt64 × BlockHash))
  | 0, storage, latest =>
      if latest.2 = commonAncestor then .ok (storage, latest, [])
      else .error (.invalidTransition "Common ancestor is not in tip ancestry")
  | steps + 1, storage, latest =>
      if latest.2 = commonAncestor then
        .ok (storage, latest, [])
      else do
        let (block, storage) ← detachTip storage latest.1 latest.2
        let (storage, last, detached) ← detachLoop commonAncestor steps storage
          (block.header.height - 1, block.header.previousBlockHash)
        return (storage, last, (block.header.height, latest.2) :: detached)

/-- `detach_to_ancestor`: the number of iterations is the distance to the ancestor. -/
def detachToAncestor (storage : S) (state : ChainState) (ancestor : Block)
    (commonAncestor : BlockHash) :
    Except StorageError (S × ChainState × List (UInt64 × BlockHash)) := do
  let steps := state.latestBlock.1.toNat - ancestor.header.height.toNat
  let (storage, latestBlock, detached) ←
    detachLoop commonAncestor steps storage state.latestBlock
  return (storage, { state with latestBlock }, detached)

/-- `attach_block` (`transition.rs:304-323`). -/
def attachBlock (storage : S) (state : ChainState) (block : Block) :
    Except StorageError (S × ChainState) := do
  let nextState ← extendedState state block
  let index := BlockIndexData.of block nextState.chainWork
  let (undo, storage) ← applyBlock block storage
  let storage ← putBlock storage block index
  let storage ← putBlockUndo storage block.blockHash undo
  return (storage, nextState)

/-- `stage_genesis` on initialized storage (`transition.rs:46-72`): nothing is written. -/
def reopenGenesis (storage : S) (state : ChainState) (block : Block) (chainMetadata : ChainMetadata) :
    Except StorageError (StagedTransition × S) := do
  let saved ← okOr (← getBlockByHeight storage 0)
    (.corruption "Initialized storage has no genesis")
  let savedMetadata ← okOr (← metadata storage)
    (.corruption "Initialized storage has no metadata")
  failIf (saved ≠ block ∨ savedMetadata.schemaVersion ≠ chainMetadata.schemaVersion ∨
      savedMetadata.chainName ≠ chainMetadata.chainName ∨
      savedMetadata.protocolVersion ≠ chainMetadata.protocolVersion)
    (.invalidTransition "Genesis or chain configuration does not match stored chain")
  verifyCurrentState storage state
  return (⟨state, []⟩, storage)

/-- `stage_genesis` (`transition.rs:38-102`). -/
def stageGenesis (storage : S) (current : Option ChainState) (block : Block)
    (chainMetadata : ChainMetadata) : Except StorageError (StagedTransition × S) := do
  validateGenesis block
  match current with
  | some state => reopenGenesis storage state block chainMetadata
  | none =>
      failIf (← metadata storage).isSome (.corruption "Genesis exists without chain state")
      failIf (← getBlockByHeight storage 0).isSome
        (.corruption "Genesis exists without chain state")
      let index : BlockIndexData := ⟨block.header.previousBlockHash, 0, 0⟩
      let storage ← putBlock storage block index
      let (_, storage) ← applyBlock block storage
      let storage ← putMetadata storage chainMetadata
      let state : ChainState := ⟨(0, block.blockHash), block.header.timestamp, 1, 0⟩
      let storage ← putChainState storage state
      return (⟨state, []⟩, storage)

/-- `stage_append` (`transition.rs:104-122`). -/
def stageAppend (storage : S) (current : Option ChainState) (block : Block) :
    Except StorageError (StagedTransition × S) := do
  let state ← okOr current .uninitialized
  verifyCurrentState storage state
  let (storage, state) ← attachBlock storage state block
  let storage ← putChainState storage state
  return (⟨state, []⟩, storage)

/-- The loop of `stage_reorganization` over the prepared blocks (`transition.rs:153-163`). -/
def attachPrepared (storage : S) (state : ChainState) (blocks : List (Block × BlockUndo)) :
    Except StorageError (S × ChainState) :=
  blocks.foldlM
    (fun (storage, state) (block, undo) => do
      let state ← extendedState state block
      let storage ← putBlock storage block (BlockIndexData.of block state.chainWork)
      let storage ← putBlockUndo storage block.blockHash undo
      return (storage, state))
    (storage, state)

/-- `stage_reorganization` (`transition.rs:124-168`). -/
def stageReorganization (storage : S) (current : Option ChainState) (delta : ForkDbDelta) :
    Except StorageError (StagedTransition × S) := do
  let state ← okOr current .uninitialized
  verifyCurrentState storage state
  failIf (state.latestBlock ≠ delta.expectedHead)
    (.invalidTransition "Canonical tip changed after fork preparation")
  let (ancestor, ancestorIndex) ← canonicalAncestor storage delta.commonAncestor
  let (storage, state, detached) ←
    detachToAncestor storage state ancestor delta.commonAncestor
  failIf (detached ≠ delta.detached ∨ delta.blocks.isEmpty)
    (.invalidTransition "Prepared fork does not replace the expected canonical suffix")
  let state := { state with chainWork := ancestorIndex.chainWork }
  let storage ← batchRemoveUtxos storage delta.removedUtxos
  let storage ← batchPutUtxos storage delta.utxos
  let (storage, state) ← attachPrepared storage state delta.blocks
  let storage ← putChainState storage state
  return (⟨state, detached⟩, storage)

/-- `apply_transition` (`transition.rs:17-36`): the transition is staged inside a write view. -/
def applyTransition (storage : S) (transition : ChainTransition) :
    Except StorageError (ChainTransitionResult × S) := do
  let current ← chainState storage
  let (staged, storage) ←
    match transition with
    | .genesis block chainMetadata => stageGenesis storage current block chainMetadata
    | .append block => stageAppend storage current block
    | .reorganize delta => stageReorganization storage current delta
  return (⟨staged.state.latestBlock, staged.state.chainWork, staged.detached⟩, storage)

/-- `FullNodeStorage::apply_transition` of both backends (`in_memory.rs:63-93`,
`stryi_storage/src/lib.rs:170-264`). The staged view replaces the storage only when everything
has succeeded: `update` commits the pending copy or the transaction, or drops it. -/
def commitTransition {DB : Type} [FullNodeStorage DB] (db : DB) (transition : ChainTransition) :
    Except StorageError (ChainTransitionResult × DB) := do
  match transition with
  | .genesis _ chainMetadata => FullNodeStorage.checkSchema DB chainMetadata
  | _ => .ok ()
  applyTransition db transition

end StryiChain
