import StryiChain.Storage.Transition

/-!
# Fork overlays (`consensus/forks/overlay.rs`)

A scratch view over a base storage: the canonical chain rewound to a fork point and a branch
replayed on top of it. The base is never written.
-/

namespace StryiChain

variable [Primitives]

/-- `ForkDbOverlay` (`overlay.rs:15-29`). -/
structure ForkDbOverlay (DB : Type) where
  base : DB
  commonAncestor : UInt64 × BlockHash
  expectedHead : UInt64 × BlockHash
  rewindTip : UInt64 × BlockHash
  branchTip : UInt64 × BlockHash
  utxos : Table OutPoint UTXO
  removedUtxos : List OutPoint
  blocks : Table BlockHash (Block × BlockUndo)
  heights : Table UInt64 BlockHash
  detached : List (UInt64 × BlockHash)

namespace ForkDbOverlay

variable {DB : Type} [StorageRead DB]

/-- `ForkDbOverlay::new` (`overlay.rs:46-80`). -/
def new (base : DB) (ancestor : BlockHash) : Except StorageError (ForkDbOverlay DB) := do
  let block ← okOr (← getBlockByHash base ancestor) (.blockNotFound ancestor)
  let expectedHead ← tip base
  failIf (block.blockHash ≠ ancestor) (.corruption "Fork ancestor body does not match its key")
  failIf (expectedHead.1 < block.header.height)
    (.invalidTransition "Fork ancestor is outside the canonical chain")
  failIf ((← getBlockHashByHeight base block.header.height) ≠ some ancestor)
    (.invalidTransition "Fork ancestor is outside the canonical chain")
  let commonAncestor := (block.header.height, ancestor)
  return {
    base
    commonAncestor
    expectedHead
    rewindTip := expectedHead
    branchTip := commonAncestor
    utxos := ∅
    removedUtxos := []
    blocks := ∅
    heights := ∅
    detached := [] }

/-- `UtxoStorage::get_utxo`: a restored or recreated output takes precedence over a removal. -/
def getUtxo (overlay : ForkDbOverlay DB) (outpoint : OutPoint) :
    Except StorageError (Option UTXO) :=
  match overlay.utxos.read outpoint with
  | some utxo => .ok (some utxo)
  | none =>
      if outpoint ∈ overlay.removedUtxos then .ok none
      else StryiChain.getUtxo overlay.base outpoint

omit [Primitives] in
/-- Over a base that answers as a map, the view is the map with the removals deleted and the
entries of the overlay on top. -/
theorem getUtxo_over {overlay : ForkDbOverlay DB} {m : OutPoint → Option UTXO}
    (reads : ∀ o, StryiChain.getUtxo overlay.base o = .ok (m o)) (o : OutPoint) :
    overlay.getUtxo o =
      .ok ((overlay.utxos.read o).or (eraseAll overlay.removedUtxos m o)) := by
  unfold getUtxo
  cases overlay.utxos.read o with
  | some utxo => rfl
  | none =>
    by_cases gone : o ∈ overlay.removedUtxos
    · simp [gone, eraseAll_of_mem gone]
    · simp [gone, eraseAll_of_notMem gone, reads]

/-- `UtxoStorage::get_utxos_for_address` (`overlay.rs:205-222`). -/
def getUtxosForAddress (overlay : ForkDbOverlay DB) (address : AccountAddress) :
    Except StorageError (Table OutPoint UTXO) := do
  let result ← StryiChain.getUtxosForAddress overlay.base address
  let retained := result.toPairs.filter fun (outpoint, _) =>
    outpoint ∉ overlay.removedUtxos ∧ overlay.utxos.read outpoint = none
  return Table.insertAll
    (retained ++ overlay.utxos.toPairs.filter fun (_, utxo) => utxo.owner = address) ∅

/-- `BlockStorage::get_block_hash_by_height`: canonical heights above the fork point are
hidden. -/
def getBlockHashByHeight (overlay : ForkDbOverlay DB) (height : UInt64) :
    Except StorageError (Option BlockHash) :=
  match overlay.heights.read height with
  | some hash => .ok (some hash)
  | none =>
      if overlay.commonAncestor.1 < height then .ok none
      else StryiChain.getBlockHashByHeight overlay.base height

/-- `BlockStorage::get_block_by_hash`. -/
def getBlockByHash (overlay : ForkDbOverlay DB) (hash : BlockHash) :
    Except StorageError (Option Block) :=
  match overlay.blocks.read hash with
  | some (block, _) => .ok (some block)
  | none => StryiChain.getBlockByHash overlay.base hash

/-- `BlockStorage::get_block_by_height`. -/
def getBlockByHeight (overlay : ForkDbOverlay DB) (height : UInt64) :
    Except StorageError (Option Block) :=
  match overlay.heights.read height with
  | some hash => overlay.getBlockByHash hash
  | none =>
      if overlay.commonAncestor.1 < height then .ok none
      else StryiChain.getBlockByHeight overlay.base height

/-- `BlockStorage::get_block_header_by_hash`. -/
def getBlockHeaderByHash (overlay : ForkDbOverlay DB) (hash : BlockHash) :
    Except StorageError (Option BlockHeader) :=
  match overlay.blocks.read hash with
  | some (block, _) => .ok (some block.header)
  | none => StryiChain.getBlockHeaderByHash overlay.base hash

/-- `BlockStorage::get_transaction`: only confirmations up to the fork point are visible. -/
def getTransaction (overlay : ForkDbOverlay DB) (hash : TransactionHash) :
    Except StorageError (Option ConfirmedTransaction) := do
  let record ← StryiChain.getTransaction overlay.base hash
  return record.filter fun record => record.location.blockHeight ≤ overlay.commonAncestor.1

/-- The second loop of `batch_remove_utxos`. -/
def dropUtxo (overlay : ForkDbOverlay DB) (outpoint : OutPoint) : ForkDbOverlay DB :=
  { overlay with
    utxos := AList.erase outpoint overlay.utxos
    removedUtxos := List.insert outpoint overlay.removedUtxos }

/-- `UtxoWrite::batch_remove_utxos` (`overlay.rs:303-316`): all outpoints are checked before any
is removed. -/
def batchRemoveUtxos (overlay : ForkDbOverlay DB) (outpoints : List OutPoint) :
    Except StorageError (ForkDbOverlay DB) := do
  outpoints.forM fun outpoint => do
    failIf ((← overlay.getUtxo outpoint) = none) (.utxoNotFound outpoint)
  return outpoints.foldl dropUtxo overlay

instance : UtxoWrite (ForkDbOverlay DB) where
  getUtxo := getUtxo
  getUtxosForAddress := getUtxosForAddress
  batchPutUtxos overlay utxos := .ok { overlay with utxos := overlay.utxos.insertAll utxos }
  batchRemoveUtxos := batchRemoveUtxos

instance : BlockStorage (ForkDbOverlay DB) where
  getBlockHashByHeight := getBlockHashByHeight
  getBlockByHash := getBlockByHash
  getBlockByHeight := getBlockByHeight
  getBlockHeaderByHash := getBlockHeaderByHash
  getBlockIndex overlay hash := getBlockIndex overlay.base hash
  getTransaction := getTransaction

/-- `map_err` of the rewind: an outpoint that the undo record names must be there. -/
def undoError : StorageError → StorageError
  | .utxoNotFound outpoint => .corruption s!"Undo references missing UTXO {outpoint.debug}"
  | other => other

/-- `ForkDbOverlay::rewind_block` (`overlay.rs:84-125`). -/
def rewindBlock (overlay : ForkDbOverlay DB) : Except StorageError (ForkDbOverlay DB) := do
  failIf (overlay.blocks ≠ ∅ ∨ overlay.rewindTip.1 ≤ overlay.commonAncestor.1)
    (.invalidTransition "Cannot rewind past the fork ancestor or after replay")
  let (height, hash) := overlay.rewindTip
  let block ← okOr (← StryiChain.getBlockByHash overlay.base hash)
    (.corruption s!"Canonical block {hash} is absent")
  failIf (block.blockHash ≠ hash ∨ block.header.height ≠ height)
    (.corruption "Canonical ancestry and height mappings disagree")
  failIf ((← StryiChain.getBlockHashByHeight overlay.base height) ≠ some hash)
    (.corruption "Canonical ancestry and height mappings disagree")
  let undo ← okOr (← getBlockUndo overlay.base hash)
    (.corruption s!"Canonical undo {hash} is absent")
  let overlay ← (StryiChain.rewindBlock undo overlay).mapError undoError
  return { overlay with
    detached := overlay.detached ++ [(height, hash)]
    rewindTip := (height - 1, block.header.previousBlockHash) }

/-- `ForkDbOverlay::replay_block` (`overlay.rs:129-152`). -/
def replayBlock (overlay : ForkDbOverlay DB) (block : Block) :
    Except StorageError (ForkDbOverlay DB) := do
  (verifyGenesisWorkShape block).mapError fun error => .invalidTransition error.message
  failIf (overlay.rewindTip ≠ overlay.commonAncestor ∨ block.header.isGenesis ∨
      block.header.hashThreshold = 0 ∨ block.header.previousBlockHash ≠ overlay.branchTip.2 ∨
      checkedAdd overlay.branchTip.1 1 ≠ some block.header.height)
    (.invalidTransition "Fork replay must extend the rewound ancestor or its replacement prefix")
  let (undo, overlay) ← applyBlock block overlay
  let hash := block.blockHash
  return { overlay with
    blocks := AList.insert hash (block, undo) overlay.blocks
    heights := AList.insert block.header.height hash overlay.heights
    branchTip := (block.header.height, hash) }

/-- A removal that reaches the base: not overridden, and present there. -/
def removesFromBase (overlay : ForkDbOverlay DB) (outpoint : OutPoint) :
    Except StorageError Bool :=
  if (overlay.utxos.read outpoint).isSome then
    .ok false
  else do
    return (← StryiChain.getUtxo overlay.base outpoint).isSome

/-- An entry that the base does not have as it is. -/
def changesBase (overlay : ForkDbOverlay DB) (entry : OutPoint × UTXO) :
    Except StorageError Bool := do
  return decide ((← StryiChain.getUtxo overlay.base entry.1) ≠ some entry.2)

/-- `ForkDbOverlay::into_delta` (`overlay.rs:156-187`). The heights of the replayed blocks differ,
so that the unstable sort has one outcome. -/
def intoDelta (overlay : ForkDbOverlay DB) : Except StorageError ForkDbDelta := do
  failIf (overlay.rewindTip ≠ overlay.commonAncestor ∨ overlay.blocks = ∅)
    (.invalidTransition "Fork delta requires a complete rewind and a nonempty replacement")
  let removedUtxos ← filterE overlay.removesFromBase (iter overlay.removedUtxos)
  let utxos ← filterE overlay.changesBase (iter overlay.utxos.toPairs)
  let blocks := (iter (overlay.blocks.toPairs.map Prod.snd)).insertionSort
    fun a b => a.1.header.height ≤ b.1.header.height
  return {
    expectedHead := overlay.expectedHead
    commonAncestor := overlay.commonAncestor.2
    detached := overlay.detached
    blocks
    utxos
    removedUtxos }

end ForkDbOverlay

end StryiChain
