import StryiChain.Storage.Traits

/-!
# Applying and rewinding blocks (`transactions/utxo_processor.rs`)
-/

namespace StryiChain

variable [Primitives]

/-- What the scan of a block has collected: the outputs created so far and not consumed by the
block itself, and the inputs that have to come from storage. -/
structure BlockScan where
  createdUtxos : Table OutPoint UTXO
  externalInputs : List OutPoint

namespace BlockScan

/-- One input of a payment. An output created and spent in the block leaves no trace. -/
def input (scan : BlockScan) (op : OutPoint) : BlockScan :=
  if (scan.createdUtxos.read op).isSome then
    { scan with createdUtxos := AList.erase op scan.createdUtxos }
  else
    { scan with externalInputs := scan.externalInputs ++ [op] }

/-- One transaction: the inputs of a payment, then the outputs of any kind. -/
def transaction (scan : BlockScan) (tx : Transaction) : BlockScan :=
  let scan := tx.paymentInputs.foldl input scan
  { scan with createdUtxos := scan.createdUtxos.insertAll tx.createdUtxos }

/-- The scanning loop of `apply_block` (`utxo_processor.rs:42-70`). -/
def ofBlock (block : Block) : BlockScan :=
  block.data.transactions.foldl transaction ⟨∅, []⟩

end BlockScan

/-- One external input moves from the fetched entries into the undo record. -/
def takeEntry (state : Table OutPoint UTXO × List (OutPoint × UTXO)) (op : OutPoint) :
    Except StorageError (Table OutPoint UTXO × List (OutPoint × UTXO)) := do
  let utxo ← okOr (state.1.read op) (.utxoNotFound op)
  return (AList.erase op state.1, List.insert (op, utxo) state.2)

/-- The loop that fills the undo record (`utxo_processor.rs:78-81`). An outpoint that occurs
twice is missing the second time. -/
def takeSpent (existing : Table OutPoint UTXO) (externalInputs : List OutPoint) :
    Except StorageError (List (OutPoint × UTXO)) := do
  let (_, spent) ← externalInputs.foldlM takeEntry (existing, [])
  return spent

variable {S : Type} [UtxoWrite S]

/-- The external inputs are fetched for the undo record and removed (`utxo_processor.rs:75-84`). -/
def spendInputs (storage : S) (externalInputs : List OutPoint) :
    Except StorageError (List (OutPoint × UTXO) × S) :=
  if externalInputs.isEmpty then
    .ok ([], storage)
  else do
    let existing ← batchGetUtxos storage externalInputs
    let spent ← takeSpent existing externalInputs
    let storage ← batchRemoveUtxos storage externalInputs
    return (spent, storage)

/-- The surviving outputs are stored (`utxo_processor.rs:86-89`). -/
def putCreated (storage : S) (createdUtxos : Table OutPoint UTXO) : Except StorageError S :=
  if createdUtxos.keys.isEmpty then .ok storage
  else batchPutUtxos storage (iter createdUtxos.toPairs)

/-- `UtxoProcessor::apply_block` (`utxo_processor.rs:33-95`). -/
def applyBlock (block : Block) (storage : S) : Except StorageError (BlockUndo × S) := do
  let scan := BlockScan.ofBlock block
  let (spentUtxos, storage) ← spendInputs storage scan.externalInputs
  let storage ← putCreated storage scan.createdUtxos
  return ({ spentUtxos, createdOutpoints := scan.createdUtxos.keys }, storage)

/-- `UtxoProcessor::rewind_block` (`utxo_processor.rs:99-113`). -/
def rewindBlock (undo : BlockUndo) (storage : S) : Except StorageError S := do
  let storage ← batchRemoveUtxos storage (iter undo.createdOutpoints)
  batchPutUtxos storage (iter undo.spentUtxos)

end StryiChain
