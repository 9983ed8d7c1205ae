import StryiChain.Core.Error
import StryiChain.Misc.Table

/-!
# Stored transactions (`mempool/storage.rs`, `mempool/types.rs`)

The transactions of the pool under their hashes, and the two indexes over their outpoints: which
transaction creates an outpoint, and which one spends it.
-/

namespace StryiChain

variable [Primitives]

/-- `MemPoolTx`. -/
structure MemPoolTx where
  transaction : Transaction
  timestamp : UInt64
  fee : UInt64
  serializedSize : Nat

/-- `TransactionStorage`. -/
structure TransactionStorage where
  transactions : Table TransactionHash MemPoolTx
  outputCreationIndex : Table OutPoint TransactionHash
  inputSpendingIndex : Table OutPoint TransactionHash

/-- `Transaction::serialized_size`, and the size that the pool keeps. -/
def Transaction.serializedSize (tx : Transaction) : Nat := (Primitives.encodeTransaction tx).length

/-- The outpoints of the outputs of a transaction under a hash, the index truncated to 32 bits
(`vout_idx as u32`). -/
def Transaction.outpointsUnder (tx : Transaction) (txHash : TransactionHash) : List OutPoint :=
  tx.data.outputs.zipIdx.map fun (_, index) => ⟨txHash, UInt32.ofNat index⟩

namespace TransactionStorage

/-- `TransactionStorage::default`. -/
def empty : TransactionStorage := ⟨∅, ∅, ∅⟩

/-- `insert_with_timestamp` (`storage.rs:22-55`). -/
def insertWithTimestamp (storage : TransactionStorage) (txHash : TransactionHash)
    (tx : Transaction) (fee timestamp : UInt64) : TransactionStorage where
  transactions :=
    AList.insert txHash ⟨tx, timestamp, fee, tx.serializedSize⟩ storage.transactions
  outputCreationIndex :=
    Table.insertAll ((tx.outpointsUnder txHash).map fun o => (o, txHash))
      storage.outputCreationIndex
  inputSpendingIndex :=
    Table.insertAll (tx.spentOutpoints.map fun o => (o, txHash)) storage.inputSpendingIndex

/-- `insert` (`storage.rs:17-19`), with the reading of the clock. -/
def insert (storage : TransactionStorage) (txHash : TransactionHash) (tx : Transaction)
    (fee now : UInt64) : TransactionStorage :=
  storage.insertWithTimestamp txHash tx fee now

/-- An input of a removed transaction gives its slot back, if the slot is its own. -/
def release (txHash : TransactionHash) (index : Table OutPoint TransactionHash) (o : OutPoint) :
    Table OutPoint TransactionHash :=
  if index.read o = some txHash then AList.erase o index else index

/-- `remove` (`storage.rs:58-80`). -/
def remove (storage : TransactionStorage) (txHash : TransactionHash) :
    Option MemPoolTx × TransactionStorage :=
  match storage.transactions.read txHash with
  | none => (none, storage)
  | some removed =>
      (some removed,
        { transactions := AList.erase txHash storage.transactions
          outputCreationIndex :=
            Table.removeAll (removed.transaction.outpointsUnder txHash) storage.outputCreationIndex
          inputSpendingIndex :=
            removed.transaction.spentOutpoints.foldl (release txHash)
              storage.inputSpendingIndex })

/-- `get`. -/
def get (storage : TransactionStorage) (txHash : TransactionHash) : Option MemPoolTx :=
  storage.transactions.read txHash

/-- `get_all`, in the order of the hash map. -/
def getAll (storage : TransactionStorage) : List MemPoolTx :=
  (iter storage.transactions.toPairs).map Prod.snd

/-- `exists`. -/
def exists' (storage : TransactionStorage) (txHash : TransactionHash) : Bool :=
  (storage.transactions.read txHash).isSome

/-- `get_creating_tx`. -/
def getCreatingTx (storage : TransactionStorage) (outpoint : OutPoint) : Option TransactionHash :=
  storage.outputCreationIndex.read outpoint

/-- `get_spending_tx`. -/
def getSpendingTx (storage : TransactionStorage) (outpoint : OutPoint) : Option TransactionHash :=
  storage.inputSpendingIndex.read outpoint

/-- `len`. -/
def len (storage : TransactionStorage) : Nat := storage.transactions.toPairs.length

end TransactionStorage

end StryiChain
