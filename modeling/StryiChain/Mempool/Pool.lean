import StryiChain.Core.Block
import StryiChain.Mempool.Validator

/-!
# The transaction pool (`mempool/mod.rs`)

The operations of the pool. A method on `&mut self` returns its result together with the pool it
leaves behind, also when it fails. The lookup in the UTXO set and the reading of the clock are
arguments of the call, since both change from call to call.
-/

namespace StryiChain

section Pool

variable [Primitives] [Floats]

/-- `MemPoolError`. The source of a storage error is the failed lookup or the text of another
error. -/
inductive MemPoolError where
  | poolFull (size : Nat)
  | duplicateTransaction (hash : TransactionHash)
  | insufficientFee (required actual : UInt64)
  | doubleSpend (outpoint : OutPoint)
  | validationError (err : MempoolValidationError)
  | storage (err : StorageError ⊕ String)

/-- `MemPoolConfig`. -/
structure MemPoolConfig where
  maxSize : Nat
  feePolicy : FeePolicy
  rbfPolicy : RbfPolicy
  expiryTime : UInt64

/-- `MemPool`. The policies of the resolver and of the fee calculator are those of the
configuration. -/
structure MemPool where
  storage : TransactionStorage
  dependencyTracker : DependencyTracker
  config : MemPoolConfig

namespace MemPool

/-- `MemPool::new`. -/
def new (config : MemPoolConfig) : MemPool := ⟨.empty, .empty, config⟩

/-- `actual_fee` (`mod.rs:290-296`). -/
def actualFee (pool : MemPool) (tx : Transaction) (utxos : List UTXO) : UInt64 :=
  let explicitFee := pool.config.feePolicy.calculateFee tx
  let inputSum := wrappingSum (utxos.map UTXO.value)
  let outputSum := wrappingSum (tx.data.outputs.map TransactionOut.value)
  max explicitFee (saturatingSub inputSum outputSum)

/-- `first_conflicting_outpoint`. -/
def firstConflictingOutpoint (storage : TransactionStorage) (tx : Transaction) : Option OutPoint :=
  tx.spentOutpoints.find? fun o => (storage.getSpendingTx o).isSome

/-- `parent_hashes`. -/
def parentHashes (storage : TransactionStorage) (tx : Transaction) : List TransactionHash :=
  tx.spentOutpoints.filterMap storage.getCreatingTx

/-- The last step of an admission (`mod.rs:117-122`). The parents are looked up after the
transaction itself has been stored. -/
def store (pool : MemPool) (now : UInt64) (tx : Transaction) (fee : UInt64) : MemPool :=
  let storage := pool.storage.insert tx.data.hash tx fee now
  { pool with
    storage
    dependencyTracker :=
      pool.dependencyTracker.addTransaction tx.data.hash (parentHashes storage tx) }

/-- What `add_transaction` does with a transaction that passed the checks (`mod.rs:85-123`). -/
def admitResolved (pool : MemPool) (now : UInt64) (tx : Transaction) (utxos : List UTXO) :
    Except MemPoolError Unit × MemPool :=
  let actualFee := pool.actualFee tx utxos
  let conflicts := RbfPolicy.findConflicts tx pool.storage
  if conflicts.isEmpty then
    (.ok (), pool.store now tx actualFee)
  else if pool.config.rbfPolicy.isDisabled then
    (.error <| match firstConflictingOutpoint pool.storage tx with
      | some outpoint => .doubleSpend outpoint
      | none => .duplicateTransaction tx.data.hash, pool)
  else
    match pool.config.rbfPolicy.resolveConflicts conflicts pool.storage pool.dependencyTracker
      actualFee Floats.one with
    | (.error (.insufficientFee required actual), storage, dependencyTracker) =>
        (.error (.insufficientFee required actual), { pool with storage, dependencyTracker })
    | (.error (.other message), storage, dependencyTracker) =>
        (.error (.storage (.inr message)), { pool with storage, dependencyTracker })
    | (.ok (), storage, dependencyTracker) =>
        (.ok (), ({ pool with storage, dependencyTracker } : MemPool).store now tx actualFee)

/-- `add_transaction` (`mod.rs:66-123`). -/
def addTransaction (pool : MemPool) (lookup : UtxoLookup) (now : UInt64) (tx : Transaction) :
    Except MemPoolError Unit × MemPool :=
  if pool.storage.exists' tx.data.hash then
    (.error (.duplicateTransaction tx.data.hash), pool)
  else if pool.config.maxSize ≤ pool.storage.len then
    (.error (.poolFull pool.config.maxSize), pool)
  else
    match MempoolTxValidator.validate lookup tx pool.storage with
    | .ok utxos => pool.admitResolved now tx utxos
    | .error (.potentialRbf utxos) => pool.admitResolved now tx utxos
    | .error (.storage err) => (.error (.storage (.inl err)), pool)
    | .error err => (.error (.validationError err), pool)

/-- `remove_stored_transaction`. -/
def removeStoredTransaction (pool : MemPool) (txHash : TransactionHash) : MemPool :=
  { pool with
    storage := (pool.storage.remove txHash).2
    dependencyTracker := pool.dependencyTracker.removeTransaction txHash }

/-- `remove_transaction` (`mod.rs:126-134`): the descendants go first. -/
def removeTransaction (pool : MemPool) (txHash : TransactionHash) : MemPool :=
  ((pool.dependencyTracker.getDescendants txHash).foldl removeStoredTransaction
    pool).removeStoredTransaction txHash

/-- `update_on_block` (`mod.rs:192-196`): the children of a confirmed transaction stay. -/
def updateOnBlock (pool : MemPool) (block : BlockData) : MemPool :=
  block.transactions.foldl (fun pool tx => pool.removeStoredTransaction tx.data.hash) pool

/-- `cleanup_expired` (`mod.rs:199-217`). -/
def cleanupExpired (pool : MemPool) (now : UInt64) : MemPool :=
  let expired := pool.storage.getAll.filterMap fun entry =>
    if pool.config.expiryTime < saturatingSub now entry.timestamp then
      some entry.transaction.data.hash
    else
      none
  expired.foldl removeTransaction pool

/-- `package_fee_rate` (`mod.rs:298-314`). -/
def packageFeeRate (pool : MemPool) (txHash : TransactionHash) : Floats.F64 :=
  let total := (pool.dependencyTracker.getWithAncestors txHash).foldl
    (fun (total : UInt64 × Nat) hash =>
      match pool.storage.get hash with
      | some entry =>
          (saturatingAdd total.1 entry.fee, min (total.2 + entry.serializedSize) (2 ^ 64 - 1))
      | none => total)
    (0, 0)
  if total.2 = 0 then Floats.zero else Floats.feeRate total.1 total.2

/-- The comparison that ranks packages (`mod.rs:240-249`): the higher rate first, then the
earlier position. -/
def rankedBefore (positions : Table TransactionHash Nat) (left right : TransactionHash × Floats.F64) :
    Bool :=
  let byRate := (Floats.partialCmp right.2 left.2).getD .eq
  let position hash := (positions.read hash).getD (2 ^ 64 - 1)
  byRate.then (compare (position left.1) (position right.1)) != .gt

/-- What the selection loop has chosen so far. -/
structure Selection where
  selected : List TransactionHash
  result : List Transaction

/-- The transactions of a package, each unless it is selected already (`mod.rs:270-276`). -/
def select (pool : MemPool) (selection : Selection) (hash : TransactionHash) : Selection :=
  if hash ∈ selection.selected then
    selection
  else
    match pool.storage.get hash with
    | some entry => ⟨hash :: selection.selected, selection.result ++ [entry.transaction]⟩
    | none => { selection with selected := hash :: selection.selected }

/-- The loop over the ranked packages (`mod.rs:254-281`). It stops once the limit is reached. -/
def selectPackages (pool : MemPool) (limit : Nat) :
    List TransactionHash → Selection → List Transaction
  | [], selection => selection.result
  | txHash :: ranked, selection =>
      if txHash ∈ selection.selected then
        selectPackages pool limit ranked selection
      else
        let package := (pool.dependencyTracker.getWithAncestors txHash).filter
          fun hash => hash ∉ selection.selected
        if limit - selection.result.length < package.length then
          selectPackages pool limit ranked selection
        else
          let selection := package.foldl pool.select selection
          if selection.result.length = limit then
            selection.result
          else
            selectPackages pool limit ranked selection

/-- The transactions in the order in which the selection considers them (`mod.rs:228-249`). -/
def ranking (pool : MemPool) : List TransactionHash :=
  let order := pool.dependencyTracker.topologicalOrder
  let positions := Table.insertAll order.zipIdx ∅
  ((order.map fun hash => (hash, pool.packageFeeRate hash)).mergeSort
    (rankedBefore positions)).map Prod.fst

/-- `get_best_transactions` (`mod.rs:223-284`). -/
def getBestTransactions (pool : MemPool) (limit : Nat) : List Transaction :=
  if limit = 0 then [] else pool.selectPackages limit pool.ranking ⟨[], []⟩

/-- A call on the pool. -/
inductive Call where
  | addTransaction (lookup : UtxoLookup) (now : UInt64) (tx : Transaction)
  | removeTransaction (txHash : TransactionHash)
  | updateOnBlock (block : BlockData)
  | cleanupExpired (now : UInt64)

/-- The pool after a call. -/
def call (pool : MemPool) : Call → MemPool
  | .addTransaction lookup now tx => (pool.addTransaction lookup now tx).2
  | .removeTransaction txHash => pool.removeTransaction txHash
  | .updateOnBlock block => pool.updateOnBlock block
  | .cleanupExpired now => pool.cleanupExpired now

/-- The pool after a sequence of calls. -/
def run (pool : MemPool) (calls : List Call) : MemPool := calls.foldl call pool

end MemPool

end Pool

/-! ### A small instance

Numbers in hundredths are enough for the factors of the policies, and one account is funded. -/

namespace Sample

scoped instance floats : Floats where
  F64 := Nat
  zero := 0
  one := 100
  isZero x := x == 0
  onePlus x := 100 + x
  ceilMul n x := UInt64.ofNat (min ((n.toNat * x + 99) / 100) (2 ^ 64 - 1))
  conflictFactor n := 100 + 5 * n
  feeRate fee size := fee.toNat * 100 / size
  partialCmp x y := some (compare x y)

/-- The default configuration. -/
def poolConfig : MemPoolConfig := ⟨5000, ⟨1000, 500, 250, 10⟩, ⟨1000, (10 : Nat)⟩, 3600⟩

/-- A lookup that answers from a list of entries. -/
def holding (entries : List (OutPoint × UTXO)) : UtxoLookup := fun outpoints =>
  .ok (Table.insertAll (entries.filter fun entry => entry.1 ∈ outpoints) ∅)

/-- An output of 1000 units of the account 7 from somewhere. -/
def coin (n : Nat) : OutPoint × UTXO := (⟨⟨n⟩, 0⟩, ⟨⟨n⟩, 0, 1000, ⟨7⟩⟩)

end Sample

end StryiChain
