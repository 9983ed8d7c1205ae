import StryiChain.Consensus.Dependencies
import StryiChain.Consensus.Difficulty

/-!
# Block validation (`consensus/validator/{header,block,tx,mod}.rs`)

The three stages of the pipeline: header rules, the static structure of the block, and the
transactions against a UTXO view. The transactions of one group run in parallel and share the
set `spent`; what a thread does between two accesses to that set is one step here, and a
schedule lists whose turn it is.
-/

namespace StryiChain

variable [Primitives]

section Structure

/-- `ensure_unique_txs`. -/
def ensureUniqueTxs (block : Block) : Except StryiCoreError Unit :=
  failIf (¬ block.data.transactions.Nodup)
    (.consensusValidationFailed "Block contains duplicated transactions")

/-- The kinds allowed after the first transaction (`block.rs:86-104`). -/
def checkFollowers (rest : List Transaction) : Except StryiCoreError Unit :=
  rest.zipIdx.forM fun (tx, offset) =>
    let index := offset + 1
    match tx.data.kind with
    | .payment => .ok ()
    | .coinbase _ _ => .error (.consensusValidationFailed
        s!"Block cannot contain multiple Coinbase transactions (extra Coinbase at index {index})")
    | .genesis => .error (.consensusValidationFailed
        s!"Genesis transaction is forbidden in non-genesis blocks (found at index {index})")

/-- `ensure_transaction_composition` (`block.rs:57-107`). -/
def ensureTransactionComposition (block : Block) : Except StryiCoreError Unit :=
  if block.header.isGenesis then
    .ok ()
  else
    match block.data.transactions with
    | [] => .error (.consensusValidationFailed "Block transaction list cannot be empty")
    | first :: rest => do
        failIf (first.data.kind = .genesis)
          (.consensusValidationFailed "Genesis transaction is forbidden in non-genesis blocks")
        failIf (first.data.kind.isCoinbase = false)
          (.consensusValidationFailed "First transaction must be a Coinbase transaction")
        checkFollowers rest

/-- `ensure_unique_inputs` (`block.rs:110-129`): only payments are looked at. -/
def ensureUniqueInputs (data : BlockData) : Except StryiCoreError Unit := do
  let _ ← (data.transactions.flatMap Transaction.paymentInputs).foldlM
    (fun (seen : List OutPoint) outpoint => do
      failIf (outpoint ∈ seen) (StryiCoreError.txDoubleSpend outpoint.txid outpoint.vout)
      return outpoint :: seen)
    []
  return ()

/-- `ensure_coinbase_context` (`block.rs:24-42`). -/
def ensureCoinbaseContext (block : Block) : Except StryiCoreError Unit :=
  if block.header.isGenesis then
    .ok ()
  else
    match block.data.transactions.head?.map fun tx => tx.data.kind with
    | some (TransactionKind.coinbase height parent) =>
        failIf (height ≠ block.header.height ∨ parent ≠ block.header.previousBlockHash)
          (.consensusValidationFailed "Coinbase height and parent must match the block header")
    | _ => .ok ()

/-- `validate_block_structure` (`block.rs:15-22`). -/
def validateBlockStructure (block : Block) : Except StryiCoreError Unit := do
  ensureUniqueTxs block
  ensureTransactionComposition block
  ensureUniqueInputs block.data
  ensureCoinbaseContext block

end Structure

section Transactions

/-- `resolve_utxo` (`tx.rs:9-21`): `in_block` first, then `managed`. -/
def resolveUtxo (outpoint : OutPoint) (inBlock managed : Table OutPoint UTXO) :
    Except StryiCoreError UTXO :=
  okOr ((inBlock.read outpoint).or (managed.read outpoint))
    (.txMissingUtxo outpoint.txid outpoint.vout)

/-- A transaction in flight: the author of a payment, the inputs not yet looked at and the sum of
those that were. Only payments have inputs to look at. -/
structure TxThread where
  tx : Transaction
  author : AccountAddress
  pending : List OutPoint
  inSum : UInt64

/-- `validate_genesis_tx`. -/
def validateGenesisTx (tx : Transaction) : Except StryiCoreError Unit :=
  failIf (tx.data.inputs ≠ [] ∨ tx.data.outputs = [])
    (.consensusValidationFailed "Invalid Genesis transaction structure")

/-- `validate_coinbase_tx`. -/
def validateCoinbaseTx (tx : Transaction) : Except StryiCoreError Unit :=
  failIf (tx.data.inputs ≠ [] ∨ tx.data.outputs.length ≠ 1)
    (.consensusValidationFailed "Invalid Coinbase transaction structure")

/-- `validate_transaction` up to the first access to `spent` (`tx.rs:28-82`). -/
def TxThread.start (tx : Transaction) : Except StryiCoreError TxThread :=
  match tx.data.kind with
  | .genesis => do
      validateGenesisTx tx
      return ⟨tx, .empty, [], 0⟩
  | .coinbase _ _ => do
      validateCoinbaseTx tx
      return ⟨tx, .empty, [], 0⟩
  | .payment => do
      let author ← okOr (Primitives.recoverAuthor tx)
        (.consensusValidationFailed "Failed to recover public key")
      return ⟨tx, author, tx.spentOutpoints, 0⟩

/-- One iteration over the inputs of a payment (`tx.rs:85-109`): the outpoint is reserved, then
resolved, checked and added. -/
def TxThread.input (inBlock managed : Table OutPoint UTXO) (author : AccountAddress)
    (state : List OutPoint × UInt64) (outpoint : OutPoint) :
    Except StryiCoreError (List OutPoint × UInt64) := do
  let (spent, inSum) := state
  failIf (outpoint ∈ spent) (StryiCoreError.txDoubleSpend outpoint.txid outpoint.vout)
  let utxo ← resolveUtxo outpoint inBlock managed
  failIf (utxo.owner ≠ author) (StryiCoreError.txWrongOwner utxo.owner author)
  let inSum ← okOr (checkedAdd inSum utxo.value)
    (.consensusValidationFailed "Overflow while summing inputs")
  return (outpoint :: spent, inSum)

/-- What a payment does after its last input (`tx.rs:111-127`). -/
def TxThread.finish (thread : TxThread) : Except StryiCoreError Unit :=
  if thread.tx.data.kind ≠ .payment then
    .ok ()
  else do
    let outSum ← okOr (checkedSum (thread.tx.data.outputs.map TransactionOut.value))
      (.consensusValidationFailed "Overflow while summing outputs")
    failIf (thread.inSum < outSum) (.txInsufficientInputValue thread.inSum outSum)

variable (inBlock managed : Table OutPoint UTXO)

/-- One step of the thread at a position: its next input, if there is one. -/
def stepThread (state : List OutPoint × List TxThread) (position : Nat) :
    Except StryiCoreError (List OutPoint × List TxThread) :=
  let (spent, threads) := state
  match threads[position]? with
  | none => .ok state
  | some thread =>
      match thread.pending with
      | [] => .ok state
      | outpoint :: pending => do
          let (spent, inSum) ←
            TxThread.input inBlock managed thread.author (spent, thread.inSum) outpoint
          return (spent, threads.set position { thread with pending, inSum })

/-- A thread runs to its end without being interrupted. -/
def completeThread (spent : List OutPoint) (thread : TxThread) :
    Except StryiCoreError (List OutPoint) := do
  let (spent, inSum) ←
    thread.pending.foldlM (TxThread.input inBlock managed thread.author) (spent, thread.inSum)
  { thread with pending := [], inSum }.finish
  return spent

/-- `validate_payment_tx` (`tx.rs:70-127`) as a single thread runs it; the result is the set of
reserved outpoints. -/
def validatePaymentTx (spent : List OutPoint) (tx : Transaction) :
    Except StryiCoreError (List OutPoint) := do
  let thread ← TxThread.start tx
  completeThread inBlock managed spent thread

/-- `validate_group` (`block.rs:186-196`): the threads of a group take steps as `schedule` says,
and what is left is completed in order. The first error stops the group. -/
def validateGroup (schedule : List Nat) (txs : List Transaction) (spent : List OutPoint) :
    Except StryiCoreError (List OutPoint) := do
  let threads ← txs.mapM TxThread.start
  let (spent, threads) ← schedule.foldlM (stepThread inBlock managed) (spent, threads)
  threads.foldlM (completeThread inBlock managed) spent

/-- The fee of one payment (`tx.rs:144-176`). -/
def paymentFee (tx : Transaction) : Except StryiCoreError UInt64 := do
  let inputs ← tx.spentOutpoints.foldlM
    (fun inputs outpoint => do
      let utxo ← resolveUtxo outpoint inBlock managed
      okOr (checkedAdd inputs utxo.value)
        (.consensusValidationFailed "Overflow while summing input values"))
    (0 : UInt64)
  let outputs ← okOr (checkedSum (tx.data.outputs.map TransactionOut.value))
    (.consensusValidationFailed "Overflow while summing output values")
  okOr (checkedSub inputs outputs) (.consensusValidationFailed "Outputs exceed inputs")

/-- `calculate_total_fees` (`tx.rs:131-179`). -/
def calculateTotalFees (block : Block) : Except StryiCoreError UInt64 :=
  block.data.transactions.foldlM
    (fun total tx =>
      if tx.data.kind ≠ .payment then
        .ok total
      else do
        let fee ← paymentFee inBlock managed tx
        okOr (checkedAdd total fee)
          (.consensusValidationFailed "Overflow while accumulating total fees"))
    (0 : UInt64)

/-- `reward_rule` (`block.rs:199-226`). Indexing an absent output panics. -/
def rewardRule (block : Block) (rules : ConsensusConsts) : Except StryiCoreError Unit := do
  let fees ← calculateTotalFees inBlock managed block
  let subsidy := rules.blockSubsidy block.header.height
  let maxReward ← okOr (checkedAdd subsidy fees)
    (.consensusValidationFailed "Overflow while computing (subsidy + fees)")
  let coinbase ← okOr (block.data.transactions.head?.bind fun tx => tx.data.outputs.head?)
    (.panicked "index out of bounds")
  failIf (maxReward < coinbase.value)
    (.consensusInvalidCoinbaseAmount maxReward coinbase.value)

end Transactions

section Context

variable {S : Type} [UtxoStorage S]

/-- The fetch of `build_dependency_context` (`block.rs:160-183`): an absent outpoint is an
invalid block, any other storage error stays one. -/
def fetchManaged (outpoints : List OutPoint) (storage : S) :
    Except StryiCoreError (Table OutPoint UTXO) :=
  if outpoints.isEmpty then
    .ok ∅
  else
    (batchGetUtxos storage outpoints).mapError fun
      | .utxoNotFound outpoint => .txMissingUtxo outpoint.txid outpoint.vout
      | error => .storageError .utxo error

/-- `build_dependency_context` (`block.rs:153-183`). -/
def buildDependencyContext (data : BlockData) (storage : S) :
    Except StryiCoreError (DependencyGraph × Table OutPoint UTXO) := do
  let graph ← DependencyGraph.build data
  let graph ← graph.validateOrder data
  let managed ← fetchManaged (iter graph.externalInputs) storage
  return (graph, managed)

/-- The transactions at the positions of a group. -/
def BlockData.select (data : BlockData) (group : List Nat) : List Transaction :=
  group.filterMap fun position => data.transactions[position]?

/-- `validate_transactions` (`block.rs:133-150`) under a schedule of each group, which is numbered by
its place in the list of groups. Nothing is ever inserted into `in_block`. -/
def validateTransactionsUnder (schedule : Nat → List Nat) (block : Block)
    (rules : ConsensusConsts) (storage : S) : Except StryiCoreError Unit := do
  let (graph, managed) ← buildDependencyContext block.data storage
  let inBlock : Table OutPoint UTXO := ∅
  let _ ← graph.getParallelExecutionGroups.zipIdx.foldlM
    (fun spent group =>
      validateGroup inBlock managed (schedule group.2) (block.data.select group.1) spent)
    []
  if block.header.isGenesis then .ok () else rewardRule inBlock managed block rules

/-- `validate_transactions`, as the threads happen to be scheduled. -/
def validateTransactions (block : Block) (rules : ConsensusConsts) (storage : S) :
    Except StryiCoreError Unit :=
  validateTransactionsUnder Primitives.schedule block rules storage

end Context

section Header

variable {S : Type} [BlockStorage S]

/-- `verify_header_shape` (`header.rs:54-66`). -/
def verifyHeaderShape (block : Block) : Except StryiCoreError Unit := do
  verifyGenesisWorkShape block
  failIf (block.header.isGenesis = false ∧ block.header.hashThreshold = 0)
    (.consensusValidationFailed
      "normal block must carry a positive hash threshold (ZERO is genesis-only)")

/-- `verify_timestamp` (`header.rs:68-91`). -/
def verifyTimestamp (block : Block) (state : S) (nowSecs : UInt64) :
    Except StryiCoreError Unit := do
  let median ← medianTimePast state block.header.previousBlockHash
  failIf (block.header.timestamp ≤ median)
    (.consensusValidationFailed "block timestamp must be greater than median time past")
  failIf (saturatingAdd nowSecs maxFutureBlockTimeSecs < block.header.timestamp)
    (.consensusValidationFailed "block timestamp exceeds future time limit")

/-- `verify_hash_threshold` (`header.rs:94-119`). -/
def verifyHashThreshold (block : Block) (difficulty : DifficultyCalc) (state : S) :
    Except StryiCoreError Unit :=
  if block.header.isGenesis then
    .ok ()
  else do
    let expected ← difficulty.nextHashThreshold state block.header.previousBlockHash
    failIf (block.header.hashThreshold ≠ expected)
      (.consensusValidationFailed
        s!"Invalid hash threshold: expected {displayThreshold expected}, got {displayThreshold block.header.hashThreshold}")

/-- `verify_proof_of_work` (`header.rs:122-136`). -/
def verifyProofOfWork (block : Block) : Except StryiCoreError Unit :=
  failIf (block.header.isGenesis = false ∧
      block.blockHash.meetsThreshold block.header.hashThreshold = false)
    (.consensusValidationFailed "Block does not meet required Proof-of-Work threshold")

/-- `verify_merkle_root` (`header.rs:139-149`). -/
def verifyMerkleRoot (block : Block) : Except StryiCoreError Unit :=
  failIf (block.header.merkleRootHash ≠ computeMerkleRoot block.data.transactions)
    (.consensusValidationFailed "Merkle root mismatch")

/-- `validate_header` (`header.rs:10-51`), with the reading of the system clock. -/
def validateHeader (nowSecs : UInt64) (block : Block) (difficulty : DifficultyCalc) (state : S) :
    Except StryiCoreError Unit := do
  verifyHeaderShape block
  if block.header.isGenesis then .ok () else verifyTimestamp block state nowSecs
  verifyHashThreshold block difficulty state
  verifyProofOfWork block
  verifyMerkleRoot block

end Header

/-- `BlockValidator` (`validator/mod.rs:20-23`). -/
structure BlockValidator where
  consensusConsts : ConsensusConsts
  difficultyCalc : DifficultyCalc

namespace BlockValidator

variable {S : Type} [BlockStorage S] [UtxoStorage S]

/-- `BlockValidator::validate` (`validator/mod.rs:35-61`). -/
def validate (validator : BlockValidator) (nowSecs : UInt64) (block : Block) (view : S) :
    Except StryiCoreError Unit := do
  validateHeader nowSecs block validator.difficultyCalc view
  validateBlockStructure block
  validateTransactions block validator.consensusConsts view

/-- `BlockValidator::validate_for_fork` (`validator/mod.rs:66-92`): the same stages, on a
fork-local view. -/
def validateForFork (validator : BlockValidator) (nowSecs : UInt64) (block : Block) (view : S) :
    Except StryiCoreError Unit :=
  validator.validate nowSecs block view

end BlockValidator

end StryiChain
