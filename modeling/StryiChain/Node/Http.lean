import StryiChain.Core.HashText
import StryiChain.Core.Postcard
import StryiChain.Mempool.Admission
import StryiChain.Misc.Base64
import StryiChain.Node.EventLoop

/-!
# The HTTP interface of a node, as the wallet uses it (`http/address.rs`, `http/tx.rs`)

A node tells the unspent outputs of an address, and takes transactions. What it refuses a
transaction for that its pool could take says nothing about the transaction: it is there already,
the pool is full, or something else spends the same outputs.
-/

namespace StryiChain

/-- `BadTxReason`. -/
inductive BadTxReason where
  | base64Decode
  | deserialize
  | recoverPublicKey
  | invalidSignature
  | invalidTransaction
  | duplicateTx
  | doubleSpend
  | insufficientFee
  | poolFull
  deriving DecidableEq

/-- `StryiNodeHttpApiError`, as far as these handlers answer with it. -/
inductive StryiNodeHttpApiError where
  | badTransaction (reason : BadTxReason) (message : Option String)
  | invalidResourceId (resourceKind requested message : String)
  | unexpected (message : String)

/-- `UtxoEntry`. -/
structure UtxoEntry where
  txid : TransactionHash
  vout : UInt32
  value : UInt64

/-- `AddressBalanceResponse`. -/
structure AddressBalanceResponse where
  address : String
  balance : UInt64
  utxos : List UtxoEntry

/-- What the handlers take from other crates: `verify_prehash` with the key that was recovered from
the signature, and the texts of errors that have texts of other crates in them. -/
class HttpLibraries where
  verifyPrehash : Transaction → Bool
  storageErrorText : StorageError → String
  decodeErrorText : DecodeError → String

section Handlers

variable [Primitives] [HttpLibraries]

open HttpLibraries

omit [Primitives] in
/-- `Transaction::verify_signature` (`transactions/mod.rs:105-119`) with the recovered key. -/
def Transaction.verifySignature (tx : Transaction) : Bool :=
  if tx.data.kind = .payment then verifyPrehash tx else true

omit [Primitives] in
/-- `Display for MempoolValidationError`. -/
def MempoolValidationError.text : MempoolValidationError → String
  | .storage err => s!"Cannot read transaction inputs: {storageErrorText err}"
  | .missingOutPoint outpoint => "Missing UTXO for outpoint: " ++ outpoint.debug
  | .insufficientSum inputs outputs =>
      s!"Input sum ({inputs}) is smaller than output sum ({outputs})"
  -- `map_mempool` does not answer with this text, which ends with one of the signature library
  | .signatureFailed => "Signature verification failed"
  | .ownershipMismatch inputIndex expected actual =>
      s!"Ownership mismatch on input {inputIndex}: expected {expected}, got {actual}"
  | .invalidOutpointIndex outpoint => "Invalid outpoint index: " ++ outpoint.debug
  | .potentialRbf _ => "Potential RBF transaction"
  | .nonPaymentTx hash =>
      s!"Mempool works only for Payment transactions, not Coinbase/Genesis, transaction hash: {hash}"

omit [Primitives] in
/-- `map_mempool` (`http/tx.rs:220-254`). -/
def mapMempool : MemPoolError → StryiNodeHttpApiError
  | .duplicateTransaction _ =>
      .badTransaction .duplicateTx (some "Such transaction already in mempool")
  | .doubleSpend outpoint =>
      .badTransaction .doubleSpend (some ("Double spend detected: " ++ outpoint.debug))
  | .poolFull _ => .badTransaction .poolFull (some "mempool is full")
  | .insufficientFee required actual =>
      .badTransaction .insufficientFee (some s!"required {required}, provided {actual}")
  | .validationError .signatureFailed => .badTransaction .invalidSignature none
  | .validationError err => .badTransaction .invalidTransaction (some err.text)
  | .storage (.inl err) => .unexpected s!"Storage error: {storageErrorText err}"
  | .storage (.inr message) => .unexpected s!"Storage error: {message}"

/-- `get_balance` (`http/address.rs:42-90`). -/
def getBalance {DB : Type} [UtxoStorage DB] (view : DB) (addr : String) :
    Except StryiNodeHttpApiError AddressBalanceResponse := do
  let address ← (Hash.fromHashString .address addr).mapError fun e =>
    .invalidResourceId "account" addr (decodeErrorText e)
  let utxoMap ← (getUtxosForAddress view address).mapError fun e =>
    .unexpected (storageErrorText e)
  let entries := iter utxoMap.toPairs
  return {
    address := address.display
    balance := (entries.map fun entry => entry.2.value).foldl saturatingAdd 0
    utxos := entries.map fun (outpoint, utxo) => ⟨outpoint.txid, outpoint.vout, utxo.value⟩ }

/-- `send_tx` up to the pool (`http/tx.rs:57-98`). -/
def readTx (rawTx : String) : Except StryiNodeHttpApiError Transaction := do
  let bytes ← okOr (base64Decode rawTx.toList)
    (.badTransaction .base64Decode (some "Cannot decode transaction (base64)"))
  let transaction ← okOr (transactionCodec.fromBytes bytes)
    (.badTransaction .deserialize (some "Cannot deserialize transaction (postcard)"))
  failIf (Primitives.recoverAuthor transaction = none)
    (.badTransaction .recoverPublicKey (some "Cannot recover public key from transaction"))
  failIf (transaction.verifySignature = false)
    (.badTransaction .invalidSignature (some "Invalid transaction signature"))
  return transaction

variable [Floats]

/-- What the node answers, its pool afterwards, and what it hands to `publish_tx`. -/
structure Submission where
  answer : Except StryiNodeHttpApiError String
  mempool : MemPool
  published : Option Transaction

/-- `send_tx` (`http/tx.rs:50-128`). -/
def sendTx (mempool : MemPool) (lookup : UtxoLookup) (now : UInt64) (rawTx : String) :
    Submission :=
  match readTx rawTx with
  | .error e => ⟨.error e, mempool, none⟩
  | .ok transaction =>
      match mempool.addTransaction lookup now transaction with
      | (.ok (), mempool) => ⟨.ok "Transaction accepted", mempool, some transaction⟩
      | (.error e, mempool) => ⟨.error (mapMempool e), mempool, none⟩

end Handlers

/-! ### What the pool takes -/

section Taking

variable [Primitives] {storage : TransactionStorage} {external : Table OutPoint UTXO}
  {tx : Transaction} {lookup : UtxoLookup}

open MempoolTxValidator

omit [Primitives] in
/-- The loop over inputs that all resolve to outputs of the author. -/
theorem scanInputs_ok {hash : TransactionHash} {recovered : AccountAddress}
    {l : List (OutPoint × Nat)}
    (owned : Owned (poolView storage external) recovered (l.map Prod.fst)) (scan : InputScan) :
    ∃ scan', l.foldlM (scanInput storage external hash recovered) scan = .ok scan' := by
  induction l generalizing scan with
  | nil => exact ⟨scan, rfl⟩
  | cons input l ih =>
    obtain ⟨utxo, here, owner⟩ := owned input.1 List.mem_cons_self
    have resolves : resolveInput storage external input.1 = .ok utxo := toOption_eq_some.mp here
    have own : ¬ utxo.owner ≠ recovered := fun other => other owner
    have first : ∃ middle, scanInput storage external hash recovered scan input = .ok middle := by
      rw [scanInput, resolves]
      simp only [bind_ok, failIf_of_not _ own]
      exact ⟨_, rfl⟩
    obtain ⟨middle, first⟩ := first
    obtain ⟨scan', rest⟩ := ih (fun o mem => owned o (List.mem_cons_of_mem _ mem)) middle
    refine ⟨scan', ?_⟩
    rw [List.foldlM_cons, first, bind_ok]
    exact rest

/-- What the pool asks for is enough to pass its checks. -/
theorem check_of_admissible (answer : externalUtxos lookup tx storage = .ok external)
    (admissible : PoolAdmissible storage external tx) :
    ∃ scan, check lookup tx storage = .ok scan := by
  have payment : ¬ tx.data.kind ≠ .payment := fun other => other admissible.kind
  have owned : Owned (poolView storage external) tx.author
      (tx.spentOutpoints.zipIdx.map Prod.fst) := by
    rw [List.zipIdx_map_fst]
    exact admissible.owned
  obtain ⟨scan, scanned⟩ : ∃ scan, tx.spentOutpoints.zipIdx.foldlM
      (scanInput storage external tx.data.hash tx.author) ⟨0, [], false⟩ = .ok scan :=
    scanInputs_ok owned _
  have sum := (scanInputs_eq_ok scanned).2
  rw [List.zipIdx_map_fst, UInt64.toNat_zero, Nat.zero_add] at sum
  have outputs : (tx.data.outputs.map TransactionOut.value).map UInt64.toNat =
      tx.data.outputs.map fun output => output.value.toNat := List.map_map
  have enough : ¬ scan.totalInputValue <
      wrappingSum (tx.data.outputs.map TransactionOut.value) := by
    rw [UInt64.lt_iff_toNat_lt, wrappingSum_toNat, outputs, sum]
    exact Nat.not_lt.mpr admissible.pays
  refine ⟨scan, ?_⟩
  rw [check, failIf_of_not _ payment, bind_ok, admissible.signed, okOr_some, bind_ok, answer,
    bind_ok, scanned, bind_ok]
  dsimp only
  rw [failIf_of_not _ enough, bind_ok]
  rfl

variable [Floats] {pool : MemPool} {now : UInt64}

/-- A transaction that the pool could take goes on to the transactions that it conflicts with. -/
theorem addTransaction_of_admissible (answer : externalUtxos lookup tx pool.storage = .ok external)
    (admissible : PoolAdmissible pool.storage external tx)
    (missing : pool.find tx.data.hash = none) (room : pool.storage.len < pool.config.maxSize) :
    ∃ utxos, pool.addTransaction lookup now tx = pool.admitResolved now tx utxos := by
  obtain ⟨scan, checked⟩ := check_of_admissible answer admissible
  refine ⟨scan.utxos, ?_⟩
  rw [MemPool.addTransaction, if_neg, if_neg (Nat.not_le.mpr room), validate, checked, bind_ok]
  · by_cases replaces : scan.potentialRbf = true
    · simp only [failIf, if_pos replaces]
      rfl
    · rw [failIf_of_not _ replaces]
      rfl
  · rw [Bool.not_eq_true]
    exact TransactionStorage.exists_eq_false.mpr missing

/-- A refusal that says nothing about the transaction itself. -/
inductive Standing : MemPoolError → Prop where
  | duplicateTransaction (hash : TransactionHash) : Standing (.duplicateTransaction hash)
  | poolFull (size : Nat) : Standing (.poolFull size)
  | doubleSpend (outpoint : OutPoint) : Standing (.doubleSpend outpoint)
  | insufficientFee (required actual : UInt64) : Standing (.insufficientFee required actual)

theorem admitResolved_refusal {utxos : List UTXO} {e : MemPoolError}
    (refused : (pool.admitResolved now tx utxos).1 = .error e) : Standing e := by
  simp only [MemPool.admitResolved, RbfPolicy.resolveConflicts] at refused
  split at refused
  · cases refused
  · split at refused
    · cases refused
      split
      · exact .doubleSpend _
      · exact .duplicateTransaction _
    · split_ifs at refused
      cases refused
      exact .insufficientFee _ _

/-- Nothing but what is in the pool already keeps such a transaction out. -/
theorem addTransaction_refusal (answer : externalUtxos lookup tx pool.storage = .ok external)
    (admissible : PoolAdmissible pool.storage external tx) {e : MemPoolError}
    (refused : (pool.addTransaction lookup now tx).1 = .error e) : Standing e := by
  by_cases held : pool.storage.exists' tx.data.hash = true
  · rw [MemPool.addTransaction, if_pos held] at refused
    cases refused
    exact .duplicateTransaction _
  · by_cases full : pool.config.maxSize ≤ pool.storage.len
    · rw [MemPool.addTransaction, if_neg held, if_pos full] at refused
      cases refused
      exact .poolFull _
    · have missing := TransactionStorage.exists_eq_false.mp (Bool.not_eq_true _ ▸ held)
      obtain ⟨utxos, same⟩ := addTransaction_of_admissible answer admissible missing
        (Nat.not_le.mp full)
      rw [same] at refused
      exact admitResolved_refusal refused

/-- Without a rival the transaction enters the pool. -/
theorem addTransaction_unopposed (answer : externalUtxos lookup tx pool.storage = .ok external)
    (admissible : PoolAdmissible pool.storage external tx)
    (missing : pool.find tx.data.hash = none) (room : pool.storage.len < pool.config.maxSize)
    (unspent : ∀ o ∈ tx.spentOutpoints, pool.storage.getSpendingTx o = none) :
    ∃ fee, pool.addTransaction lookup now tx = (.ok (), pool.store now tx fee) := by
  obtain ⟨utxos, same⟩ := addTransaction_of_admissible answer admissible missing room
  have none' : (RbfPolicy.findConflicts tx pool.storage).isEmpty = true := by
    rw [List.isEmpty_iff, List.eq_nil_iff_forall_not_mem]
    intro h mem
    obtain ⟨o, spent, other⟩ := mem_findConflicts.mp mem
    rw [unspent o spent] at other
    cases other
  refine ⟨pool.actualFee tx utxos, ?_⟩
  rw [same, MemPool.admitResolved]
  exact if_pos none'

end Taking

end StryiChain
