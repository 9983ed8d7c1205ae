import StryiChain.Mempool.Policy
import StryiChain.Misc.Fallible

/-!
# Admission checks (`mempool/validator.rs`)

A transaction is checked against the outputs of the pool and, for everything else, against the
answer of a lookup in the UTXO set. The sum of the inputs saturates and the sum of the outputs
wraps around.
-/

namespace StryiChain

variable [Primitives]

/-- `UtxoLookup`: the answer to a batch of outpoints. -/
abbrev UtxoLookup := List OutPoint → Except StorageError (Table OutPoint UTXO)

/-- `MempoolValidationError`. The text of a failed recovery is that of the signature library. -/
inductive MempoolValidationError where
  | storage (err : StorageError)
  | missingOutPoint (outpoint : OutPoint)
  | insufficientSum (inputs outputs : UInt64)
  | signatureFailed
  | ownershipMismatch (inputIndex : Nat) (expected actual : AccountAddress)
  | invalidOutpointIndex (outpoint : OutPoint)
  | potentialRbf (utxos : List UTXO)
  | nonPaymentTx (hash : String)

namespace MempoolTxValidator

/-- The inputs that the pool does not create (`validator.rs:71-77`). -/
def externalInputs (tx : Transaction) (storage : TransactionStorage) : List OutPoint :=
  tx.spentOutpoints.filter fun o => (storage.getCreatingTx o).isNone

/-- The lookup of the external inputs (`validator.rs:79-90`). -/
def externalUtxos (lookup : UtxoLookup) (tx : Transaction) (storage : TransactionStorage) :
    Except MempoolValidationError (Table OutPoint UTXO) :=
  if (externalInputs tx storage).isEmpty then
    .ok ∅
  else
    (lookup (externalInputs tx storage)).mapError fun
      | .utxoNotFound outpoint => .missingOutPoint outpoint
      | other => .storage other

/-- What an input resolves to (`validator.rs:105-129`). -/
def resolveInput (storage : TransactionStorage) (external : Table OutPoint UTXO)
    (outpoint : OutPoint) : Except MempoolValidationError UTXO :=
  match storage.getCreatingTx outpoint with
  | some txHash =>
      match storage.get txHash with
      | some memTx =>
          let outputs := memTx.transaction.data.outputs
          if inside : outpoint.vout.toNat < outputs.length % 2 ^ 32 then
            let output := outputs.get
              ⟨outpoint.vout.toNat, Nat.lt_of_lt_of_le inside (Nat.mod_le _ _)⟩
            .ok ⟨outpoint.txid, outpoint.vout, output.value, output.recipient⟩
          else
            .error (.invalidOutpointIndex outpoint)
      | none => .error (.missingOutPoint outpoint)
  | none => okOr (external.read outpoint) (.missingOutPoint outpoint)

/-- What the loop over the inputs accumulates. -/
structure InputScan where
  totalInputValue : UInt64
  utxos : List UTXO
  potentialRbf : Bool

/-- One input (`validator.rs:96-141`). -/
def scanInput (storage : TransactionStorage) (external : Table OutPoint UTXO)
    (txHash : TransactionHash) (recovered : AccountAddress) (scan : InputScan)
    (input : OutPoint × Nat) : Except MempoolValidationError InputScan := do
  let (outpoint, i) := input
  let potentialRbf :=
    match storage.getSpendingTx outpoint with
    | some spendingTxHash => scan.potentialRbf || spendingTxHash != txHash
    | none => scan.potentialRbf
  let utxo ← resolveInput storage external outpoint
  failIf (utxo.owner ≠ recovered) (.ownershipMismatch i recovered utxo.owner)
  return {
    totalInputValue := saturatingAdd scan.totalInputValue utxo.value
    utxos := scan.utxos ++ [utxo]
    potentialRbf }

/-- The checks of `validate` (`validator.rs:58-150`). -/
def check (lookup : UtxoLookup) (tx : Transaction) (storage : TransactionStorage) :
    Except MempoolValidationError InputScan := do
  failIf (tx.data.kind ≠ .payment) (.nonPaymentTx s!"{tx.data.hash}")
  let recovered ← okOr (Primitives.recoverAuthor tx) .signatureFailed
  let external ← externalUtxos lookup tx storage
  let scan ← tx.spentOutpoints.zipIdx.foldlM
    (scanInput storage external tx.data.hash recovered) ⟨0, [], false⟩
  let outputsSum := wrappingSum (tx.data.outputs.map TransactionOut.value)
  failIf (scan.totalInputValue < outputsSum) (.insufficientSum scan.totalInputValue outputsSum)
  return scan

/-- `MempoolTxValidator::validate` (`validator.rs:53-153`). -/
def validate (lookup : UtxoLookup) (tx : Transaction) (storage : TransactionStorage) :
    Except MempoolValidationError (List UTXO) := do
  let scan ← check lookup tx storage
  failIf (scan.potentialRbf = true) (.potentialRbf scan.utxos)
  return scan.utxos

end MempoolTxValidator

end StryiChain
