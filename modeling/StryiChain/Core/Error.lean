import StryiChain.Core.Transaction

/-!
# Errors (`error.rs`, `storage/mod.rs`)

The error values of the storage layer and of the core. A Rust panic is kept apart from the
error values: it is the extra constructor `panicked` of `StryiCoreError`, so that a function
that would panic is not mistaken for one that rejects its input.
-/

namespace StryiChain

/-- `StorageError` (`storage/mod.rs:26-63`). The sources of backend failures are not modelled. -/
inductive StorageError where
  | utxoNotFound (outpoint : OutPoint)
  | blockNotFound (hash : BlockHash)
  | heightMissing (height : UInt64)
  | uninitialized
  | invalidRange (start finish : UInt64)
  | invalidTransition (details : String)
  | unsupportedSchema (version : UInt32)
  | corruption (details : String)
  | backend (operation : String)
  | commit
  | unhealthy
  deriving DecidableEq

/-- `StorageError::is_fatal`. -/
def StorageError.isFatal : StorageError → Bool
  | .corruption _ | .backend _ | .commit | .unhealthy => true
  | _ => false

/-- `StorageLayer`. -/
inductive StorageLayer where
  | utxo
  | block
  | stats
  | undo
  | other
  deriving DecidableEq

/-- The part of `StryiCoreError` (`error.rs:26-95`) that validation and consensus produce, and
the marker of a panic. -/
inductive StryiCoreError where
  | txMissingUtxo (txid : TransactionHash) (vout : UInt32)
  | txWrongOwner (expected actual : AccountAddress)
  | txInsufficientInputValue (inputSum outputSum : UInt64)
  | txDoubleSpend (txid : TransactionHash) (vout : UInt32)
  | consensusValidationFailed (details : String)
  | consensusDifficultyAdjustmentFailed (details : String)
  | consensusChainSelectionFailed (details : String)
  | consensusInvalidCoinbaseAmount (maxExpected actual : UInt64)
  | invalidDifficultyValue (details : String)
  | transactionDependencyError (msg : String)
  | storageError (layer : StorageLayer) (err : StorageError)
  | panicked (msg : String)
  deriving DecidableEq

namespace StryiCoreError

/-- `error.to_string()` of the errors that are turned into storage errors; the other texts are
printed only. -/
def message : StryiCoreError → String
  | .consensusValidationFailed details => s!"Block validation failed: {details}"
  | .consensusDifficultyAdjustmentFailed details => s!"Difficulty adjustment failed: {details}"
  | .consensusChainSelectionFailed details => s!"Chain selection failed: {details}"
  | .invalidDifficultyValue details => s!"Invalid difficulty value : {details}"
  | .transactionDependencyError msg =>
      s!"Error while processing transactions' dependency tree : {msg}"
  | .txMissingUtxo txid vout => s!"Missing UTXO for txid={txid}, vout={vout}"
  | .txWrongOwner expected actual => s!"UTXO owned by {expected.debug}, not {actual.debug}"
  | .txInsufficientInputValue inputSum outputSum =>
      s!"Insufficient input value: sum(inputs)={inputSum}, sum(outputs)={outputSum}"
  | .txDoubleSpend txid vout =>
      s!"Detected transaction tries to perform double spend : {txid}:{vout}"
  | .consensusInvalidCoinbaseAmount maxExpected actual =>
      s!"Invalid coinbase reward amount: maximal expected was: {maxExpected}, got: {actual}"
  | .storageError _ _ => "Storage error"
  | .panicked msg => msg

/-- The errors a handler passes on instead of turning them into a rejection: storage failures,
and panics, which unwind. -/
def escapes : StryiCoreError → Bool
  | .storageError _ _ | .panicked _ => true
  | _ => false

end StryiCoreError

end StryiChain
