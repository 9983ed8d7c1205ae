import StryiChain.Mempool.Dependencies
import StryiChain.Mempool.Storage
import StryiChain.Misc.MachineInt

/-!
# Fees and replacement (`transactions/fee_policy.rs`, `mempool/rbf_conflicts.rs`)

The fee that a policy asks for, and replace-by-fee: the fee a replacement has to pay and the
eviction of what it conflicts with. Sums without a check wrap around, as they do in a release
build. Computations with floating-point numbers are left open, one function for each expression
of the source.
-/

namespace StryiChain

/-- The floating-point expressions of the source.

`ceilMul n x` is `((n as f64) * x).ceil() as u64`, `onePlus x` is `1.0 + x`, `conflictFactor n`
is `1.0 + (n as f64 * 0.05)`, `isZero x` is `x == 0.0` and `feeRate fee size` is
`fee as f64 / size as f64`. -/
class Floats where
  F64 : Type
  zero : F64
  one : F64
  isZero : F64 → Bool
  onePlus : F64 → F64
  ceilMul : UInt64 → F64 → UInt64
  conflictFactor : Nat → F64
  feeRate : UInt64 → Nat → F64
  partialCmp : F64 → F64 → Option Ordering

/-- `FeePolicy`. -/
structure FeePolicy where
  fixedFee : UInt64
  inputCost : UInt64
  outputCost : UInt64
  byteCost : UInt64

/-- `RbfPolicy`. -/
structure RbfPolicy [Floats] where
  baseFeeDelta : UInt64
  percentageIncrease : Floats.F64

/-- `RbfConflictError`. -/
inductive RbfConflictError where
  | insufficientFee (required actual : UInt64)
  | other (message : String)

variable [Primitives]

/-- `FeeCalculator::calculate_fee` (`fee_policy.rs:73-80`). -/
def FeePolicy.calculateFee (policy : FeePolicy) (tx : Transaction) : UInt64 :=
  policy.fixedFee + policy.inputCost * UInt64.ofNat tx.data.inputs.length +
    policy.outputCost * UInt64.ofNat tx.data.outputs.length +
    policy.byteCost * UInt64.ofNat tx.serializedSize

variable [Floats]

namespace RbfPolicy

/-- `is_disabled`. -/
def isDisabled (policy : RbfPolicy) : Bool :=
  policy.baseFeeDelta == 0 && Floats.isZero policy.percentageIncrease

/-- `required_fee` (`rbf_conflicts.rs:53-59`). -/
def requiredFee (policy : RbfPolicy) (oldFee : UInt64) (loadFactor : Floats.F64) : UInt64 :=
  let requiredAbsolute := saturatingAdd oldFee policy.baseFeeDelta
  let requiredPercentage := Floats.ceilMul oldFee (Floats.onePlus policy.percentageIncrease)
  Floats.ceilMul (max requiredAbsolute requiredPercentage) loadFactor

/-- The transaction that spends an outpoint joins the set of conflicts. -/
def addConflict (storage : TransactionStorage) (conflicts : List TransactionHash) (o : OutPoint) :
    List TransactionHash :=
  match storage.getSpendingTx o with
  | some existing => List.insert existing conflicts
  | none => conflicts

/-- `find_conflicts` (`rbf_conflicts.rs:75-89`): the set of the transactions that spend an input
of the new one. -/
def findConflicts (newTx : Transaction) (storage : TransactionStorage) : List TransactionHash :=
  newTx.spentOutpoints.foldl (addConflict storage) []

/-- A descendant of a conflict is affected, and its fee counts if it is stored. -/
def affectDescendant (storage : TransactionStorage) (state : UInt64 × List TransactionHash)
    (descendant : TransactionHash) : UInt64 × List TransactionHash :=
  (match storage.get descendant with
    | some descendantTx => saturatingAdd state.1 descendantTx.fee
    | none => state.1,
  List.insert descendant state.2)

/-- One conflict: its fee and those of its descendants are added up, and all of them are affected
(`rbf_conflicts.rs:106-121`). -/
def affect (storage : TransactionStorage) (tracker : DependencyTracker)
    (state : UInt64 × List TransactionHash) (conflict : TransactionHash) :
    UInt64 × List TransactionHash :=
  match storage.get conflict with
  | none => state
  | some conflictTx =>
      (tracker.getDescendants conflict).foldl (affectDescendant storage)
        (saturatingAdd state.1 conflictTx.fee, List.insert conflict state.2)

/-- The fees of the conflicts and their descendants, and the set of these transactions. -/
def affected (conflicts : List TransactionHash) (storage : TransactionStorage)
    (tracker : DependencyTracker) : UInt64 × List TransactionHash :=
  (iter conflicts).foldl (affect storage tracker) (0, [])

/-- The fee that a replacement of a set of conflicts has to pay (`rbf_conflicts.rs:123-125`). -/
def conflictFee (policy : RbfPolicy) (conflicts : List TransactionHash) (totalFee : UInt64)
    (loadFactor : Floats.F64) : UInt64 :=
  Floats.ceilMul (policy.requiredFee totalFee loadFactor)
    (Floats.conflictFactor conflicts.length)

/-- The order of the removals: those with most descendants first (`rbf_conflicts.rs:134-139`). -/
def byDepth (tracker : DependencyTracker) (txs : List TransactionHash) : List TransactionHash :=
  (iter txs).mergeSort fun a b =>
    (tracker.getDescendants b).length ≤ (tracker.getDescendants a).length

/-- A transaction leaves the storage and the tracker. -/
def evict (state : TransactionStorage × DependencyTracker) (txHash : TransactionHash) :
    TransactionStorage × DependencyTracker :=
  ((state.1.remove txHash).2, state.2.removeTransaction txHash)

/-- `resolve_conflicts` (`rbf_conflicts.rs:91-147`). -/
def resolveConflicts (policy : RbfPolicy) (conflicts : List TransactionHash)
    (storage : TransactionStorage) (tracker : DependencyTracker) (newFee : UInt64)
    (loadFactor : Floats.F64) :
    Except RbfConflictError Unit × TransactionStorage × DependencyTracker :=
  if conflicts.isEmpty then
    (.ok (), storage, tracker)
  else
    let (totalConflictFee, allAffectedTxs) := affected conflicts storage tracker
    let requiredFee := policy.conflictFee conflicts totalConflictFee loadFactor
    if newFee < requiredFee then
      (.error (.insufficientFee requiredFee newFee), storage, tracker)
    else
      (.ok (), (byDepth tracker allAffectedTxs).foldl evict (storage, tracker))

end RbfPolicy

end StryiChain
