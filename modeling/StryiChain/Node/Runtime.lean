import StryiChain.Chain.Run
import StryiChain.Mempool.Pool

/-!
# The consensus runtime of a node (`node/consensus_runtime.rs`, `node/event_loop.rs`)

Blocks reach the engine through the runtime, which updates the pool with what a committed
transition has attached. The event loop decides by the outcome alone whether a block from the
network is sent on. A node that is being stopped is not modelled; a storage that was marked as
failed shows in the failures of later calls.
-/

namespace StryiChain

open StryiConsensusEngine

variable [Primitives] [Floats]

/-- `ConsensusOutcome` (`consensus_runtime.rs:26-41`). -/
inductive ConsensusOutcome where
  | applied (newHead : UInt64 × BlockHash) (chainWork : Nat)
  | causedReorganization (newHead : UInt64 × BlockHash) (chainWork : Nat)
      (attached detached : Nat)
  | alreadyIncludedInChain
  | alreadyKnownInForkTree
  | buffered
  | rejected (error : StryiCoreError)

/-- `ConsensusRuntime`: the engine and the pool that it shares with the rest of the node. -/
structure ConsensusRuntime (DB : Type) where
  engine : StryiConsensusEngine DB
  mempool : MemPool

/-- `publish_transition` (`consensus_runtime.rs:150-160`). -/
def publishTransition (pool : MemPool) (transition : CommittedTransition) : MemPool :=
  transition.attached.foldl (fun pool attached => pool.updateOnBlock attached.data) pool

namespace ConsensusRuntime

variable {DB : Type} [FullNodeStorage DB]

/-- The outcome that stands for a verdict, and the pool after it (`consensus_runtime.rs:108-136`). -/
def outcomeOf (pool : MemPool) : ConsensusVerdict → ConsensusOutcome × MemPool
  | .applied transition =>
      (.applied transition.newHead transition.chainWork, publishTransition pool transition)
  | .causedReorganization transition =>
      (.causedReorganization transition.newHead transition.chainWork transition.attached.length
        transition.detached.length, publishTransition pool transition)
  | .alreadyIncludedInChain => (.alreadyIncludedInChain, pool)
  | .alreadyKnownInForkTree => (.alreadyKnownInForkTree, pool)
  | .buffered => (.buffered, pool)
  | .rejected error => (.rejected error, pool)

/-- `apply_block` (`consensus_runtime.rs:45-50`): a batch of one block. -/
def applyBlock (runtime : ConsensusRuntime DB) (delivery : Delivery) :
    Except StryiCoreError ConsensusOutcome × ConsensusRuntime DB :=
  match onBlock delivery.nowSecs delivery.faults delivery.block runtime.engine with
  | .error error engine => (.error error, { runtime with engine })
  | .ok verdict engine =>
      let (outcome, mempool) := outcomeOf runtime.mempool verdict
      (.ok outcome, { engine, mempool })

/-- `apply_block_batch` (`consensus_runtime.rs:97-148`): a rejection is the last outcome. -/
def applyBlocks : ConsensusRuntime DB → List Delivery →
    Except StryiCoreError (List ConsensusOutcome) × ConsensusRuntime DB
  | runtime, [] => (.ok [], runtime)
  | runtime, delivery :: deliveries =>
      match runtime.applyBlock delivery with
      | (.error error, runtime) => (.error error, runtime)
      | (.ok (.rejected error), runtime) => (.ok [.rejected error], runtime)
      | (.ok outcome, runtime) =>
          let (outcomes, runtime) := runtime.applyBlocks deliveries
          (outcomes.map (outcome :: ·), runtime)

/-- The outcomes after which the event loop sends a block on (`event_loop.rs:366-369`). -/
def shouldRelay : ConsensusOutcome → Bool
  | .applied _ _ | .buffered | .causedReorganization _ _ _ _ => true
  | _ => false

/-- A block from the network (`event_loop.rs:334-386`): the first component says whether it is
broadcast again. -/
def receiveBlock (runtime : ConsensusRuntime DB) (delivery : Delivery) :
    Bool × ConsensusRuntime DB :=
  match runtime.applyBlock delivery with
  | (.ok outcome, runtime) => (shouldRelay outcome, runtime)
  | (.error _, runtime) => (false, runtime)

/-- The node after a sequence of blocks from the network. -/
def receiveAll (runtime : ConsensusRuntime DB) (deliveries : List Delivery) :
    ConsensusRuntime DB :=
  deliveries.foldl (fun runtime delivery => (runtime.receiveBlock delivery).2) runtime

/-- The engine of the node makes the same run as an engine alone. -/
theorem receiveBlock_engine (runtime : ConsensusRuntime DB) (delivery : Delivery) :
    (runtime.receiveBlock delivery).2.engine = deliver runtime.engine delivery := by
  unfold receiveBlock applyBlock deliver
  cases onBlock delivery.nowSecs delivery.faults delivery.block runtime.engine <;> rfl

theorem receiveAll_engine (runtime : ConsensusRuntime DB) (deliveries : List Delivery) :
    (runtime.receiveAll deliveries).engine = deliverAll runtime.engine deliveries := by
  induction deliveries generalizing runtime with
  | nil => rfl
  | cons delivery deliveries ih =>
    refine (ih (runtime.receiveBlock delivery).2).trans ?_
    rw [receiveBlock_engine]
    rfl

/-- The error of a rejection. -/
def rejection : ConsensusOutcome → Option StryiCoreError
  | .rejected error => some error
  | _ => none

theorem applyBlock_engine (runtime : ConsensusRuntime DB) (delivery : Delivery) :
    (runtime.applyBlock delivery).2.engine = deliver runtime.engine delivery := by
  unfold applyBlock deliver
  cases onBlock delivery.nowSecs delivery.faults delivery.block runtime.engine <;> rfl

/-- The engine after a batch has seen some of its blocks, in their order. -/
theorem applyBlocks_engine (runtime : ConsensusRuntime DB) (deliveries : List Delivery) :
    ∃ n, (runtime.applyBlocks deliveries).2.engine =
      deliverAll runtime.engine (deliveries.take n) := by
  induction deliveries generalizing runtime with
  | nil => exact ⟨0, rfl⟩
  | cons delivery deliveries ih =>
    have first := applyBlock_engine runtime delivery
    unfold applyBlocks
    split
    · rename_i step
      rw [step] at first
      exact ⟨1, first⟩
    · rename_i step
      rw [step] at first
      exact ⟨1, first⟩
    · rename_i after _ step
      rw [step] at first
      obtain ⟨n, rest⟩ := ih after
      refine ⟨n + 1, rest.trans ?_⟩
      rw [first]
      rfl

/-- The call is answered, and not with a rejection. -/
def Accepts (engine : StryiConsensusEngine DB) (delivery : Delivery) : Prop :=
  ∃ verdict engine', onBlock delivery.nowSecs delivery.faults delivery.block engine =
    .ok verdict engine' ∧ ∀ error, verdict ≠ .rejected error

/-- A batch without rejections reaches the engine as a whole. -/
theorem applyBlocks_ok {runtime : ConsensusRuntime DB} {deliveries : List Delivery}
    (accepted : Along Accepts runtime.engine deliveries) :
    ∃ outcomes after, runtime.applyBlocks deliveries = (.ok outcomes, after) ∧
      after.engine = deliverAll runtime.engine deliveries ∧ outcomes.findSome? rejection = none := by
  induction deliveries generalizing runtime with
  | nil => exact ⟨[], runtime, rfl, rfl, rfl⟩
  | cons delivery deliveries ih =>
    obtain ⟨⟨verdict, engine', done, fine⟩, rest⟩ := accepted
    have reached : deliver runtime.engine delivery = engine' := by rw [deliver, done]
    obtain ⟨outcome, mempool, houtcome, kept⟩ : ∃ outcome mempool,
        outcomeOf runtime.mempool verdict = (outcome, mempool) ∧ rejection outcome = none := by
      cases verdict with
      | rejected error => exact absurd rfl (fine error)
      | _ => exact ⟨_, _, rfl, rfl⟩
    have step : runtime.applyBlock delivery = (.ok outcome, ⟨engine', mempool⟩) := by
      rw [applyBlock, done]
      dsimp only
      rw [houtcome]
    rw [reached] at rest
    obtain ⟨outcomes, after, batch, last, none⟩ := @ih ⟨engine', mempool⟩ rest
    refine ⟨outcome :: outcomes, after, ?_, ?_, ?_⟩
    · rw [applyBlocks, step]
      cases outcome with
      | rejected error => cases kept
      | _ =>
        dsimp only
        rw [batch]
        rfl
    · rw [last, ← reached]
      rfl
    · rw [List.findSome?_cons, kept, none]

end ConsensusRuntime

end StryiChain
