import StryiChain.Misc.Simulation
import StryiChain.Storage.Transition

/-!
# Two storages in lockstep

Two backends go in lockstep when related storages answer alike and stay related under every write.
Then a transition that is staged in both gives the same result or the same error, and leaves them
related: staging knows nothing of a backend but what the storage traits offer.
-/

namespace StryiChain

/-- Related storages answer alike and stay related. Chain work is written only when it fits the
integer of the source, as the staging guarantees. -/
structure Lockstep (S T : Type) [FullNodeStorage S] [FullNodeStorage T] (R : S → T → Prop) :
    Prop where
  initial : R StorageWrite.initial StorageWrite.initial
  checkSchema : ∀ chainMetadata,
    FullNodeStorage.checkSchema S chainMetadata = FullNodeStorage.checkSchema T chainMetadata
  getUtxo_eq : ∀ {s t}, R s t → ∀ outpoint, getUtxo s outpoint = getUtxo t outpoint
  getBlockHashByHeight_eq : ∀ {s t}, R s t → ∀ height,
    getBlockHashByHeight s height = getBlockHashByHeight t height
  getBlockByHash_eq : ∀ {s t}, R s t → ∀ hash, getBlockByHash s hash = getBlockByHash t hash
  getBlockByHeight_eq : ∀ {s t}, R s t → ∀ height,
    getBlockByHeight s height = getBlockByHeight t height
  getBlockHeaderByHash_eq : ∀ {s t}, R s t → ∀ hash,
    getBlockHeaderByHash s hash = getBlockHeaderByHash t hash
  getBlockIndex_eq : ∀ {s t}, R s t → ∀ hash, getBlockIndex s hash = getBlockIndex t hash
  getBlockIndex_fits : ∀ {s t}, R s t → ∀ {hash index},
    getBlockIndex s hash = .ok (some index) → index.chainWork < 2 ^ 512
  chainState_eq : ∀ {s t}, R s t → chainState s = chainState t
  metadata_eq : ∀ {s t}, R s t → metadata s = metadata t
  batchPutUtxos : ∀ {s t}, R s t → ∀ utxos,
    Agree R (batchPutUtxos s utxos) (batchPutUtxos t utxos)
  batchRemoveUtxos : ∀ {s t}, R s t → ∀ outpoints,
    Agree R (batchRemoveUtxos s outpoints) (batchRemoveUtxos t outpoints)
  putBlock : ∀ {s t}, R s t → ∀ (block) {index}, index.chainWork < 2 ^ 512 →
    Agree R (putBlock s block index) (putBlock t block index)
  removeCanonicalBlock : ∀ {s t}, R s t → ∀ block,
    Agree R (removeCanonicalBlock s block) (removeCanonicalBlock t block)
  putBlockUndo : ∀ {s t}, R s t → ∀ hash undo,
    Agree R (putBlockUndo s hash undo) (putBlockUndo t hash undo)
  putChainState : ∀ {s t}, R s t → ∀ {state}, state.chainWork < 2 ^ 512 →
    Agree R (putChainState s state) (putChainState t state)
  putMetadata : ∀ {s t}, R s t → ∀ chainMetadata,
    Agree R (putMetadata s chainMetadata) (putMetadata t chainMetadata)

/-- The next state of the chain fits whatever the last one was. -/
theorem extendedState_fits [Primitives] {state next : ChainState} {block : Block}
    (run : extendedState state block = .ok next) : next.chainWork < 2 ^ 512 := by
  simp only [extendedState, bind_eq_ok, mapError_eq_ok, pure_eq_ok] at run
  obtain ⟨-, -, -, -, work, added, count, -, rfl⟩ := run
  obtain ⟨fits, rfl⟩ := addWork_eq_ok.mp added
  exact fits

/-- The work below genesis fits. -/
theorem zero_fits (width : Nat) : 0 < 2 ^ width := Nat.two_pow_pos width

/-- What a staged transition reports. -/
def StagedTransition.result (staged : StagedTransition) : ChainTransitionResult :=
  ⟨staged.state.latestBlock, staged.state.chainWork, staged.detached⟩

namespace Lockstep

variable {S T : Type} [FullNodeStorage S] [FullNodeStorage T] {R : S → T → Prop} {s : S} {t : T}
  {α : Type}

/-- The same value beside related storages. -/
def Beside (R : S → T → Prop) (a : α × S) (b : α × T) : Prop := a.1 = b.1 ∧ R a.2 b.2

/-- Related storages beside the same value. -/
def Ahead (R : S → T → Prop) (a : S × α) (b : T × α) : Prop := R a.1 b.1 ∧ a.2 = b.2

/-- Related storages beside the same state of the chain, whose work fits. -/
def Attached (R : S → T → Prop) (a : S × ChainState) (b : T × ChainState) : Prop :=
  Ahead R a b ∧ a.2.chainWork < 2 ^ 512

section Blocks

theorem batchGetUtxos_eq (lockstep : Lockstep S T R) (related : R s t)
    (outpoints : List OutPoint) : batchGetUtxos s outpoints = batchGetUtxos t outpoints := by
  have one : fetchUtxo s = fetchUtxo t := by
    funext result outpoint
    rw [fetchUtxo, lockstep.getUtxo_eq related]
    rfl
  rw [batchGetUtxos, one]
  rfl

theorem spendInputs_agree (lockstep : Lockstep S T R) (related : R s t)
    (externalInputs : List OutPoint) :
    Agree (Beside R) (spendInputs s externalInputs) (spendInputs t externalInputs) := by
  unfold spendInputs
  by_cases none : externalInputs.isEmpty
  · rw [if_pos none, if_pos none]
    exact .ok ⟨rfl, related⟩
  · rw [if_neg none, if_neg none]
    apply Agree.bind_eq (lockstep.batchGetUtxos_eq related externalInputs)
    intro existing _
    apply Agree.bind_same
    intro spent _
    apply Agree.bind (lockstep.batchRemoveUtxos related externalInputs)
    intro s t related
    exact .ok ⟨rfl, related⟩

variable [Primitives]

theorem putCreated_agree (lockstep : Lockstep S T R) (related : R s t)
    (createdUtxos : Table OutPoint UTXO) :
    Agree R (putCreated s createdUtxos) (putCreated t createdUtxos) := by
  unfold putCreated
  by_cases none : createdUtxos.keys.isEmpty
  · rw [if_pos none, if_pos none]
    exact .ok related
  · rw [if_neg none, if_neg none]
    exact lockstep.batchPutUtxos related _

theorem applyBlock_agree (lockstep : Lockstep S T R) (related : R s t) (block : Block) :
    Agree (Beside R) (applyBlock block s) (applyBlock block t) := by
  apply Agree.bind (lockstep.spendInputs_agree related _)
  intro a b beside
  obtain ⟨spent, s⟩ := a
  obtain ⟨spent', t⟩ := b
  obtain ⟨rfl, related⟩ := beside
  apply Agree.bind (lockstep.putCreated_agree related _)
  intro s t related
  exact .ok ⟨rfl, related⟩

/-- A block is attached to both, and its chain work is written as the source would. -/
theorem attachBlock_agree (lockstep : Lockstep S T R) (related : R s t) (state : ChainState)
    (block : Block) :
    Agree (Attached R) (attachBlock s state block) (attachBlock t state block) := by
  apply Agree.bind_same
  intro next extended
  have fits := extendedState_fits extended
  apply Agree.bind (lockstep.applyBlock_agree related block)
  intro a b beside
  obtain ⟨undo, s⟩ := a
  obtain ⟨undo', t⟩ := b
  obtain ⟨rfl, related⟩ := beside
  apply Agree.bind (lockstep.putBlock related block fits)
  intro s t related
  apply Agree.bind (lockstep.putBlockUndo related block.blockHash undo)
  intro s t related
  exact .ok ⟨⟨related, rfl⟩, fits⟩

end Blocks

section Stages

theorem verifyCurrentState_eq (lockstep : Lockstep S T R) (related : R s t) (state : ChainState) :
    verifyCurrentState s state = verifyCurrentState t state := by
  simp only [verifyCurrentState, lockstep.metadata_eq related,
    lockstep.getBlockHeaderByHash_eq related, lockstep.getBlockHashByHeight_eq related,
    lockstep.getBlockIndex_eq related]

variable [Primitives]

theorem canonicalAncestor_eq (lockstep : Lockstep S T R) (related : R s t)
    (commonAncestor : BlockHash) :
    canonicalAncestor s commonAncestor = canonicalAncestor t commonAncestor := by
  simp only [canonicalAncestor, lockstep.getBlockByHash_eq related,
    lockstep.getBlockHashByHeight_eq related, lockstep.getBlockIndex_eq related]

/-- The index of an ancestor has been written, so that its chain work fits. -/
theorem canonicalAncestor_fits (lockstep : Lockstep S T R) (related : R s t)
    {commonAncestor : BlockHash} {ancestor : Block × BlockIndexData}
    (run : canonicalAncestor s commonAncestor = .ok ancestor) : ancestor.2.chainWork < 2 ^ 512 := by
  simp only [canonicalAncestor, bind_eq_ok, okOr_eq_ok] at run
  obtain ⟨-, -, block, -, -, -, canonical, -, -, -, rest⟩ := run
  by_cases other : canonical ≠ commonAncestor
  · rw [if_pos other] at rest
    simp only [bind_eq_ok] at rest
    obtain ⟨-, -, -, -, -, -, impossible⟩ := rest
    cases impossible
  · rw [if_neg other] at rest
    simp only [bind_eq_ok, okOr_eq_ok, pure_eq_ok] at rest
    obtain ⟨-, read, index, rfl, -, -, rfl⟩ := rest
    exact lockstep.getBlockIndex_fits related read

theorem detachTip_agree (lockstep : Lockstep S T R) (related : R s t) (height : UInt64)
    (hash : BlockHash) : Agree (Beside R) (detachTip s height hash) (detachTip t height hash) := by
  apply Agree.bind_eq (lockstep.getBlockByHash_eq related hash)
  intro found _
  apply Agree.bind_same
  intro block _
  apply Agree.bind_eq (lockstep.getBlockHashByHeight_eq related height)
  intro mapped _
  apply Agree.bind_same
  intro canonical _
  apply Agree.bind_same
  intro _ _
  apply Agree.bind (lockstep.removeCanonicalBlock related block)
  intro s t related
  exact .ok ⟨rfl, related⟩

theorem detachLoop_agree (lockstep : Lockstep S T R) (commonAncestor : BlockHash) (steps : Nat)
    (related : R s t) (latest : UInt64 × BlockHash) :
    Agree (Ahead R) (detachLoop commonAncestor steps s latest)
      (detachLoop commonAncestor steps t latest) := by
  induction steps generalizing s t latest with
  | zero =>
    rw [detachLoop, detachLoop]
    by_cases reached : latest.2 = commonAncestor
    · rw [if_pos reached, if_pos reached]
      exact .ok ⟨related, rfl⟩
    · rw [if_neg reached, if_neg reached]
      exact .error _
  | succ steps ih =>
    rw [detachLoop, detachLoop]
    by_cases reached : latest.2 = commonAncestor
    · rw [if_pos reached, if_pos reached]
      exact .ok ⟨related, rfl⟩
    · rw [if_neg reached, if_neg reached]
      apply Agree.bind (lockstep.detachTip_agree related latest.1 latest.2)
      intro a b beside
      obtain ⟨block, s⟩ := a
      obtain ⟨block', t⟩ := b
      obtain ⟨rfl, related⟩ := beside
      apply Agree.bind (ih related _)
      intro a b ahead
      obtain ⟨s, last, detached⟩ := a
      obtain ⟨t, last', detached'⟩ := b
      obtain ⟨related, same⟩ := ahead
      cases same
      exact .ok ⟨related, rfl⟩

theorem detachToAncestor_agree (lockstep : Lockstep S T R) (related : R s t) (state : ChainState)
    (ancestor : Block) (commonAncestor : BlockHash) :
    Agree (Ahead R) (detachToAncestor s state ancestor commonAncestor)
      (detachToAncestor t state ancestor commonAncestor) := by
  apply Agree.bind (lockstep.detachLoop_agree commonAncestor _ related state.latestBlock)
  intro a b ahead
  obtain ⟨s, last, detached⟩ := a
  obtain ⟨t, last', detached'⟩ := b
  obtain ⟨related, same⟩ := ahead
  cases same
  exact .ok ⟨related, rfl⟩

theorem attachPrepared_agree (lockstep : Lockstep S T R) (related : R s t) {state : ChainState}
    (fits : state.chainWork < 2 ^ 512) (blocks : List (Block × BlockUndo)) :
    Agree (Attached R) (attachPrepared s state blocks) (attachPrepared t state blocks) := by
  apply Agree.foldlM (R := Attached R)
  · intro a b invariant entry _
    obtain ⟨s, state⟩ := a
    obtain ⟨t, state'⟩ := b
    obtain ⟨⟨related, rfl⟩, -⟩ := invariant
    apply Agree.bind_same
    intro next extended
    have fits := extendedState_fits extended
    apply Agree.bind (lockstep.putBlock related entry.1 fits)
    intro s t related
    apply Agree.bind (lockstep.putBlockUndo related entry.1.blockHash entry.2)
    intro s t related
    exact .ok ⟨⟨related, rfl⟩, fits⟩
  · exact ⟨⟨related, rfl⟩, fits⟩

omit [Primitives] in
theorem reopenGenesis_agree (lockstep : Lockstep S T R) (related : R s t) (state : ChainState)
    (block : Block) (chainMetadata : ChainMetadata) :
    Agree (Beside R) (reopenGenesis s state block chainMetadata)
      (reopenGenesis t state block chainMetadata) := by
  apply Agree.bind_eq (lockstep.getBlockByHeight_eq related 0)
  intro found _
  apply Agree.bind_same
  intro saved _
  apply Agree.bind_eq (lockstep.metadata_eq related)
  intro found _
  apply Agree.bind_same
  intro savedMetadata _
  apply Agree.bind_same
  intro _ _
  apply Agree.bind_eq (lockstep.verifyCurrentState_eq related state)
  intro _ _
  exact .ok ⟨rfl, related⟩

theorem stageGenesis_agree (lockstep : Lockstep S T R) (related : R s t)
    (current : Option ChainState) (block : Block) (chainMetadata : ChainMetadata) :
    Agree (Beside R) (stageGenesis s current block chainMetadata)
      (stageGenesis t current block chainMetadata) := by
  have fits : 0 < 2 ^ 512 := zero_fits 512
  apply Agree.bind_same
  intro _ _
  cases current with
  | some state => exact lockstep.reopenGenesis_agree related state block chainMetadata
  | none =>
    apply Agree.bind_eq (lockstep.metadata_eq related)
    intro _ _
    apply Agree.bind_same
    intro _ _
    apply Agree.bind_eq (lockstep.getBlockByHeight_eq related 0)
    intro _ _
    apply Agree.bind_same
    intro _ _
    apply Agree.bind (lockstep.putBlock related block fits)
    intro s t related
    apply Agree.bind (lockstep.applyBlock_agree related block)
    intro a b beside
    apply Agree.bind (lockstep.putMetadata beside.2 chainMetadata)
    intro s t related
    apply Agree.bind (lockstep.putChainState related fits)
    intro s t related
    exact .ok ⟨rfl, related⟩

theorem stageAppend_agree (lockstep : Lockstep S T R) (related : R s t)
    (current : Option ChainState) (block : Block) :
    Agree (Beside R) (stageAppend s current block) (stageAppend t current block) := by
  apply Agree.bind_same
  intro state _
  apply Agree.bind_eq (lockstep.verifyCurrentState_eq related state)
  intro _ _
  apply Agree.bind (lockstep.attachBlock_agree related state block)
  intro a b attached
  obtain ⟨s, next⟩ := a
  obtain ⟨t, next'⟩ := b
  obtain ⟨⟨related, rfl⟩, fits⟩ := attached
  apply Agree.bind (lockstep.putChainState related fits)
  intro s t related
  exact .ok ⟨rfl, related⟩

theorem stageReorganization_agree (lockstep : Lockstep S T R) (related : R s t)
    (current : Option ChainState) (delta : ForkDbDelta) :
    Agree (Beside R) (stageReorganization s current delta)
      (stageReorganization t current delta) := by
  apply Agree.bind_same
  intro state _
  apply Agree.bind_eq (lockstep.verifyCurrentState_eq related state)
  intro _ _
  apply Agree.bind_same
  intro _ _
  apply Agree.bind_eq (lockstep.canonicalAncestor_eq related delta.commonAncestor)
  intro ancestor found
  have fits := lockstep.canonicalAncestor_fits related found
  apply Agree.bind (lockstep.detachToAncestor_agree related state ancestor.1 delta.commonAncestor)
  intro a b ahead
  obtain ⟨s, state, detached⟩ := a
  obtain ⟨t, state', detached'⟩ := b
  obtain ⟨related, same⟩ := ahead
  cases same
  apply Agree.bind_same
  intro _ _
  apply Agree.bind (lockstep.batchRemoveUtxos related delta.removedUtxos)
  intro s t related
  apply Agree.bind (lockstep.batchPutUtxos related delta.utxos)
  intro s t related
  apply Agree.bind (lockstep.attachPrepared_agree related fits delta.blocks)
  intro a b attached
  obtain ⟨s, next⟩ := a
  obtain ⟨t, next'⟩ := b
  obtain ⟨⟨related, rfl⟩, fits⟩ := attached
  apply Agree.bind (lockstep.putChainState related fits)
  intro s t related
  exact .ok ⟨rfl, related⟩

theorem applyTransition_agree (lockstep : Lockstep S T R) (related : R s t)
    (transition : ChainTransition) :
    Agree (Beside R) (applyTransition s transition) (applyTransition t transition) := by
  apply Agree.bind_eq (lockstep.chainState_eq related)
  intro current _
  have reported : ∀ (a : StagedTransition × S) (b : StagedTransition × T), Beside R a b →
      Agree (Beside R) (.ok (a.1.result, a.2) : Except StorageError (ChainTransitionResult × S))
        (.ok (b.1.result, b.2)) := by
    intro a b beside
    rw [beside.1]
    exact .ok ⟨rfl, beside.2⟩
  cases transition with
  | genesis block chainMetadata =>
    exact Agree.bind (lockstep.stageGenesis_agree related current block chainMetadata) reported
  | append block => exact Agree.bind (lockstep.stageAppend_agree related current block) reported
  | reorganize delta =>
    exact Agree.bind (lockstep.stageReorganization_agree related current delta) reported

/-- A transition that is committed in both. -/
theorem commitTransition_agree (lockstep : Lockstep S T R) (related : R s t)
    (transition : ChainTransition) :
    Agree (Beside R) (commitTransition s transition) (commitTransition t transition) := by
  cases transition with
  | genesis block chainMetadata =>
    apply Agree.bind_eq (lockstep.checkSchema chainMetadata)
    intro _ _
    exact lockstep.applyTransition_agree related _
  | append block =>
    apply Agree.bind_same
    intro _ _
    exact lockstep.applyTransition_agree related _
  | reorganize delta =>
    apply Agree.bind_same
    intro _ _
    exact lockstep.applyTransition_agree related _

end Stages

end Lockstep

end StryiChain
