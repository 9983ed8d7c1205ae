import StryiChain.Chain.Report
import StryiChain.Node.Runtime

/-!
# The event loop of a node (`node/event_loop.rs`)

The loop takes one event at a time, and a download task may feed blocks to the same engine while an
event is being handled. Whenever the engine is free the loop can be found between the answer of
`apply_block` and the announcement that follows it, so that these two are steps of their own.
-/

namespace StryiChain

open StryiConsensusEngine

section Node

variable [Primitives] [Floats]

omit [Primitives] [Floats] in
/-- `miner_address` (`block/mod.rs:239-260`). -/
def Block.minerAddress (block : Block) : Option AccountAddress :=
  if block.header.isGenesis then none
  else
    match block.data.transactions with
    | [] => none
    | firstTx :: _ =>
        match firstTx.data.kind with
        | .coinbase _ _ =>
            if firstTx.data.outputs.length ≠ 1 then none
            else firstTx.data.outputs.head?.map TransactionOut.recipient
        | _ => none

/-- `ChainTipAnnouncement` (`model.rs:35-44`). -/
structure ChainTipAnnouncement where
  height : UInt64
  tipHash : BlockHash
  chainWork : Nat
  deriving DecidableEq

/-- `BroadcastBlock` (`model.rs:9-17`). -/
structure BroadcastBlock (PeerId : Type) where
  block : Block
  originPeerId : PeerId

/-- The commands of `NetworkCommand` that the running loop sends. -/
inductive NetworkCommand (PeerId : Type) where
  | publishBlock (block : BroadcastBlock PeerId)
  | publishChainTip (announcement : ChainTipAnnouncement)

/-- Where the loop stands: it waits for an event, or `apply_block` has answered for a mined block or
a block from the network. -/
inductive Phase (PeerId : Type) where
  | waiting
  | mined (block : Block) (verdict : ConsensusOutcome)
  | received (block : BroadcastBlock PeerId) (verdict : ConsensusOutcome)

/-- What the loop owns and shares; `syncSource` is the peer of the download task that holds the only
permit of `sync_semaphore`. -/
structure EventLoop (PeerId DB : Type) where
  peerId : PeerId
  runtime : ConsensusRuntime DB
  lastAnnouncedTip : Option BlockHash
  syncSource : Option PeerId
  phase : Phase PeerId

/-- What can happen to the loop. The blocks come with the clock and the failures that the engine
sees; `publish` goes on after `apply_block`; `synced` is a batch of the download task, and `syncEnded` its
end. -/
inductive LoopEvent (PeerId : Type) where
  | tipHeartbeat
  | minedBlock (delivery : Delivery)
  | newBlock (delivery : Delivery) (originPeerId : PeerId)
  | publish
  | newTransaction (now : UInt64) (tx : Transaction)
  | chainTipAnnounced (announcement : ChainTipAnnouncement) (source : PeerId)
  | synced (deliveries : List Delivery)
  | syncEnded

/-- The blocks that an event brings to the engine. -/
def LoopEvent.blocks {PeerId : Type} : LoopEvent PeerId → List Block
  | .minedBlock delivery => [delivery.block]
  | .newBlock delivery _ => [delivery.block]
  | .synced deliveries => deliveries.map Delivery.block
  | _ => []

/-- `lookup_mempool_utxos` (`main.rs:120-145`): outpoints that are not stored are left out. -/
def lookupMempoolUtxos {DB : Type} [FullNodeStorage DB] (storage : DB) : UtxoLookup :=
  fun outpoints => outpoints.foldlM (fun utxos outpoint => do
    match ← getUtxo storage outpoint with
    | some utxo => return AList.insert outpoint utxo utxos
    | none => return utxos) ∅

/-- `build_tip_announcement` (`event_loop.rs:568-578`). -/
def buildTipAnnouncement {DB : Type} (engine : StryiConsensusEngine DB) :
    Option ChainTipAnnouncement :=
  engine.chainIndex.tip.map fun tip => ⟨tip.height, tip.hash, tip.work⟩

/-- The verdict `CausedReorganization`. -/
def ConsensusOutcome.isReorganization : ConsensusOutcome → Bool
  | .causedReorganization _ _ _ _ => true
  | _ => false

/-- The verdicts after which a mined block is published (`event_loop.rs:302`). -/
def ConsensusOutcome.isCommitted : ConsensusOutcome → Bool
  | .applied _ _ | .causedReorganization _ _ _ _ => true
  | _ => false

namespace EventLoop

variable {PeerId DB : Type}

/-- An announcement of the tip, after which it counts as the last one. -/
def announceTip (loop : EventLoop PeerId DB) :
    EventLoop PeerId DB × List (NetworkCommand PeerId) :=
  match buildTipAnnouncement loop.runtime.engine with
  | some announcement =>
      ({ loop with lastAnnouncedTip := some announcement.tipHash },
        [.publishChainTip announcement])
  | none => (loop, [])

/-- The loop before its first event: the tip has been announced (`event_loop.rs:200-234`). -/
def start (peerId : PeerId) (runtime : ConsensusRuntime DB) :
    EventLoop PeerId DB × List (NetworkCommand PeerId) :=
  announceTip ⟨peerId, runtime, none, none, .waiting⟩

/-- The heartbeat (`event_loop.rs:261-281`). -/
def tipHeartbeat (loop : EventLoop PeerId DB) :
    EventLoop PeerId DB × List (NetworkCommand PeerId) :=
  match buildTipAnnouncement loop.runtime.engine with
  | some announcement =>
      if loop.lastAnnouncedTip = some announcement.tipHash then (loop, []) else loop.announceTip
  | none => (loop, [])

/-- The announcement after a reorganization (`event_loop.rs:538-566`). -/
def publishReorgTip (loop : EventLoop PeerId DB) (verdict : ConsensusOutcome) :
    EventLoop PeerId DB × List (NetworkCommand PeerId) :=
  if verdict.isReorganization then loop.announceTip else (loop, [])

/-- What follows `apply_block` (`event_loop.rs:302-322`, `357-383`). A mined block is published
before the new tip, a block from the network after it. -/
def publish (loop : EventLoop PeerId DB) : EventLoop PeerId DB × List (NetworkCommand PeerId) :=
  match loop.phase with
  | .waiting => (loop, [])
  | .mined block verdict =>
      let (next, announced) := publishReorgTip { loop with phase := .waiting } verdict
      if verdict.isCommitted then
        (next, .publishBlock ⟨block, loop.peerId⟩ :: announced)
      else
        (next, [])
  | .received block verdict =>
      let (next, announced) := publishReorgTip { loop with phase := .waiting } verdict
      if ConsensusRuntime.shouldRelay verdict then
        (next, announced ++ [.publishBlock block])
      else
        (next, announced)

variable [FullNodeStorage DB]

/-- `apply_block` for a block that the loop has taken; an error is only logged. -/
def take (loop : EventLoop PeerId DB) (delivery : Delivery)
    (answered : ConsensusOutcome → Phase PeerId) : EventLoop PeerId DB :=
  match loop.runtime.applyBlock delivery with
  | (.ok verdict, runtime) => { loop with runtime, phase := answered verdict }
  | (.error _, runtime) => { loop with runtime }

/-- `ChainTipAnnounced` (`event_loop.rs:403-438`): a heavier tip starts a download, unless there is
one already. -/
def chainTipAnnounced (loop : EventLoop PeerId DB) (announcement : ChainTipAnnouncement)
    (source : PeerId) : EventLoop PeerId DB :=
  let localWork := (loop.runtime.engine.chainIndex.tip.map TipInfo.work).getD 0
  if announcement.chainWork ≤ localWork then loop
  else if loop.syncSource.isSome then loop
  else { loop with syncSource := some source }

/-- The loop waits for an event. -/
def isWaiting (loop : EventLoop PeerId DB) : Bool :=
  match loop.phase with
  | .waiting => true
  | _ => false

/-- The events that a waiting loop takes (`event_loop.rs:261-438`). It panics on a mined block
without a coinbase. -/
def receive (loop : EventLoop PeerId DB) :
    LoopEvent PeerId → Option (EventLoop PeerId DB × List (NetworkCommand PeerId))
  | .tipHeartbeat => some loop.tipHeartbeat
  | .minedBlock delivery =>
      delivery.block.minerAddress.map fun _ => (loop.take delivery (.mined delivery.block), [])
  | .newBlock delivery originPeerId =>
      some (loop.take delivery (.received ⟨delivery.block, originPeerId⟩), [])
  | .newTransaction now tx =>
      let lookup := lookupMempoolUtxos loop.runtime.engine.db
      let mempool := (loop.runtime.mempool.addTransaction lookup now tx).2
      some ({ loop with runtime := { loop.runtime with mempool } }, [])
  | .chainTipAnnounced announcement source =>
      some (loop.chainTipAnnounced announcement source, [])
  | .publish | .synced _ | .syncEnded => none

/-- An event with the commands that it leads to, or nothing where it cannot happen. The download
task may run at any time. -/
def handle (loop : EventLoop PeerId DB) (event : LoopEvent PeerId) :
    Option (EventLoop PeerId DB × List (NetworkCommand PeerId)) :=
  match event with
  | .synced deliveries =>
      some ({ loop with runtime := (loop.runtime.applyBlocks deliveries).2 }, [])
  | .syncEnded => some ({ loop with syncSource := none }, [])
  | .publish => if loop.isWaiting then none else some loop.publish
  | event => if loop.isWaiting then loop.receive event else none

/-- A run of events with everything that it sends. -/
def handleAll (loop : EventLoop PeerId DB) :
    List (LoopEvent PeerId) → Option (EventLoop PeerId DB × List (NetworkCommand PeerId))
  | [] => some (loop, [])
  | event :: events => do
      let (next, sent) ← loop.handle event
      let (last, later) ← next.handleAll events
      return (last, sent ++ later)

end EventLoop

section Work

omit [Floats]

variable {DB : Type} [FullNodeStorage DB] [LawfulStorage DB]
  {engine engine' : StryiConsensusEngine DB} {g b : Block} {w w' : List Block} {nowSecs : UInt64}

/-- A chain that moves gets heavier. -/
theorem Moves.heavier (moves : Moves engine nowSecs b w engine' w') :
    w' = w ∨ chainWork w < chainWork w' := by
  cases moves with
  | stays same => exact .inl rfl
  | grows follows appended =>
    have positive := Block.work_pos follows.normal.1
    have one : chainWork [b] = b.work := by simp
    rw [chainWork_append, one]
    exact .inr (by omega)
  | switches overtakes below branch heavier room reorganized => exact .inr heavier

theorem Invariant.run_heavier (inv : Invariant g engine w) (deliveries : List Delivery) :
    ∃ w', Invariant g (deliverAll engine deliveries) w' ∧
      (w' = w ∨ chainWork w < chainWork w') := by
  induction deliveries generalizing engine w with
  | nil => exact ⟨w, inv, .inl rfl⟩
  | cons delivery deliveries ih =>
    obtain ⟨w', inv', moves⟩ := inv.deliver delivery
    obtain ⟨w'', last, later⟩ := ih inv'
    refine ⟨w'', last, ?_⟩
    rcases moves.heavier with rfl | heavier
    · exact later
    · rcases later with rfl | more
      · exact .inr heavier
      · exact .inr (Nat.lt_trans heavier more)

omit [FullNodeStorage DB] [LawfulStorage DB] in
/-- The announcement of the last block of a chain. -/
def announcementOf (w : List Block) : Option ChainTipAnnouncement :=
  w.getLast?.map fun tip => ⟨tip.header.height, tip.blockHash, chainWork w⟩

theorem Invariant.announcement (inv : Invariant g engine w) :
    buildTipAnnouncement engine = announcementOf w := by
  rw [buildTipAnnouncement, inv.canonical.indexOf.tip, tipOf, Option.map_map, announcementOf]
  rfl

theorem Invariant.exists_announcement (inv : Invariant g engine w) :
    ∃ announcement, announcementOf w = some announcement ∧
      buildTipAnnouncement engine = some announcement ∧
      announcement.chainWork = chainWork w := by
  obtain ⟨tip, at_tip⟩ : ∃ tip, w.getLast? = some tip := by
    rw [← Option.isSome_iff_exists, List.getLast?_isSome]
    exact inv.canonical.chain.ne_nil
  refine ⟨⟨tip.header.height, tip.blockHash, chainWork w⟩, ?_, ?_, rfl⟩
  · rw [announcementOf, at_tip]
    rfl
  · rw [inv.announcement, announcementOf, at_tip]
    rfl

/-- A reorganization leaves a heavier chain. -/
theorem Invariant.reorganized_heavier (inv : Invariant g engine w) (inv' : Invariant g engine' w')
    {delivery : Delivery} {transition : CommittedTransition}
    (run : onBlock delivery.nowSecs delivery.faults delivery.block engine =
      .ok (.causedReorganization transition) engine') : chainWork w < chainWork w' := by
  obtain ⟨⟨work, work', before, after, heavier⟩, -⟩ := (onBlock_ok run).reported inv
  rw [inv.tipWork_eq, Option.some.injEq] at before
  rw [inv'.tipWork_eq, Option.some.injEq] at after
  omega

end Work

namespace EventLoop

variable {PeerId DB : Type} [FullNodeStorage DB] {loop next : EventLoop PeerId DB}
  {event : LoopEvent PeerId} {sent : List (NetworkCommand PeerId)}

/-- The announcements among the commands. -/
def announcements (sent : List (NetworkCommand PeerId)) : List ChainTipAnnouncement :=
  sent.filterMap fun
    | .publishChainTip announcement => some announcement
    | .publishBlock _ => none

/-- A reorganization has been made and not yet announced. -/
def Due (loop : EventLoop PeerId DB) : Prop :=
  match loop.phase with
  | .waiting => False
  | .mined _ verdict | .received _ verdict => verdict.isReorganization = true

variable [LawfulStorage DB] {g : Block} {w : List Block} {last : ChainTipAnnouncement}

/-- Where the loop stands with its announcements: the last one is that of the tip, or the chain has
become heavier since. -/
structure Announcing (g : Block) (loop : EventLoop PeerId DB) (w : List Block)
    (last : ChainTipAnnouncement) : Prop where
  inv : Invariant g loop.runtime.engine w
  hash : loop.lastAnnouncedTip = some last.tipHash
  behind : announcementOf w = some last ∨ last.chainWork < chainWork w
  due : loop.Due → last.chainWork < chainWork w

/-- What a step adds to the announcements: nothing, or a heavier tip that is the tip at this
moment. -/
def Adds (loop : EventLoop PeerId DB) (last last' : ChainTipAnnouncement)
    (sent : List (NetworkCommand PeerId)) : Prop :=
  (announcements sent = [] ∧ last' = last) ∨
    (announcements sent = [last'] ∧ last.chainWork < last'.chainWork ∧
      buildTipAnnouncement loop.runtime.engine = some last')

/-- The tip is announced when the chain is heavier than the last announcement says. -/
theorem Announcing.announceTip (inv : Invariant g loop.runtime.engine w)
    (heavier : last.chainWork < chainWork w) (settled : ¬ loop.Due) :
    ∃ last', Announcing g loop.announceTip.1 w last' ∧ Adds loop last last' loop.announceTip.2 ∧
      announcementOf w = some last' := by
  obtain ⟨announcement, top, built, work⟩ := inv.exists_announcement
  refine ⟨announcement, ?_, ?_, top⟩ <;> unfold EventLoop.announceTip <;> rw [built]
  · exact ⟨inv, rfl, .inl top, fun due => absurd due settled⟩
  · exact .inr ⟨rfl, work ▸ heavier, built⟩

theorem Announcing.le (announcing : Announcing g loop w last) : last.chainWork ≤ chainWork w := by
  rcases announcing.behind with same | heavier
  · rw [announcementOf, Option.map_eq_some_iff] at same
    obtain ⟨tip, -, rfl⟩ := same
    exact Nat.le_refl _
  · exact Nat.le_of_lt heavier

variable (next) in
/-- Whatever else the loop keeps, a later engine is at least as far. -/
theorem Announcing.later (announcing : Announcing g loop w last) {w' : List Block}
    (inv' : Invariant g next.runtime.engine w') (moved : w' = w ∨ chainWork w < chainWork w')
    (hash : next.lastAnnouncedTip = loop.lastAnnouncedTip)
    (due : next.Due → loop.Due ∨ chainWork w < chainWork w') : Announcing g next w' last := by
  have le := announcing.le
  refine ⟨inv', hash.trans announcing.hash, ?_, fun pending => ?_⟩
  · rcases moved with rfl | heavier
    · exact announcing.behind
    · exact .inr (by omega)
  · rcases due pending with before | heavier
    · have pending' := announcing.due before
      rcases moved with rfl | heavier <;> omega
    · omega

/-- `apply_block` for a mined block or a block from the network. -/
theorem Announcing.take (announcing : Announcing g loop w last) (delivery : Delivery)
    (answered : ConsensusOutcome → Phase PeerId)
    (pending : ∀ verdict, ({ loop with phase := answered verdict } : EventLoop PeerId DB).Due →
      verdict.isReorganization = true) :
    ∃ w', Announcing g (loop.take delivery answered) w' last ∧
      (w' = w ∨ chainWork w < chainWork w') := by
  obtain ⟨w', inv', moves⟩ := announcing.inv.deliver delivery
  refine ⟨w', ?_, moves.heavier⟩
  unfold EventLoop.take ConsensusRuntime.applyBlock
  unfold StryiChain.deliver at inv'
  cases run : onBlock delivery.nowSecs delivery.faults delivery.block loop.runtime.engine with
  | error error engine' =>
    rw [run] at inv'
    exact announcing.later { loop with runtime := { loop.runtime with engine := engine' } }
      inv' moves.heavier rfl .inl
  | ok verdict engine' =>
    rw [run] at inv'
    dsimp only
    refine announcing.later { loop with
      runtime := ⟨engine', (ConsensusRuntime.outcomeOf loop.runtime.mempool verdict).2⟩,
      phase := answered (ConsensusRuntime.outcomeOf loop.runtime.mempool verdict).1 }
      inv' moves.heavier rfl ?_
    intro due
    have reorganized := pending _ due
    cases verdict with
    | causedReorganization transition =>
      exact .inr (announcing.inv.reorganized_heavier inv' run)
    | _ => cases reorganized

/-- An announcement after a verdict. -/
theorem Announcing.publishReorgTip (announcing : Announcing g loop w last)
    {verdict : ConsensusOutcome} (due : verdict.isReorganization = true → last.chainWork < chainWork w)
    (settled : ¬ loop.Due) :
    ∃ last', Announcing g (loop.publishReorgTip verdict).1 w last' ∧
      Adds loop last last' (loop.publishReorgTip verdict).2 := by
  unfold EventLoop.publishReorgTip
  by_cases reorganized : verdict.isReorganization = true
  · rw [if_pos reorganized]
    obtain ⟨last', announced, adds, -⟩ :=
      Announcing.announceTip announcing.inv (due reorganized) settled
    exact ⟨last', announced, adds⟩
  · rw [if_neg reorganized]
    exact ⟨last, announcing, .inl ⟨rfl, rfl⟩⟩

/-- Going on after `apply_block`. -/
theorem Announcing.publish (announcing : Announcing g loop w last) :
    ∃ last', Announcing g loop.publish.1 w last' ∧ Adds loop last last' loop.publish.2 := by
  -- The announcement is made by the loop that waits again.
  have waits : Announcing g { loop with phase := .waiting } w last :=
    announcing.later { loop with phase := .waiting } announcing.inv (.inl rfl) rfl
      fun due => absurd due id
  have settled : ¬ ({ loop with phase := .waiting } : EventLoop PeerId DB).Due := id
  cases phase : loop.phase with
  | waiting =>
    refine ⟨last, ?_, .inl ⟨?_, rfl⟩⟩ <;> unfold EventLoop.publish <;> rw [phase]
    · exact announcing
    · rfl
  | mined block verdict =>
    have due : verdict.isReorganization = true → last.chainWork < chainWork w := by
      intro reorganized
      apply announcing.due
      rw [Due, phase]
      exact reorganized
    obtain ⟨last', announced, adds⟩ := waits.publishReorgTip due settled
    unfold EventLoop.publish
    rw [phase]
    dsimp only
    by_cases committed : verdict.isCommitted = true
    · rw [if_pos committed]
      exact ⟨last', announced, adds⟩
    · rw [if_neg committed]
      -- A verdict that commits nothing is no reorganization.
      have idle : ¬ verdict.isReorganization = true := by
        cases verdict <;> simp_all [ConsensusOutcome.isCommitted, ConsensusOutcome.isReorganization]
      have same : EventLoop.publishReorgTip ({ loop with phase := .waiting } :
          EventLoop PeerId DB) verdict = ({ loop with phase := .waiting }, []) := if_neg idle
      rw [same]
      exact ⟨last, waits, .inl ⟨rfl, rfl⟩⟩
  | received block verdict =>
    have due : verdict.isReorganization = true → last.chainWork < chainWork w := by
      intro reorganized
      apply announcing.due
      rw [Due, phase]
      exact reorganized
    obtain ⟨last', announced, adds⟩ := waits.publishReorgTip due settled
    unfold EventLoop.publish
    rw [phase]
    dsimp only
    by_cases relayed : ConsensusRuntime.shouldRelay verdict = true
    · rw [if_pos relayed]
      refine ⟨last', announced, ?_⟩
      unfold Adds announcements at adds ⊢
      rw [List.filterMap_append]
      simpa using adds
    · rw [if_neg relayed]
      exact ⟨last', announced, adds⟩

/-- The heartbeat announces a tip whose hash is not that of the last announcement. -/
theorem Announcing.tipHeartbeat (announcing : Announcing g loop w last) (settled : ¬ loop.Due) :
    ∃ last', Announcing g loop.tipHeartbeat.1 w last' ∧ Adds loop last last' loop.tipHeartbeat.2 ∧
      (announcementOf w).map ChainTipAnnouncement.tipHash = some last'.tipHash := by
  obtain ⟨announcement, top, built, work⟩ := announcing.inv.exists_announcement
  unfold EventLoop.tipHeartbeat
  rw [built]
  dsimp only
  by_cases hash : loop.lastAnnouncedTip = some announcement.tipHash
  · rw [if_pos hash]
    refine ⟨last, announcing, .inl ⟨rfl, rfl⟩, ?_⟩
    rw [top, Option.map_some, ← hash, announcing.hash]
  · rw [if_neg hash]
    have heavier : last.chainWork < chainWork w := by
      refine announcing.behind.resolve_left ?_
      intro same
      obtain rfl : announcement = last := Option.some.inj (top.symm.trans same)
      exact hash announcing.hash
    obtain ⟨last', announced, adds, tip⟩ :=
      Announcing.announceTip announcing.inv heavier settled
    refine ⟨last', announced, adds, ?_⟩
    rw [tip]
    rfl

omit [FullNodeStorage DB] [LawfulStorage DB] in
theorem not_due (waits : loop.isWaiting = true) : ¬ loop.Due := by
  unfold isWaiting at waits
  unfold Due
  cases phase : loop.phase with
  | waiting => exact id
  | _ =>
    rw [phase] at waits
    cases waits

/-- The events of a waiting loop. -/
theorem Announcing.receive (announcing : Announcing g loop w last) (settled : ¬ loop.Due)
    (received : loop.receive event = some (next, sent)) :
    ∃ w' last', Announcing g next w' last' ∧ Adds loop last last' sent := by
  have nothing : Adds loop last last [] := .inl ⟨rfl, rfl⟩
  have same : ∀ runtime source, runtime.engine = loop.runtime.engine →
      Announcing g { loop with runtime, syncSource := source } w last := by
    intro runtime source unchanged
    refine announcing.later { loop with runtime, syncSource := source } ?_ (.inl rfl) rfl
      .inl
    show Invariant g runtime.engine w
    rw [unchanged]
    exact announcing.inv
  unfold EventLoop.receive at received
  cases event with
  | tipHeartbeat =>
    obtain ⟨last', announced, adds, -⟩ := announcing.tipHeartbeat settled
    obtain ⟨rfl, rfl⟩ : loop.tipHeartbeat.1 = next ∧ loop.tipHeartbeat.2 = sent :=
      Prod.mk.inj (Option.some.inj received)
    exact ⟨w, last', announced, adds⟩
  | minedBlock delivery =>
    obtain ⟨recipient, -, taken⟩ := Option.map_eq_some_iff.mp received
    obtain ⟨rfl, rfl⟩ : _ = next ∧ _ = sent := Prod.mk.inj taken
    obtain ⟨w', announced, -⟩ := announcing.take delivery
      (.mined delivery.block) fun verdict due => due
    exact ⟨w', last, announced, nothing⟩
  | newBlock delivery originPeerId =>
    obtain ⟨rfl, rfl⟩ : _ = next ∧ _ = sent := Prod.mk.inj (Option.some.inj received)
    obtain ⟨w', announced, -⟩ := announcing.take delivery
      (.received ⟨delivery.block, originPeerId⟩) fun verdict due => due
    exact ⟨w', last, announced, nothing⟩
  | newTransaction now tx =>
    obtain ⟨rfl, rfl⟩ : _ = next ∧ _ = sent := Prod.mk.inj (Option.some.inj received)
    exact ⟨w, last, same { loop.runtime with mempool := _ } loop.syncSource rfl, nothing⟩
  | chainTipAnnounced announcement source =>
    obtain ⟨rfl, rfl⟩ : _ = next ∧ _ = sent := Prod.mk.inj (Option.some.inj received)
    refine ⟨w, last, ?_, nothing⟩
    unfold EventLoop.chainTipAnnounced
    dsimp only
    split
    · exact announcing
    · split
      · exact announcing
      · exact same loop.runtime (some source) rfl
  | publish => cases received
  | synced deliveries => cases received
  | syncEnded => cases received

/-- Every event adds at most one announcement, and a heavier one. -/
theorem Announcing.handle (announcing : Announcing g loop w last)
    (handled : loop.handle event = some (next, sent)) :
    ∃ w' last', Announcing g next w' last' ∧ Adds loop last last' sent := by
  unfold EventLoop.handle at handled
  cases event with
  | synced deliveries =>
    obtain ⟨rfl, rfl⟩ : _ = next ∧ _ = sent := Prod.mk.inj (Option.some.inj handled)
    obtain ⟨n, reached⟩ := ConsensusRuntime.applyBlocks_engine loop.runtime deliveries
    obtain ⟨w', inv', moved⟩ := announcing.inv.run_heavier (deliveries.take n)
    rw [← reached] at inv'
    exact ⟨w', last, announcing.later
      { loop with runtime := (loop.runtime.applyBlocks deliveries).2 } inv' moved rfl .inl,
      .inl ⟨rfl, rfl⟩⟩
  | syncEnded =>
    obtain ⟨rfl, rfl⟩ : _ = next ∧ _ = sent := Prod.mk.inj (Option.some.inj handled)
    exact ⟨w, last, announcing.later { loop with syncSource := none } announcing.inv
      (.inl rfl) rfl .inl, .inl ⟨rfl, rfl⟩⟩
  | publish =>
    dsimp only at handled
    by_cases waits : loop.isWaiting = true
    · rw [if_pos waits] at handled
      cases handled
    · rw [if_neg waits] at handled
      obtain ⟨last', announced, adds⟩ := announcing.publish
      obtain ⟨rfl, rfl⟩ : loop.publish.1 = next ∧ loop.publish.2 = sent :=
        Prod.mk.inj (Option.some.inj handled)
      exact ⟨w, last', announced, adds⟩
  | _ =>
    dsimp only at handled
    by_cases waits : loop.isWaiting = true
    · rw [if_pos waits] at handled
      exact announcing.receive (not_due waits) handled
    · rw [if_neg waits] at handled
      cases handled

/-- A run of events. Its announcements are those of the tips of states that it has gone through. -/
theorem Announcing.run {events : List (LoopEvent PeerId)} (announcing : Announcing g loop w last)
    (handled : loop.handleAll events = some (next, sent)) :
    ∃ w' last', Announcing g next w' last' ∧
      (last :: announcements sent).getLast? = some last' ∧
      (last :: announcements sent).Pairwise (fun a b => a.chainWork < b.chainWork) ∧
      ∀ a ∈ announcements sent, ∃ n between before,
        loop.handleAll (events.take n) = some (between, before) ∧
          buildTipAnnouncement between.runtime.engine = some a ∧
          ∃ v, Invariant g between.runtime.engine v := by
  induction events generalizing loop w last sent with
  | nil =>
    obtain ⟨rfl, rfl⟩ : loop = next ∧ [] = sent := Prod.mk.inj (Option.some.inj handled)
    exact ⟨w, last, announcing, rfl, List.pairwise_singleton _ _, fun a mem => absurd mem List.not_mem_nil⟩
  | cons event events ih =>
    rw [EventLoop.handleAll, Option.bind_eq_bind, Option.bind_eq_some_iff] at handled
    obtain ⟨⟨middle, first⟩, step, rest⟩ := handled
    rw [Option.bind_eq_some_iff] at rest
    obtain ⟨⟨last_, later⟩, run, same⟩ := rest
    obtain ⟨rfl, rfl⟩ : last_ = next ∧ first ++ later = sent := Prod.mk.inj (Option.some.inj same)
    obtain ⟨w₁, last₁, announced, adds⟩ := announcing.handle step
    obtain ⟨w', last', final, ends, increasing, truthful⟩ := ih announced run
    have split : announcements (first ++ later) = announcements first ++ announcements later :=
      List.filterMap_append
    have reaches : ∀ n between before, middle.handleAll (events.take n) = some (between, before) →
        loop.handleAll ((event :: events).take (n + 1)) = some (between, first ++ before) := by
      intro n between before reached
      rw [List.take_succ_cons, EventLoop.handleAll, step]
      exact congrArg (fun r => r.bind fun x => some (x.1, first ++ x.2)) reached
    have inherited : ∀ a ∈ announcements later, ∃ n between before,
        loop.handleAll ((event :: events).take n) = some (between, before) ∧
          buildTipAnnouncement between.runtime.engine = some a ∧
          ∃ v, Invariant g between.runtime.engine v := by
      intro a mem
      obtain ⟨n, between, before, reached, tip, held⟩ := truthful a mem
      exact ⟨n + 1, between, _, reaches n between before reached, tip, held⟩
    refine ⟨w', last', final, ?_⟩
    rw [split]
    rcases adds with ⟨quiet, rfl⟩ | ⟨one, heavier, tip⟩
    · rw [quiet, List.nil_append]
      exact ⟨ends, increasing, inherited⟩
    · rw [one, List.singleton_append]
      refine ⟨?_, ?_, ?_⟩
      · rw [List.getLast?_cons_cons]
        exact ends
      · refine List.pairwise_cons.mpr ⟨?_, increasing⟩
        intro a mem
        rcases List.mem_cons.mp mem with rfl | later'
        · exact heavier
        · exact Nat.lt_trans heavier ((List.pairwise_cons.mp increasing).1 a later')
      · intro a mem
        rcases List.mem_cons.mp mem with rfl | later'
        · exact ⟨0, loop, [], rfl, tip, w, announcing.inv⟩
        · exact inherited a later'

variable {engine : StryiConsensusEngine DB}

/-- The loop before its first event has announced its tip. -/
theorem Announcing.start (inv : Invariant g engine w) (peerId : PeerId) (mempool : MemPool) :
    ∃ last, Announcing g (EventLoop.start peerId ⟨engine, mempool⟩).1 w last ∧
      announcements (EventLoop.start peerId ⟨engine, mempool⟩).2 = [last] ∧
      announcementOf w = some last ∧
      (EventLoop.start peerId ⟨engine, mempool⟩).1.runtime.engine = engine := by
  obtain ⟨announcement, top, built, work⟩ := inv.exists_announcement
  refine ⟨announcement, ?_, ?_, top, ?_⟩ <;>
    unfold EventLoop.start EventLoop.announceTip <;> dsimp only <;> rw [built]
  · exact ⟨inv, rfl, .inl top, fun due => absurd due id⟩
  · rfl

/-- The announcements of a running node, whatever blocks, transactions, announcements and downloads
reach it: their work strictly increases, each of them describes the canonical chain of a state that
the node was in, and after a heartbeat the last of them names the tip. -/
theorem announcements_increase {consensusConsts : ConsensusConsts} {blockValidator : BlockValidator}
    {chainMetadata : ChainMetadata} {deliveries : List Delivery} {mempool : MemPool}
    {peerId : PeerId} {events : List (LoopEvent PeerId)} {first : List (NetworkCommand PeerId)}
    (launched : launch consensusConsts blockValidator g chainMetadata = .ok engine)
    (started : EventLoop.start peerId ⟨deliverAll engine deliveries, mempool⟩ = (loop, first))
    (handled : loop.handleAll events = some (next, sent)) :
    ((announcements (first ++ sent)).map ChainTipAnnouncement.chainWork).Pairwise (· < ·) ∧
      (∀ a ∈ announcements (first ++ sent), ∃ n between before,
        loop.handleAll (events.take n) = some (between, before) ∧
          announcementOf (canonicalBlocks between.runtime.engine.db) = some a) ∧
      ∀ later sent', next.handle .tipHeartbeat = some (later, sent') →
        ((announcements (first ++ sent ++ sent')).getLast?.map ChainTipAnnouncement.tipHash) =
          later.runtime.engine.chainIndex.tip.map TipInfo.hash := by
  obtain ⟨w, inv⟩ := (Invariant.launched launched).1.run deliveries
  obtain ⟨last, announced, one, top, same⟩ := Announcing.start inv peerId mempool
  rw [started] at announced one same
  dsimp only at announced one same
  obtain ⟨w', last', final, ends, increasing, truthful⟩ := announced.run handled
  have split : ∀ l l' : List (NetworkCommand PeerId),
      announcements (l ++ l') = announcements l ++ announcements l' :=
    fun l l' => List.filterMap_append
  have all : announcements (first ++ sent) = last :: announcements sent := by
    rw [split, one, List.singleton_append]
  refine ⟨?_, ?_, ?_⟩
  · rw [all, List.pairwise_map]
    exact increasing
  · intro a mem
    rw [all] at mem
    rcases List.mem_cons.mp mem with rfl | later
    · refine ⟨0, loop, [], rfl, ?_⟩
      rw [same, canonicalBlocks_eq inv.canonical]
      exact top
    · obtain ⟨n, between, before, reached, tip, v, held⟩ := truthful a later
      refine ⟨n, between, before, reached, ?_⟩
      rw [canonicalBlocks_eq held.canonical, ← held.announcement]
      exact tip
  · intro later sent' beat
    unfold EventLoop.handle at beat
    dsimp only at beat
    by_cases waits : next.isWaiting = true
    · rw [if_pos waits] at beat
      obtain ⟨rfl, rfl⟩ : next.tipHeartbeat.1 = later ∧ next.tipHeartbeat.2 = sent' :=
        Prod.mk.inj (Option.some.inj beat)
      obtain ⟨last'', beaten, adds, hash⟩ := final.tipHeartbeat (not_due waits)
      have final' : (announcements (first ++ sent ++ next.tipHeartbeat.2)).getLast? =
          some last'' := by
        rw [split, all]
        rcases adds with ⟨quiet, rfl⟩ | ⟨beat, -, -⟩
        · rw [quiet, List.append_nil]
          exact ends
        · rw [beat, List.getLast?_concat]
      have tip : (buildTipAnnouncement next.tipHeartbeat.1.runtime.engine).map
          ChainTipAnnouncement.tipHash = some last''.tipHash := by
        rw [beaten.inv.announcement]
        exact hash
      rw [buildTipAnnouncement, Option.map_map] at tip
      rw [final']
      exact tip.symm
    · rw [if_neg waits] at beat
      cases beat

end EventLoop

end Node

namespace Sample

/-- The tip stays for one heartbeat, and a reorganization moves it. -/
def loopEvents : List (LoopEvent Nat) :=
  [.tipHeartbeat, .newBlock (call rival) 1, .publish, .newBlock (call other) 1, .publish,
    .newBlock (call next) 1, .publish]

end Sample

open Sample in
/-- A reorganization between two heartbeats is announced once. -/
theorem announcements_increase_sample : ∃ engine loop first next sent, start = .ok engine ∧
    EventLoop.start 0 ⟨engine, MemPool.new poolConfig⟩ = (loop, first) ∧
    loop.handleAll loopEvents = some (next, sent) ∧
    (EventLoop.announcements (first ++ sent)).length = 2 ∧
    ((EventLoop.announcements (first ++ sent)).map
      ChainTipAnnouncement.chainWork).Pairwise (· < ·) := by
  have runs : start.toOption.any (fun engine =>
      let started := EventLoop.start 0 ⟨engine, MemPool.new poolConfig⟩
      (started.1.handleAll loopEvents).any fun handled =>
        (EventLoop.announcements (started.2 ++ handled.2)).length = 2) = true := by decide +kernel
  obtain ⟨engine, started, runs⟩ := exists_ok_of_any runs
  obtain ⟨handled, run, count⟩ := (Option.any_eq_true _ _).mp runs
  rw [decide_eq_true_eq] at count
  have begun : EventLoop.start 0 ⟨deliverAll engine [], MemPool.new poolConfig⟩ =
    EventLoop.start 0 ⟨engine, MemPool.new poolConfig⟩ := rfl
  exact ⟨engine, _, _, handled.1, handled.2, started, rfl, run, count,
    (EventLoop.announcements_increase started begun run).1⟩

end StryiChain
