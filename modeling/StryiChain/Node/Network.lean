import StryiChain.Chain.Agreement
import StryiChain.Node.EventLoop
import StryiChain.Node.Startup

/-!
# A network of nodes

Every node runs its loop over its own storage. What the loops publish is gossiped and may reach
anybody, in any order, several times or never; a node downloads from the storage of another one
while that one goes on; and a node may be stopped and started again over its storage at any time. A
start in bootstrap mode builds the engine and asks nobody; a start in join mode finds a heavier peer,
compares the genesis blocks, builds the engine and downloads batch by batch while the others go on,
and may end at every batch. Blocks come into the network from miners and from strangers only.
-/

namespace StryiChain

open LawfulStorage StryiConsensusEngine

section Model

variable [Primitives] [Floats] {PeerId DB : Type} [DecidableEq PeerId] [FullNodeStorage DB]

/-- What a node is doing: it runs its loop, downloads its first blocks, or is down. -/
inductive Stage where
  | running
  | joining
  | stopped
  deriving DecidableEq

/-- The nodes and everything that they have published. -/
structure Network (PeerId DB : Type) where
  nodes : PeerId → EventLoop PeerId DB
  stages : PeerId → Stage
  published : List (NetworkCommand PeerId)

/-- One thing that happens in the network: an event of a loop that no other node has caused, the
arrival of something that was published, an answer to a request for blocks, or a stage of a start. The
list that a joining node is given has the version of a record and what dialling it gives. -/
inductive NetworkAction (PeerId : Type) where
  | outside (peer : PeerId) (event : LoopEvent PeerId)
  | gossip (peer : PeerId) (n : Nat) (nowSecs : UInt64) (faults : Faults) (source : PeerId)
  | download (peer source : PeerId) (config : StryiSyncServiceConfig)
      (startHeight endHeight : UInt64) (maxBlocks : UInt32) (clock : Block → UInt64)
  | bootstrap (peer : PeerId) (mempool : MemPool)
  | join (peer : PeerId) (config : StryiSyncServiceConfig) (nowSecs : UInt64)
      (listed : Except StryiNodeError
        (List (UInt32 × Except StryiNodeError (StryiSyncServiceConfig × PeerId))))
      (mempool : MemPool)
  | ingest (peer source : PeerId) (config : StryiSyncServiceConfig)
      (startHeight endHeight : UInt64) (maxBlocks : UInt32) (clock : Block → UInt64)
  | joined (peer : PeerId)

/-- The blocks that come into the network. -/
def NetworkAction.introduced : NetworkAction PeerId → List Block
  | .outside _ event => event.blocks
  | _ => []

namespace Network

/-- The network after a loop has gone on. -/
def update (net : Network PeerId DB) (peer : PeerId)
    (answer : EventLoop PeerId DB × List (NetworkCommand PeerId)) : Network PeerId DB :=
  { net with
    nodes := Function.update net.nodes peer answer.1
    published := net.published ++ answer.2 }

/-- The network after a node has entered a stage. -/
def enter (net : Network PeerId DB) (peer : PeerId) (stage : Stage)
    (answer : EventLoop PeerId DB × List (NetworkCommand PeerId)) : Network PeerId DB :=
  { net.update peer answer with stages := Function.update net.stages peer stage }

/-- The event at the loop of a node. -/
def handle (net : Network PeerId DB) (peer : PeerId) (event : LoopEvent PeerId) :
    Option (Network PeerId DB) :=
  if net.stages peer = .running then ((net.nodes peer).handle event).map (net.update peer) else none

/-- The service of a node, which reads its storage. -/
def remotePeer (net : Network PeerId DB) (config : StryiSyncServiceConfig) (source : PeerId) :
    RemotePeer DB := ⟨⟨config, (net.nodes source).runtime.engine.db⟩⟩

/-- The network after an action, or nothing where it cannot happen. Which blocks a node asks for, and
whom, is left open. -/
def step (net : Network PeerId DB) : NetworkAction PeerId → Option (Network PeerId DB)
  | .outside peer event => net.handle peer event
  | .gossip peer n nowSecs faults source => do
      match ← net.published[n]? with
      | .publishBlock block =>
          net.handle peer (.newBlock ⟨nowSecs, faults, block.block⟩ block.originPeerId)
      | .publishChainTip announcement =>
          net.handle peer (.chainTipAnnounced announcement source)
  | .download peer source config startHeight endHeight maxBlocks clock => do
      let blocks ← ((net.remotePeer config source).requestBlocksByHeightRange startHeight endHeight
        maxBlocks).toOption
      net.handle peer (.synced (blocks.map (syncDelivery clock)))
  -- `bootstrap` (`sync.rs:33-47`), and the loop starts.
  | .bootstrap peer mempool => do
      let engine ← (buildConsensusEngine (net.nodes peer).runtime.engine.db).toOption
      return net.enter peer .running (EventLoop.start peer ⟨engine, mempool⟩)
  -- `synchronize` (`sync.rs:48-109`) in the round that finds a peer, up to the new engine.
  | .join peer config nowSecs listed mempool => do
      let storage := (net.nodes peer).runtime.engine.db
      let candidates := listed.map fun l => l.map fun c =>
        ⟨c.1, c.2.map fun found => net.remotePeer found.1 found.2⟩
      let best ← (findBestPeer config storage candidates).toOption
      let storage ← (ensureGenesis config nowSecs storage best.1).toOption
      let engine ← (buildConsensusEngine storage).toOption
      return net.enter peer .joining (⟨peer, ⟨engine, mempool⟩, none, none, .waiting⟩, [])
  -- A round of `run_ibd` (`sync.rs:519-555`). What was committed before an error stays.
  | .ingest peer source config startHeight endHeight maxBlocks clock =>
      if net.stages peer = .joining then do
        let blocks ← ((net.remotePeer config source).requestBlocksByHeightRange startHeight endHeight
          maxBlocks).toOption
        let loop := net.nodes peer
        let ingested := ingestIbdBatch clock loop.runtime.engine blocks
        let stage := if ingested.1.toOption.isSome then .joining else .stopped
        return net.enter peer stage
          ({ loop with runtime := { loop.runtime with engine := ingested.2 } }, [])
      else
        none
  -- The download is complete, and the loop starts.
  | .joined peer =>
      if net.stages peer = .joining then
        some (net.enter peer .running (EventLoop.start peer (net.nodes peer).runtime))
      else
        none

def steps (net : Network PeerId DB) (actions : List (NetworkAction PeerId)) :
    Option (Network PeerId DB) := actions.foldlM step net

/-- The canonical chain of a node. -/
def chain (net : Network PeerId DB) (peer : PeerId) : List Block :=
  canonicalBlocks (net.nodes peer).runtime.engine.db

end Network

end Model

section Loop

variable [Primitives] [Floats] {PeerId DB : Type} [FullNodeStorage DB]
  {loop next : EventLoop PeerId DB} {event : LoopEvent PeerId}
  {sent : List (NetworkCommand PeerId)}

/-- The block that is waiting for its announcement. -/
def Phase.blocks : Phase PeerId → List Block
  | .waiting => []
  | .mined block _ => [block]
  | .received block _ => [block.block]

/-- The blocks among the commands. -/
def publishedBlocks : List (NetworkCommand PeerId) → List Block
  | [] => []
  | .publishBlock block :: sent => block.block :: publishedBlocks sent
  | .publishChainTip _ :: sent => publishedBlocks sent

omit [Primitives] [Floats] in
theorem publishedBlocks_append (sent sent' : List (NetworkCommand PeerId)) :
    publishedBlocks (sent ++ sent') = publishedBlocks sent ++ publishedBlocks sent' := by
  induction sent with
  | nil => rfl
  | cons command sent ih =>
    cases command with
    | publishBlock block => simp [publishedBlocks, ih]
    | publishChainTip announcement => simp [publishedBlocks, ih]

omit [Primitives] [Floats] in
theorem mem_publishedBlocks {b : BroadcastBlock PeerId} (mem : .publishBlock b ∈ sent) :
    b.block ∈ publishedBlocks sent := by
  induction sent with
  | nil => cases mem
  | cons command sent ih =>
    rcases List.mem_cons.mp mem with rfl | later
    · exact List.mem_cons_self
    · cases command with
      | publishBlock block => exact List.mem_cons_of_mem _ (ih later)
      | publishChainTip announcement => exact ih later

/-- What a step of a loop can do: the engine gets some of the blocks of the event, and what waits or
is sent afterwards came with the event or waited already. -/
structure Steps (loop : EventLoop PeerId DB) (blocks : List Block) (next : EventLoop PeerId DB)
    (sent : List (NetworkCommand PeerId)) : Prop where
  engine : ∃ deliveries : List Delivery, next.runtime.engine =
    deliverAll loop.runtime.engine deliveries ∧ ∀ delivery ∈ deliveries, delivery.block ∈ blocks
  phase : ∀ b ∈ next.phase.blocks, b ∈ loop.phase.blocks ++ blocks
  sent : ∀ b ∈ publishedBlocks sent, b ∈ loop.phase.blocks

/-- A step that leaves the engine alone and sends no blocks. -/
theorem Steps.quiet {blocks : List Block} (same : next.runtime.engine = loop.runtime.engine)
    (waits : next.phase = loop.phase ∨ next.phase = .waiting) (none : publishedBlocks sent = []) :
    Steps loop blocks next sent := by
  refine ⟨⟨[], ?_, fun _ mem => absurd mem List.not_mem_nil⟩, fun b mem => ?_, fun b mem => ?_⟩
  · rw [same]
    rfl
  · rcases waits with here | settled
    · rw [here] at mem
      exact List.mem_append_left _ mem
    · rw [settled] at mem
      cases mem
  · rw [none] at mem
    cases mem

omit [FullNodeStorage DB] in
theorem EventLoop.announceTip_quiet (loop : EventLoop PeerId DB) :
    loop.announceTip.1.runtime = loop.runtime ∧ loop.announceTip.1.phase = loop.phase ∧
      publishedBlocks loop.announceTip.2 = [] := by
  unfold announceTip
  cases buildTipAnnouncement loop.runtime.engine <;> exact ⟨rfl, rfl, rfl⟩

omit [FullNodeStorage DB] in
theorem EventLoop.publishReorgTip_quiet (loop : EventLoop PeerId DB) (verdict : ConsensusOutcome) :
    (loop.publishReorgTip verdict).1.runtime = loop.runtime ∧
      (loop.publishReorgTip verdict).1.phase = loop.phase ∧
      publishedBlocks (loop.publishReorgTip verdict).2 = [] := by
  unfold publishReorgTip
  split
  · exact announceTip_quiet loop
  · exact ⟨rfl, rfl, rfl⟩

/-- A block that the loop takes goes to the engine, and waits if it is answered. -/
theorem EventLoop.take_steps (loop : EventLoop PeerId DB) (delivery : Delivery)
    (answered : ConsensusOutcome → Phase PeerId)
    (waits : ∀ verdict, (answered verdict).blocks = [delivery.block]) :
    Steps loop [delivery.block] (loop.take delivery answered) [] := by
  have engine : (loop.take delivery answered).runtime.engine =
      deliverAll loop.runtime.engine [delivery] := by
    refine Eq.trans ?_ (ConsensusRuntime.applyBlock_engine loop.runtime delivery)
    unfold take
    split <;> rename_i answer <;> rw [answer]
  refine ⟨⟨[delivery], engine, ?_⟩, fun b mem => ?_, nofun⟩
  · intro other mem
    rw [List.mem_singleton.mp mem]
    exact List.mem_singleton_self _
  · unfold take at mem
    split at mem
    · rw [waits] at mem
      exact List.mem_append_right _ mem
    · exact List.mem_append_left _ mem

/-- A step that publishes what has waited. -/
theorem Steps.publishes (same : next.runtime = loop.runtime) (waits : next.phase = .waiting)
    (published : publishedBlocks sent = loop.phase.blocks) : Steps loop [] next sent := by
  refine ⟨⟨[], ?_, fun _ mem => absurd mem List.not_mem_nil⟩, fun b mem => ?_, fun b mem => ?_⟩
  · rw [same]
    rfl
  · rw [waits] at mem
    cases mem
  · rw [← published]
    exact mem

/-- What is published has waited. -/
theorem EventLoop.publish_steps (loop : EventLoop PeerId DB) :
    Steps loop [] loop.publish.1 loop.publish.2 := by
  unfold publish
  cases phase : loop.phase with
  | waiting => exact .quiet rfl (.inl rfl) rfl
  | mined block verdict =>
    obtain ⟨same, waits, none⟩ := publishReorgTip_quiet { loop with phase := .waiting } verdict
    dsimp only
    split
    · refine .publishes same waits ?_
      rw [publishedBlocks, none, phase]
      rfl
    · exact .quiet (congrArg ConsensusRuntime.engine same) (.inr waits) rfl
  | received block verdict =>
    obtain ⟨same, waits, none⟩ := publishReorgTip_quiet { loop with phase := .waiting } verdict
    dsimp only
    split
    · refine .publishes same waits ?_
      rw [publishedBlocks_append, none, phase]
      rfl
    · exact .quiet (congrArg ConsensusRuntime.engine same) (.inr waits) none

/-- What an event can do to a loop. -/
theorem EventLoop.handle_steps (handled : loop.handle event = some (next, sent)) :
    Steps loop event.blocks next sent := by
  have received : loop.receive event = some (next, sent) → Steps loop event.blocks next sent := by
    intro taken
    cases event with
    | tipHeartbeat =>
      obtain ⟨rfl, rfl⟩ : loop.tipHeartbeat.1 = next ∧ loop.tipHeartbeat.2 = sent :=
        Prod.mk.inj (Option.some.inj taken)
      unfold tipHeartbeat
      obtain ⟨same, waits, none⟩ := announceTip_quiet loop
      split
      · split
        · exact .quiet rfl (.inl rfl) rfl
        · exact .quiet (congrArg ConsensusRuntime.engine same) (.inl waits) none
      · exact .quiet rfl (.inl rfl) rfl
    | minedBlock delivery =>
      obtain ⟨address, -, answer⟩ := Option.map_eq_some_iff.mp taken
      obtain ⟨rfl, rfl⟩ := Prod.mk.inj answer
      exact loop.take_steps delivery _ fun _ => rfl
    | newBlock delivery originPeerId =>
      obtain ⟨rfl, rfl⟩ : _ = next ∧ _ = sent := Prod.mk.inj (Option.some.inj taken)
      exact loop.take_steps delivery _ fun _ => rfl
    | newTransaction now tx =>
      obtain ⟨rfl, rfl⟩ : _ = next ∧ _ = sent := Prod.mk.inj (Option.some.inj taken)
      exact .quiet rfl (.inl rfl) rfl
    | chainTipAnnounced announcement source =>
      obtain ⟨rfl, rfl⟩ : _ = next ∧ _ = sent := Prod.mk.inj (Option.some.inj taken)
      unfold chainTipAnnounced
      dsimp only
      split
      · exact .quiet rfl (.inl rfl) rfl
      · split <;> exact .quiet rfl (.inl rfl) rfl
    | publish => cases taken
    | synced deliveries => cases taken
    | syncEnded => cases taken
  cases event with
  | synced deliveries =>
    obtain ⟨rfl, rfl⟩ : _ = next ∧ _ = sent := Prod.mk.inj (Option.some.inj handled)
    obtain ⟨n, reached⟩ := loop.runtime.applyBlocks_engine deliveries
    refine ⟨⟨deliveries.take n, reached, fun delivery mem => ?_⟩,
      fun b mem => List.mem_append_left _ mem, nofun⟩
    exact List.mem_map_of_mem (List.mem_of_mem_take mem)
  | syncEnded =>
    obtain ⟨rfl, rfl⟩ : _ = next ∧ _ = sent := Prod.mk.inj (Option.some.inj handled)
    exact .quiet rfl (.inl rfl) rfl
  | publish =>
    unfold handle at handled
    dsimp only at handled
    split at handled
    · cases handled
    · obtain ⟨rfl, rfl⟩ : loop.publish.1 = next ∧ loop.publish.2 = sent :=
        Prod.mk.inj (Option.some.inj handled)
      exact loop.publish_steps
  | _ =>
    unfold handle at handled
    dsimp only at handled
    split at handled
    · exact received handled
    · cases handled

end Loop

section Answers

variable [Primitives] {DB : Type} [FullNodeStorage DB] [LawfulStorage DB]
  {remotePeer : RemotePeer DB} {w : List Block}

omit [Primitives] [FullNodeStorage DB] [LawfulStorage DB] in
/-- What is taken from a stream was in it. -/
theorem mem_of_takeBlocks {message : String} {full : Nat → Bool} {out blocks : List Block}
    {stream : List (Except Status Block)} (taken : takeBlocks message full out stream = .ok blocks) :
    ∀ b ∈ blocks, b ∈ out ∨ .ok b ∈ stream := by
  induction stream generalizing out with
  | nil =>
    cases taken
    exact fun b mem => .inl mem
  | cons item stream ih =>
    simp only [takeBlocks, bind_eq_ok, mapError_eq_ok] at taken
    obtain ⟨block, rfl, taken⟩ := taken
    intro b mem
    split at taken
    · cases taken
      rcases List.mem_append.mp mem with before | last
      · exact .inl before
      · rw [List.mem_singleton.mp last]
        exact .inr List.mem_cons_self
    · rcases ih taken b mem with before | later
      · rcases List.mem_append.mp before with before | last
        · exact .inl before
        · rw [List.mem_singleton.mp last]
          exact .inr List.mem_cons_self
      · exact .inr (List.mem_cons_of_mem _ later)

/-- The blocks that a node is served come from the canonical chain of the other one, however that
one is configured. -/
theorem mem_of_requestBlocksByHeightRange (sound : Sound remotePeer.service.storage)
    (chain : IsChain w) (represents : Represents (tables remotePeer.service.storage) w)
    {startHeight endHeight : UInt64} {maxBlocks : UInt32} {blocks : List Block}
    (asked : remotePeer.requestBlocksByHeightRange startHeight endHeight maxBlocks = .ok blocks) :
    ∀ b ∈ blocks, b ∈ w := by
  intro b mem
  have views := views_storage sound chain represents.holds
  simp only [RemotePeer.requestBlocksByHeightRange, StryiSyncService.getBlocksByHeight,
    bind_eq_ok, mapError_eq_ok, pure_eq_ok] at asked
  obtain ⟨stream, ⟨hashes, range, rfl⟩, taken⟩ := asked
  rcases mem_of_takeBlocks taken b mem with none | item
  · cases none
  · obtain ⟨hash, listed, answer⟩ := List.mem_map.mp item
    simp only [StryiSyncService.readBlock, bind_eq_ok, mapError_eq_ok, okOr_eq_ok] at answer
    obtain ⟨found, read, rfl⟩ := answer
    simp only [StryiSyncService.heightRangeHashes, bind_eq_ok, failIf_eq_ok] at range
    obtain ⟨⟨⟩, -, ⟨⟩, -, range⟩ := range
    obtain ⟨height, -, at_height⟩ := mem_of_mapM_eq_ok range listed
    simp only [StryiSyncService.hashAt, bind_eq_ok, mapError_eq_ok, okOr_eq_ok] at at_height
    obtain ⟨known, index, rfl⟩ := at_height
    -- The index names a canonical block, and its body is the one that is stored.
    rw [views.height, Except.ok.injEq, Option.map_eq_some_iff] at index
    obtain ⟨canonical, here, rfl⟩ := index
    have stored := represents.holds.body canonical (List.mem_of_getElem? here)
    rw [getBlockByHash_eq _ sound, stored, Except.ok.injEq, Option.some.injEq] at read
    rw [← read]
    exact List.mem_of_getElem? here

end Answers

section Safety

variable [Primitives] [Floats] {PeerId DB : Type} [FullNodeStorage DB] [LawfulStorage DB]
  {U : Block → Prop} {g : Block} {w : List Block} {loop next : EventLoop PeerId DB}
  {sent : List (NetworkCommand PeerId)}

/-- A loop that was given blocks of the set alone, above the genesis whose rules it enforces. -/
structure Supplied (U : Block → Prop) (g : Block) (loop : EventLoop PeerId DB) (w : List Block) :
    Prop where
  sourced : Sourced U g loop.runtime.engine w
  enforces : EnforcesGenesis g loop.runtime.engine.blockValidator
  waiting : ∀ b ∈ loop.phase.blocks, U b

theorem Supplied.chain_eq (supplied : Supplied U g loop w) :
    canonicalBlocks loop.runtime.engine.db = w :=
  canonicalBlocks_eq supplied.sourced.canonical

/-- A step with blocks of the set. -/
theorem Supplied.steps (supplied : Supplied U g loop w) {blocks : List Block}
    (inside : ∀ b ∈ blocks, U b) (steps : Steps loop blocks next sent) :
    ∃ w', Supplied U g next w' ∧ (w' = w ∨ chainWork w < chainWork w') ∧
      ∀ b ∈ publishedBlocks sent, U b := by
  obtain ⟨deliveries, reached, given⟩ := steps.engine
  obtain ⟨w', sourced⟩ := supplied.sourced.run fun delivery mem => inside _ (given delivery mem)
  obtain ⟨w'', inv, heavier⟩ := supplied.sourced.run_heavier deliveries
  obtain rfl : w'' = w' := by
    rw [← canonicalBlocks_eq sourced.canonical, canonicalBlocks_eq inv.canonical]
  refine ⟨w'', ⟨?_, ?_, fun b mem => ?_⟩, heavier, fun b mem => ?_⟩
  · rw [reached]
    exact sourced
  · rw [reached, deliverAll_blockValidator]
    exact supplied.enforces
  · exact (List.mem_append.mp (steps.phase b mem)).elim (supplied.waiting b) (inside b)
  · exact supplied.waiting b (steps.sent b mem)

/-- A loop that is about to start over an engine that is supplied. -/
theorem Supplied.start (supplied : Supplied U g loop w) (peer : PeerId) :
    Supplied U g (EventLoop.start peer loop.runtime).1 w ∧
      publishedBlocks (EventLoop.start peer loop.runtime).2 = [] := by
  obtain ⟨same, waits, none⟩ := EventLoop.announceTip_quiet
    (⟨peer, loop.runtime, none, none, .waiting⟩ : EventLoop PeerId DB)
  refine ⟨⟨?_, ?_, ?_⟩, none⟩
  · unfold EventLoop.start
    rw [same]
    exact supplied.sourced
  · unfold EventLoop.start
    rw [same]
    exact supplied.enforces
  · unfold EventLoop.start
    rw [waits]
    exact fun b mem => absurd mem List.not_mem_nil

/-- A node that is started again has its chain. -/
theorem Supplied.rebuilt (supplied : Supplied U g loop w) (peer : PeerId) (mempool : MemPool) :
    ∃ engine, buildConsensusEngine loop.runtime.engine.db = .ok engine ∧
      Supplied U g (⟨peer, ⟨engine, mempool⟩, none, none, .waiting⟩ : EventLoop PeerId DB) w := by
  obtain ⟨engine, built, inv, storage, forks, validator⟩ :=
    supplied.sourced.toInvariant.restarted rfl
  obtain ⟨rest, first⟩ := supplied.sourced.first
  have canonical := supplied.sourced.canonical
  refine ⟨engine, ?_, ⟨⟨inv, supplied.sourced.above, fun key e found => ?_⟩, ?_, ?_⟩⟩
  · rw [buildConsensusEngine_eq canonical.sound canonical.chain canonical.represents
      (by rw [first]; rfl) supplied.enforces, built]
    rfl
  · rw [forks, Table.read_empty] at found
    cases found
  · rw [validator]
    exact supplied.enforces
  · exact fun b mem => absurd mem List.not_mem_nil

/-- A node that has a genesis block already keeps its storage when it is compared with that of a
peer. -/
theorem Supplied.ensureGenesis_eq (supplied : Supplied U g loop w) {config : StryiSyncServiceConfig}
    {nowSecs : UInt64} {remotePeer : RemotePeer DB} {storage : DB}
    (ensured : ensureGenesis config nowSecs loop.runtime.engine.db remotePeer = .ok storage) :
    storage = loop.runtime.engine.db := by
  have canonical := supplied.sourced.canonical
  obtain ⟨rest, first⟩ := supplied.sourced.first
  have genesis : getBlockByHeight loop.runtime.engine.db 0 = .ok (some g) := by
    apply getBlockByHeight_of_represents canonical.sound canonical.chain canonical.represents
    rw [first]
    rfl
  simp only [ensureGenesis, genesis, bind_eq_ok, mapError_ok] at ensured
  obtain ⟨block, -, found, same, checked⟩ := ensured
  obtain rfl := Except.ok.inj same
  obtain ⟨⟨⟩, -, kept⟩ := bind_eq_ok.mp checked
  exact (Except.ok.inj kept).symm

omit [Floats] [LawfulStorage DB] in
/-- A batch reaches the engine up to the first block that fails. -/
theorem ingestIbdBatch_engine (clock : Block → UInt64) (engine : StryiConsensusEngine DB)
    (blocks : List Block) : ∃ n, (ingestIbdBatch clock engine blocks).2 =
      deliverAll engine ((blocks.take n).map (syncDelivery clock)) := by
  induction blocks generalizing engine with
  | nil => exact ⟨0, rfl⟩
  | cons block blocks ih =>
    unfold ingestIbdBatch
    dsimp only
    split
    · rename_i error after step
      have first : deliver engine (syncDelivery clock block) = after := by rw [deliver, step]
      exact ⟨1, first.symm⟩
    · rename_i error after step
      have first : deliver engine (syncDelivery clock block) = after := by rw [deliver, step]
      exact ⟨1, first.symm⟩
    · rename_i verdict after _ step
      have first : deliver engine (syncDelivery clock block) = after := by rw [deliver, step]
      obtain ⟨n, rest⟩ := ih after
      refine ⟨n + 1, rest.trans ?_⟩
      rw [← first]
      rfl

/-- A batch of blocks of the set. -/
theorem Supplied.ingested (supplied : Supplied U g loop w) {blocks : List Block}
    (inside : ∀ b ∈ blocks, U b) (clock : Block → UInt64) :
    ∃ w', Supplied U g { loop with runtime := { loop.runtime with
        engine := (ingestIbdBatch clock loop.runtime.engine blocks).2 } } w' ∧
      (w' = w ∨ chainWork w < chainWork w') := by
  obtain ⟨n, reached⟩ := ingestIbdBatch_engine clock loop.runtime.engine blocks
  have steps : Steps loop blocks { loop with runtime := { loop.runtime with
      engine := (ingestIbdBatch clock loop.runtime.engine blocks).2 } } [] := by
    refine ⟨⟨_, reached, fun delivery mem => ?_⟩, fun b mem => List.mem_append_left _ mem, nofun⟩
    obtain ⟨block, fetched, rfl⟩ := List.mem_map.mp mem
    exact List.mem_of_mem_take fetched
  obtain ⟨w', supplied', rises, -⟩ := supplied.steps inside steps
  exact ⟨w', supplied', rises⟩

end Safety

namespace Network

/-- A chain is kept or becomes heavier. -/
def Rises (w w' : List Block) : Prop := w' = w ∨ chainWork w < chainWork w'

theorem Rises.refl (w : List Block) : Rises w w := .inl rfl

theorem Rises.trans {w w' w'' : List Block} (first : Rises w w') (second : Rises w' w'') :
    Rises w w'' := by
  rcases first with rfl | heavier
  · exact second
  · rcases second with rfl | more
    · exact .inr heavier
    · exact .inr (Nat.lt_trans heavier more)

variable [Primitives] [Floats] {PeerId DB : Type} [DecidableEq PeerId] [FullNodeStorage DB]
  [LawfulStorage DB] {U : Block → Prop} {g : Block} {net net' : Network PeerId DB}
  {action : NetworkAction PeerId} {actions later : List (NetworkAction PeerId)}

/-- Every node was given blocks of the set alone, and nobody has published another one. -/
structure Closed (U : Block → Prop) (g : Block) (net : Network PeerId DB) : Prop where
  nodes : ∀ peer, ∃ w, Supplied U g (net.nodes peer) w
  published : ∀ b ∈ publishedBlocks net.published, U b

omit [LawfulStorage DB] [FullNodeStorage DB] in
theorem update_self (net : Network PeerId DB) (peer : PeerId)
    (answer : EventLoop PeerId DB × List (NetworkCommand PeerId)) :
    (net.update peer answer).nodes peer = answer.1 := Function.update_self _ _ _

omit [LawfulStorage DB] [FullNodeStorage DB] in
theorem update_of_ne (net : Network PeerId DB) {peer i : PeerId} (apart : i ≠ peer)
    (answer : EventLoop PeerId DB × List (NetworkCommand PeerId)) :
    (net.update peer answer).nodes i = net.nodes i := Function.update_of_ne apart _ _

/-- The network after one loop has gone on: the others are left alone. -/
theorem Closed.update (closed : Closed U g net) {peer : PeerId} {w w' : List Block}
    {answer : EventLoop PeerId DB × List (NetworkCommand PeerId)}
    (supplied : Supplied U g (net.nodes peer) w) (supplied' : Supplied U g answer.1 w')
    (rises : Rises w w') (sent : ∀ b ∈ publishedBlocks answer.2, U b) :
    Closed U g (net.update peer answer) ∧
      ∀ i, Rises (net.chain i) ((net.update peer answer).chain i) := by
  have one : ∀ i, (∃ v, Supplied U g ((net.update peer answer).nodes i) v) ∧
      Rises (net.chain i) ((net.update peer answer).chain i) := by
    intro i
    unfold chain
    by_cases here : i = peer
    · rw [here, update_self, supplied.chain_eq, supplied'.chain_eq]
      exact ⟨⟨w', supplied'⟩, rises⟩
    · rw [update_of_ne net here]
      exact ⟨closed.nodes i, .refl _⟩
  refine ⟨⟨fun i => (one i).1, fun b mem => ?_⟩, fun i => (one i).2⟩
  rw [Network.update, publishedBlocks_append] at mem
  exact (List.mem_append.mp mem).elim (closed.published b) (sent b)

/-- A node that enters a stage with nothing to send. -/
theorem Closed.enter (closed : Closed U g net) {peer : PeerId} {w w' : List Block} (stage : Stage)
    {answer : EventLoop PeerId DB × List (NetworkCommand PeerId)}
    (supplied : Supplied U g (net.nodes peer) w) (supplied' : Supplied U g answer.1 w')
    (rises : Rises w w') (silent : publishedBlocks answer.2 = []) :
    Closed U g (net.enter peer stage answer) ∧
      ∀ i, Rises (net.chain i) ((net.enter peer stage answer).chain i) := by
  obtain ⟨closed', rises'⟩ := closed.update supplied supplied' rises fun b mem => by
    rw [silent] at mem
    cases mem
  exact ⟨⟨closed'.nodes, closed'.published⟩, rises'⟩

omit [DecidableEq PeerId] in
/-- What the service of a node answers is of the set. -/
theorem Closed.served (closed : Closed U g net) (genesis : U g) {config : StryiSyncServiceConfig}
    {source : PeerId} {startHeight endHeight : UInt64} {maxBlocks : UInt32} {blocks : List Block}
    (asked : (net.remotePeer config source).requestBlocksByHeightRange startHeight endHeight
      maxBlocks = .ok blocks) : ∀ b ∈ blocks, U b := by
  obtain ⟨w, other⟩ := closed.nodes source
  have canonical := other.sourced.canonical
  obtain ⟨rest, rfl⟩ := other.sourced.first
  intro b mem
  have held : b ∈ g :: rest := by
    refine mem_of_requestBlocksByHeightRange ?_ canonical.chain ?_ asked b mem
    · exact canonical.sound
    · exact canonical.represents
  rcases List.mem_cons.mp held with rfl | above
  · exact genesis
  · exact (other.sourced.above b above).inside

/-- An event with blocks of the set. -/
theorem Closed.handle (closed : Closed U g net) {peer : PeerId} {event : LoopEvent PeerId}
    (inside : ∀ b ∈ event.blocks, U b) (handled : net.handle peer event = some net') :
    Closed U g net' ∧ ∀ i, Rises (net.chain i) (net'.chain i) := by
  unfold Network.handle at handled
  split at handled
  case isFalse => cases handled
  obtain ⟨⟨next, sent⟩, done, rfl⟩ := Option.map_eq_some_iff.mp handled
  obtain ⟨w, supplied⟩ := closed.nodes peer
  obtain ⟨w', supplied', rises, sent⟩ := supplied.steps inside (EventLoop.handle_steps done)
  exact closed.update supplied supplied' rises sent

/-- An action that introduces blocks of the set alone. -/
theorem Closed.step (closed : Closed U g net) (genesis : U g)
    (inside : ∀ b ∈ action.introduced, U b) (step : net.step action = some net') :
    Closed U g net' ∧ ∀ i, Rises (net.chain i) (net'.chain i) := by
  unfold Network.step at step
  cases action with
  | outside peer event => exact closed.handle inside step
  | gossip peer n nowSecs faults source =>
    obtain ⟨command, listed, step⟩ := Option.bind_eq_some_iff.mp step
    cases command with
    | publishBlock block =>
      refine closed.handle (fun b mem => ?_) step
      rw [List.mem_singleton.mp mem]
      exact closed.published _ (mem_publishedBlocks (List.mem_of_getElem? listed))
    | publishChainTip announcement =>
      exact closed.handle (fun b mem => absurd mem List.not_mem_nil) step
  | download peer source config startHeight endHeight maxBlocks clock =>
    obtain ⟨blocks, asked, step⟩ := Option.bind_eq_some_iff.mp step
    refine closed.handle (fun b mem => ?_) step
    obtain ⟨b', fetched, rfl⟩ : ∃ b' ∈ blocks, b' = b := by
      simpa [LoopEvent.blocks, syncDelivery] using mem
    exact closed.served genesis (toOption_eq_some.mp asked) b' fetched
  | bootstrap peer mempool =>
    obtain ⟨engine, built, step⟩ := Option.bind_eq_some_iff.mp step
    obtain ⟨w, supplied⟩ := closed.nodes peer
    obtain ⟨engine', built', supplied'⟩ := supplied.rebuilt peer mempool
    obtain rfl : engine' = engine :=
      Except.ok.inj (built'.symm.trans (toOption_eq_some.mp built))
    obtain rfl := Option.some.inj step
    obtain ⟨started, silent⟩ := supplied'.start peer
    exact closed.enter .running supplied started (.refl w) silent
  | join peer config nowSecs listed mempool =>
    obtain ⟨best, -, step⟩ := Option.bind_eq_some_iff.mp step
    obtain ⟨storage, ensured, step⟩ := Option.bind_eq_some_iff.mp step
    obtain ⟨engine, built, step⟩ := Option.bind_eq_some_iff.mp step
    obtain ⟨w, supplied⟩ := closed.nodes peer
    obtain rfl := supplied.ensureGenesis_eq (toOption_eq_some.mp ensured)
    obtain ⟨engine', built', supplied'⟩ := supplied.rebuilt peer mempool
    obtain rfl : engine' = engine :=
      Except.ok.inj (built'.symm.trans (toOption_eq_some.mp built))
    obtain rfl := Option.some.inj step
    exact closed.enter .joining supplied supplied' (.refl w) rfl
  | ingest peer source config startHeight endHeight maxBlocks clock =>
    dsimp only at step
    split at step
    case isFalse => cases step
    obtain ⟨blocks, asked, step⟩ := Option.bind_eq_some_iff.mp step
    obtain rfl := Option.some.inj step
    obtain ⟨w, supplied⟩ := closed.nodes peer
    obtain ⟨w', supplied', rises⟩ :=
      supplied.ingested (closed.served genesis (toOption_eq_some.mp asked)) clock
    exact closed.enter _ supplied supplied' rises rfl
  | joined peer =>
    dsimp only at step
    split at step
    case isFalse => cases step
    obtain rfl := Option.some.inj step
    obtain ⟨w, supplied⟩ := closed.nodes peer
    obtain ⟨started, silent⟩ := supplied.start peer
    exact closed.enter .running supplied started (.refl w) silent

/-- A run that introduces blocks of the set alone. -/
theorem Closed.steps (closed : Closed U g net) (genesis : U g)
    (inside : ∀ b ∈ actions.flatMap NetworkAction.introduced, U b)
    (run : net.steps actions = some net') :
    Closed U g net' ∧ ∀ i, Rises (net.chain i) (net'.chain i) := by
  induction actions generalizing net with
  | nil =>
    obtain rfl := Option.some.inj run
    exact ⟨closed, fun i => .refl _⟩
  | cons action actions ih =>
    obtain ⟨middle, first, rest⟩ := Option.bind_eq_some_iff.mp run
    rw [List.flatMap_cons] at inside
    obtain ⟨closed', rises⟩ :=
      closed.step genesis (fun b mem => inside b (List.mem_append_left _ mem)) first
    obtain ⟨closed'', rises'⟩ :=
      ih closed' (fun b mem => inside b (List.mem_append_right _ mem)) rest
    exact ⟨closed'', fun i => (rises i).trans (rises' i)⟩

/-- Every loop is about to start over an engine that has nothing but the genesis block and enforces
its rules, and no block has been published. -/
structure Launched (g : Block) (net : Network PeerId DB) : Prop where
  silent : publishedBlocks net.published = []
  loops : ∀ peer, (net.nodes peer).phase = .waiting ∧
    ∃ consensusConsts blockValidator chainMetadata, launch consensusConsts blockValidator g
        chainMetadata = .ok (net.nodes peer).runtime.engine ∧ EnforcesGenesis g blockValidator

omit [DecidableEq PeerId] in
theorem Launched.closed (launched : Launched g net) : Closed U g net := by
  refine ⟨fun peer => ?_, fun b mem => ?_⟩
  · obtain ⟨waits, consensusConsts, blockValidator, chainMetadata, started, enforces⟩ :=
      launched.loops peer
    refine ⟨[g], .launched started, ?_, fun b mem => ?_⟩
    · rw [(Invariant.launched started).2.1]
      exact enforces
    · rw [waits] at mem
      cases mem
  · rw [launched.silent] at mem
    cases mem

/-- Whatever the nodes hear and miss, download and forget, every chain consists of blocks that came
into the network, two nodes with one hash at some height have the same history up to there, and
two nodes with one tip the same chain. -/
theorem network_agreement (launched : net.Launched g) (run : net.steps actions = some net')
    (free : CollisionFree fun b => b ∈ actions.flatMap NetworkAction.introduced) :
    (∀ peer, ∃ rest, net'.chain peer = g :: rest ∧
      ∀ b ∈ rest, b ∈ actions.flatMap NetworkAction.introduced) ∧
    (∀ block, .publishBlock block ∈ net'.published →
      block.block = g ∨ block.block ∈ actions.flatMap NetworkAction.introduced) ∧
    ∀ i j, (∀ height hash,
        getBlockHashByHeight (net'.nodes i).runtime.engine.db height = .ok (some hash) →
        getBlockHashByHeight (net'.nodes j).runtime.engine.db height = .ok (some hash) →
        (net'.chain i).take (height.toNat + 1) = (net'.chain j).take (height.toNat + 1)) ∧
      ((net'.nodes i).runtime.engine.chainIndex.tip = (net'.nodes j).runtime.engine.chainIndex.tip →
        net'.chain i = net'.chain j) := by
  have start : Closed (fun b => b = g ∨ b ∈ actions.flatMap NetworkAction.introduced) g net :=
    launched.closed
  obtain ⟨closed, -⟩ := start.steps (.inl rfl) (fun b mem => .inr mem) run
  -- The genesis block is no block of a chain above it.
  have above : g.header.isGenesis = true →
      ∀ b, Vetted (fun b => b = g ∨ b ∈ actions.flatMap NetworkAction.introduced) b →
      Vetted (fun b => b ∈ actions.flatMap NetworkAction.introduced) b := by
    intro marker b vetted
    refine ⟨vetted.inside.resolve_left ?_, vetted.normal, vetted.merkle, vetted.unique⟩
    intro same
    have normal := vetted.normal
    rw [same, marker] at normal
    cases normal
  refine ⟨fun peer => ?_, fun block mem => closed.published _ (mem_publishedBlocks mem),
    fun i j => ?_⟩
  · obtain ⟨w, supplied⟩ := closed.nodes peer
    obtain ⟨rest, rfl⟩ := supplied.sourced.first
    refine ⟨rest, supplied.chain_eq, fun b mem => ?_⟩
    exact (above supplied.sourced.genesis.marker b (supplied.sourced.above b mem)).inside
  · obtain ⟨w, here⟩ := closed.nodes i
    obtain ⟨w', there⟩ := closed.nodes j
    have vetted := above here.sourced.genesis.marker
    have free' : CollisionFree fun b =>
        b = g ∨ b ∈ actions.flatMap NetworkAction.introduced :=
      fun a b ha hb same => free a b (vetted a ha) (vetted b hb) same
    rw [chain, chain, here.chain_eq, there.chain_eq]
    exact ⟨fun height hash => here.sourced.agree free' there.sourced,
      here.sourced.same_tip free' there.sourced⟩

/-- No node ever falls back: its chain stays or becomes heavier whatever happens, also while the node
is started again, and at any moment a start in bootstrap mode takes place without losing a block. -/
theorem network_never_falls_back {middle : Network PeerId DB} (launched : net.Launched g)
    (run : net.steps actions = some middle) (run' : middle.steps later = some net')
    (peer : PeerId) :
    (net'.chain peer = middle.chain peer ∨
      chainWork (middle.chain peer) < chainWork (net'.chain peer)) ∧
    ∀ mempool, ∃ after, net'.step (.bootstrap peer mempool) = some after ∧
      ∀ i, after.chain i = net'.chain i := by
  have start : Closed (fun b => b = g ∨ b ∈ (actions ++ later).flatMap NetworkAction.introduced) g
      net := launched.closed
  rw [List.flatMap_append] at start
  obtain ⟨closed, -⟩ :=
    start.steps (.inl rfl) (fun b mem => .inr (List.mem_append_left _ mem)) run
  obtain ⟨closed', rises⟩ :=
    closed.steps (.inl rfl) (fun b mem => .inr (List.mem_append_right _ mem)) run'
  refine ⟨rises peer, fun mempool => ?_⟩
  obtain ⟨w, supplied⟩ := closed'.nodes peer
  obtain ⟨engine, built, supplied'⟩ := supplied.rebuilt peer mempool
  obtain ⟨started, -⟩ := supplied'.start peer
  refine ⟨net'.enter peer .running (EventLoop.start peer ⟨engine, mempool⟩), ?_, fun i => ?_⟩
  · rw [Network.step, built]
    rfl
  · change (net'.update peer (EventLoop.start peer ⟨engine, mempool⟩)).chain i = net'.chain i
    unfold chain
    by_cases here : i = peer
    · rw [here, update_self, supplied.chain_eq]
      exact started.chain_eq
    · rw [update_of_ne net' here]

end Network

namespace Sample

/-- Nodes that are about to start over one engine. -/
def loops (engine : StryiConsensusEngine RocksView) : Network Nat RocksView :=
  ⟨fun peer => ⟨peer, ⟨engine, MemPool.new poolConfig⟩, none, none, .waiting⟩,
    fun _ => .running, []⟩

/-- A block that is mined at one node and heard at another, which is restarted. -/
def mining : List (NetworkAction Nat) :=
  [.outside 0 (.minedBlock (call rival)), .outside 0 .publish, .gossip 1 0 1000 .none 0,
    .outside 1 .publish, .bootstrap 1 (MemPool.new poolConfig)]

/-- Two blocks that a stranger sends to a third node, from which the first one downloads them. -/
def overtaking : List (NetworkAction Nat) :=
  [.outside 2 (.newBlock (call other) 9), .outside 2 .publish,
    .outside 2 (.newBlock (call next) 9), .outside 2 .publish,
    .download 0 2 ⟨"sample", 1, 2⟩ 1 2 2 fun _ => 1000]

/-- A node that has heard nothing is started again in join mode and downloads from the third one. -/
def catchingUp : List (NetworkAction Nat) :=
  [.join 3 ⟨"sample", 1, 2⟩ 1000 (.ok [(1, .ok (⟨"sample", 1, 2⟩, 2))]) (MemPool.new poolConfig),
    .ingest 3 2 ⟨"sample", 1, 2⟩ 1 2 2 fun _ => 1000, .joined 3]

theorem loops_launched {engine : StryiConsensusEngine RocksView} (started : start = .ok engine) :
    (loops engine).Launched genesis :=
  ⟨rfl, fun _ => ⟨rfl, consts, validator, ⟨2, "sample", 1, 0⟩, started, rfl, rfl⟩⟩

end Sample

open Sample in
/-- The first node leaves its own block for those of the stranger, and the one that joins takes them
too. -/
theorem network_agreement_sample : ∃ engine net, start = .ok engine ∧
    (loops engine).steps (mining ++ overtaking ++ catchingUp) = some net ∧
    net.chain 0 = [genesis, Sample.other, next] ∧ net.chain 1 = [genesis, rival] ∧
    net.stages 3 = .running ∧ net.chain 0 = net.chain 3 := by
  have runs : start.toOption.any (fun engine =>
      ((loops engine).steps (mining ++ overtaking ++ catchingUp)).any fun net =>
        net.chain 0 = [genesis, Sample.other, next] ∧ net.chain 1 = [genesis, rival] ∧
        net.stages 3 = .running ∧ (net.nodes 0).runtime.engine.chainIndex.tip =
          (net.nodes 3).runtime.engine.chainIndex.tip) = true := by decide +kernel
  obtain ⟨engine, started, runs⟩ := exists_ok_of_any runs
  obtain ⟨net, run, reads⟩ := (Option.any_eq_true _ _).mp runs
  obtain ⟨first, second, joined, tips⟩ := of_decide_eq_true reads
  have apart : ∀ a ∈ [rival, Sample.other, next], ∀ b ∈ [rival, Sample.other, next],
      a.blockHash = b.blockHash → a = b := by decide +kernel
  have free : CollisionFree fun b =>
      b ∈ (mining ++ overtaking ++ catchingUp).flatMap NetworkAction.introduced :=
    fun a b ha hb same => apart a ha.inside b hb.inside same
  obtain ⟨-, -, agree⟩ := Network.network_agreement (loops_launched started) run free
  exact ⟨engine, net, started, run, first, second, joined, (agree 0 3).2 tips⟩

open Sample in
/-- The second node goes on from its block, which it has kept when it was restarted. -/
theorem network_never_falls_back_sample : ∃ engine middle net, start = .ok engine ∧
    (loops engine).steps mining = some middle ∧
    middle.steps (overtaking ++ catchingUp) = some net ∧
    ∀ peer, net.chain peer = middle.chain peer ∨
      chainWork (middle.chain peer) < chainWork (net.chain peer) := by
  have runs : start.toOption.any (fun engine => ((loops engine).steps mining).any fun middle =>
      (middle.steps (overtaking ++ catchingUp)).any fun _ => true) = true := by decide +kernel
  obtain ⟨engine, started, runs⟩ := exists_ok_of_any runs
  obtain ⟨middle, run, runs⟩ := (Option.any_eq_true _ _).mp runs
  obtain ⟨net, run', -⟩ := (Option.any_eq_true _ _).mp runs
  exact ⟨engine, middle, net, started, run, run', fun peer =>
    (Network.network_never_falls_back (loops_launched started) run run' peer).1⟩

end StryiChain
