import StryiChain.Chain.Redelivery
import StryiChain.Node.Runtime

/-!
# Which blocks are sent on

The event loop reads the verdict only. Every verdict that it sends a block on for comes from a
handler that has validated the block on the branch it belongs to, except for one: a block whose
parent is unknown is neither validated nor kept, and counts as buffered. What has been validated on
a branch is valid on every storage that holds the path to its parent.
-/

namespace StryiChain

open LawfulStorage StryiConsensusEngine

section Path

variable [Primitives] {DB DB' : Type} [FullNodeStorage DB] [LawfulStorage DB]
  [FullNodeStorage DB'] [LawfulStorage DB']
  {engine : StryiConsensusEngine DB} {U : Block → Prop} {g b : Block} {w path : List Block}
  {nowSecs : UInt64} {validator : BlockValidator}

/-- The block stands on top of the path, and passes on every storage that holds the path as its
canonical chain and the outputs that the path leaves unspent. -/
structure ValidAbove (DB' : Type) [FullNodeStorage DB'] [LawfulStorage DB']
    (validator : BlockValidator) (nowSecs : UInt64) (b : Block) (path : List Block) : Prop where
  chain : IsChain path
  parent : path.getLast?.map Block.blockHash = some b.header.previousBlockHash
  passes : ∀ s : DB', Sound s → Represents (tables s) path → (tables s).utxo = Coins.ledger path →
    validator.validate nowSecs b s = .ok ()

/-- One view of the path and its ledger speaks for all the storages. -/
theorem ValidAbove.of_views {S : Type} [BlockStorage S] [UtxoStorage S] {view : S}
    (views : Views view path (Coins.ledger path))
    (parent : path.getLast?.map Block.blockHash = some b.header.previousBlockHash)
    (passes : validator.validate nowSecs b view = .ok ()) :
    ValidAbove DB' validator nowSecs b path := by
  refine ⟨views.chain, parent, fun s sound represents exact => ?_⟩
  have stored := views_storage sound views.chain represents.holds
  rw [exact] at stored
  exact (views.validate_iff stored).mp passes

/-- A block that has passed on the view of its branch is valid above the path to its parent. -/
theorem Secure.validAbove (secure : Secure U g engine w)
    (shape : verifyGenesisWorkShape b = .ok ()) (height : engine.validateHeight b = true)
    (fresh : ForksFresh engine b) (valid : Validated engine nowSecs b) :
    ∃ path, ValidAbove DB' engine.blockValidator nowSecs b path := by
  have canonical := secure.canonical
  have chain := canonical.chain
  have holds := canonical.represents.holds
  have spec := classifyBlock_spec engine b
  cases class' : engine.classifyBlock b with
  | known location =>
    rw [Validated, class'] at valid
    cases valid
  | orphan parent =>
    rw [Validated, class'] at valid
    cases valid
  | extendsCanonical =>
    rw [Validated, class'] at valid
    rw [class'] at spec
    obtain ⟨top, last, tip⟩ := secure.exists_tip
    have parent := spec.2
    rw [tip] at parent
    have views := views_storage canonical.sound chain holds
    rw [secure.exact] at views
    refine ⟨w, .of_views views ?_ valid⟩
    rw [last, Option.map_some]
    simpa [eq_comm] using parent
  | createsForkFromCanonical lca =>
    rw [Validated, class'] at valid
    rw [class'] at spec
    obtain ⟨-, rfl, known⟩ := spec
    obtain ⟨overlay, view, passes⟩ := valid
    obtain ⟨p, q, a, split, last, hash⟩ := exists_below (canonical.indexOf.has_iff.mp known)
    have ancestor : p.getLast?.map Block.blockHash = some b.header.previousBlockHash := by
      rw [last, Option.map_some, hash]
    have root : forkRoot engine b = some b.header.previousBlockHash := by
      simp only [forkRoot, class']
    obtain ⟨overlay', view', replayed, coins⟩ := secure.overlay split last
      (fresh.above secure.toInvariant shape height root split ancestor)
    rw [hash] at view'
    obtain rfl : overlay' = overlay := Except.ok.inj (view'.symm.trans view)
    have ne : p ≠ [] := by
      rintro rfl
      cases last
    rw [split] at chain holds
    have views := views_overlay canonical.sound chain holds
      (by rw [List.append_nil]; exact chain.left ne) ne replayed
    rw [coins, List.append_nil] at views
    exact ⟨p, .of_views views ancestor passes⟩
  | extendsFork parent lca =>
    rw [Validated, class'] at valid
    rw [class'] at spec
    obtain ⟨-, rfl, -, e', found', rfl⟩ := spec
    obtain ⟨e, rewound, overlay, found, view, replay, passes⟩ := valid
    obtain rfl : e = e' := Option.some.inj (found.symm.trans found')
    obtain ⟨tip, p, q, branches⟩ := secure.registry.entry found
    have root : forkRoot engine b = some e.commonAncestor := by
      simp only [forkRoot, class']
    obtain ⟨rewound', overlay', view', replay', replayed, coins⟩ := secure.replayed branches
      (fresh.above secure.toInvariant shape height root branches.split branches.ancestor)
    obtain rfl : rewound' = rewound := Except.ok.inj (view'.symm.trans view)
    obtain rfl : overlay' = overlay := Except.ok.inj (replay'.symm.trans replay)
    rw [branches.split] at chain holds
    have views := views_overlay canonical.sound chain holds branches.chain branches.ne_nil replayed
    rw [coins] at views
    refine ⟨p ++ e.blocks, .of_views views ?_ passes⟩
    rw [List.getLast?_append_of_ne_nil _ branches.blocks_ne_nil, branches.tip, tip]

end Path

namespace ConsensusRuntime

variable [Primitives] [Floats] {DB : Type} [FullNodeStorage DB]

/-- What relaying should guarantee: a block that is sent on has been validated on its branch, and
is not sent on again when it is received next. -/
structure RelaySound (runtime : ConsensusRuntime DB) (delivery : Delivery) : Prop where
  validated : (runtime.receiveBlock delivery).1 = true →
    Validated runtime.engine delivery.nowSecs delivery.block
  once : (runtime.receiveBlock delivery).1 = true → ∀ nowSecs faults,
    ((runtime.receiveBlock delivery).2.receiveBlock ⟨nowSecs, faults, delivery.block⟩).1 = false

/-- The block passes the checks before classification and has an unknown parent. -/
def Stray (engine : StryiConsensusEngine DB) (b : Block) : Prop :=
  verifyGenesisWorkShape b = .ok () ∧ engine.validateHeight b = true ∧
    ∃ parent, engine.classifyBlock b = .orphan parent

section Receive

omit [Floats] in
theorem onBlock_stray {engine : StryiConsensusEngine DB} {b : Block} (stray : Stray engine b)
    (nowSecs : UInt64) (faults : Faults) :
    onBlock nowSecs faults b engine = .ok .buffered engine := by
  obtain ⟨shape, height, parent, orphan⟩ := stray
  rw [onBlock, EngineM.get_bind_run]
  simp only [shape, height, orphan]
  rfl

theorem receiveBlock_ok {runtime : ConsensusRuntime DB} {delivery : Delivery}
    {verdict : ConsensusVerdict} {engine' : StryiConsensusEngine DB}
    (run : onBlock delivery.nowSecs delivery.faults delivery.block runtime.engine =
      .ok verdict engine') :
    runtime.receiveBlock delivery = (shouldRelay (outcomeOf runtime.mempool verdict).1,
      ⟨engine', (outcomeOf runtime.mempool verdict).2⟩) := by
  unfold receiveBlock applyBlock
  rw [run]

/-- Only a verdict of the engine can send a block on. -/
theorem receiveBlock_relays {runtime : ConsensusRuntime DB} {delivery : Delivery}
    (relayed : (runtime.receiveBlock delivery).1 = true) : ∃ verdict engine',
      onBlock delivery.nowSecs delivery.faults delivery.block runtime.engine =
        .ok verdict engine' ∧
      shouldRelay (outcomeOf runtime.mempool verdict).1 = true := by
  cases run : onBlock delivery.nowSecs delivery.faults delivery.block runtime.engine with
  | error error engine' =>
    unfold receiveBlock applyBlock at relayed
    rw [run] at relayed
    cases relayed
  | ok verdict engine' =>
    rw [receiveBlock_ok run] at relayed
    exact ⟨verdict, engine', rfl, relayed⟩

/-- A block that the engine holds already is not sent on. -/
theorem not_relayed_of_known {runtime : ConsensusRuntime DB} (delivery : Delivery)
    {location : KnownLocation}
    (known : runtime.engine.classifyBlock delivery.block = .known location) :
    (runtime.receiveBlock delivery).1 = false := by
  unfold receiveBlock applyBlock
  rw [onBlock, EngineM.get_bind_run]
  cases shape : verifyGenesisWorkShape delivery.block with
  | error error => rfl
  | ok _ =>
    dsimp only
    by_cases height : runtime.engine.validateHeight delivery.block = false
    · rw [if_pos height]
      rfl
    · rw [if_neg height, known]
      cases location with
      | canonicalChain => rfl
      | forkTree => rfl

/-- A block without a known parent that is sent on has passed the checks before classification. -/
theorem stray_of_relayed {runtime : ConsensusRuntime DB} {delivery : Delivery}
    {parent : BlockHash} (relayed : (runtime.receiveBlock delivery).1 = true)
    (orphan : runtime.engine.classifyBlock delivery.block = .orphan parent) :
    Stray runtime.engine delivery.block := by
  unfold receiveBlock applyBlock at relayed
  rw [onBlock, EngineM.get_bind_run] at relayed
  cases shape : verifyGenesisWorkShape delivery.block with
  | error error =>
    rw [shape] at relayed
    cases relayed
  | ok _ =>
    rw [shape] at relayed
    dsimp only at relayed
    by_cases height : runtime.engine.validateHeight delivery.block = false
    · rw [if_pos height] at relayed
      cases relayed
    · exact ⟨shape, Bool.not_eq_false _ ▸ height, parent, orphan⟩

end Receive

section Sound

variable [LawfulStorage DB] {engine engine' : StryiConsensusEngine DB} {g b : Block}
  {w p q bs : List Block} {nowSecs : UInt64} {verdict : ConsensusVerdict}

/-- A step that has a block sent on has checked and validated the block and holds it, unless the
parent of the block is unknown. -/
theorem Step.relayed (inv : Invariant g engine w) (step : Step engine nowSecs b verdict engine')
    {pool : MemPool} (sent : shouldRelay (outcomeOf pool verdict).1 = true)
    (placed : ∀ parent, engine.classifyBlock b ≠ .orphan parent) :
    Acceptable engine nowSecs b ∧ ∃ location, engine'.classifyBlock b = .known location := by
  rcases step.taken inv with ⟨-, idle⟩ | ⟨accepted, known⟩
  · cases idle with
    | rejected error => cases sent
    | included => cases sent
    | known => cases sent
    | orphan orphan => exact absurd orphan (placed _)
  · exact ⟨accepted, known⟩

theorem relaySound_iff {runtime : ConsensusRuntime DB} (inv : Invariant g runtime.engine w)
    (delivery : Delivery) :
    RelaySound runtime delivery ↔ ¬ Stray runtime.engine delivery.block := by
  constructor
  · intro sound stray
    have run := onBlock_stray stray delivery.nowSecs delivery.faults
    have validated := sound.validated (by rw [receiveBlock_ok run]; rfl)
    obtain ⟨-, -, parent, orphan⟩ := stray
    rw [Validated, orphan] at validated
    exact validated
  · intro placed
    have held : (runtime.receiveBlock delivery).1 = true →
        Acceptable runtime.engine delivery.nowSecs delivery.block ∧ ∃ location,
          (runtime.receiveBlock delivery).2.engine.classifyBlock delivery.block =
            .known location := by
      intro relayed
      obtain ⟨verdict, engine', run, sent⟩ := receiveBlock_relays relayed
      rw [receiveBlock_ok run]
      exact Step.relayed inv (onBlock_ok run) sent fun parent orphan =>
        placed (stray_of_relayed relayed orphan)
    refine ⟨fun relayed => (held relayed).1.2.2, fun relayed nowSecs faults => ?_⟩
    obtain ⟨-, location, known⟩ := held relayed
    exact not_relayed_of_known ⟨nowSecs, faults, delivery.block⟩ known

end Sound

section Run

variable [LawfulStorage DB] {DB' : Type} [FullNodeStorage DB'] [LawfulStorage DB']
  {engine : StryiConsensusEngine DB} {g : Block}
  {consensusConsts : ConsensusConsts} {blockValidator : BlockValidator}
  {chainMetadata : ChainMetadata}

/-- In every state that a node reaches over the network, the blocks that it sends on are validated
and sent on once, but for those whose parent it does not know. -/
theorem relay_sound_iff
    (launched : launch consensusConsts blockValidator g chainMetadata = .ok engine)
    (mempool : MemPool) (deliveries : List Delivery) (delivery : Delivery) :
    RelaySound (receiveAll ⟨engine, mempool⟩ deliveries) delivery ↔
      ¬ Stray (receiveAll ⟨engine, mempool⟩ deliveries).engine delivery.block := by
  obtain ⟨w, inv⟩ := (Invariant.launched launched).1.run deliveries
  apply relaySound_iff (g := g) (w := w)
  rw [receiveAll_engine]
  exact inv

/-- In a run of careful calls, a block that is sent on has an unknown parent or is valid above the
path to its parent, whatever backend holds the path, if what the block could detach is fresh. -/
theorem relayed_valid
    (launched : launch consensusConsts blockValidator g chainMetadata = .ok engine)
    (mempool : MemPool) {deliveries : List Delivery}
    (free : CollisionFree fun b => b ∈ deliveries.map Delivery.block)
    (careful : Along Careful engine deliveries) {delivery : Delivery}
    (fresh : ForksFresh (receiveAll ⟨engine, mempool⟩ deliveries).engine delivery.block)
    (relayed : ((receiveAll ⟨engine, mempool⟩ deliveries).receiveBlock delivery).1 = true) :
    Stray (receiveAll ⟨engine, mempool⟩ deliveries).engine delivery.block ∨
      ∃ path, ValidAbove DB' engine.blockValidator delivery.nowSecs delivery.block path := by
  have reached := receiveAll_engine ⟨engine, mempool⟩ deliveries
  obtain ⟨w, secure⟩ := (Secure.launched launched).reached free
    (fun delivery mem => List.mem_map_of_mem mem) careful
  by_cases stray : Stray (receiveAll ⟨engine, mempool⟩ deliveries).engine delivery.block
  · exact .inl stray
  · obtain ⟨verdict, engine', run, sent⟩ := receiveBlock_relays relayed
    have acceptable := (Step.relayed secure.toInvariant (reached ▸ onBlock_ok run) sent
      fun parent orphan => stray (stray_of_relayed relayed (reached ▸ orphan))).1
    rw [reached] at fresh
    obtain ⟨shape, height, valid⟩ := acceptable
    rw [← deliverAll_blockValidator engine deliveries]
    exact .inr (secure.validAbove shape height fresh valid)

end Run

end ConsensusRuntime

namespace Sample

/-- A block above one that is not delivered before it, and without its transactions. -/
def hollow : Block := { above other 3 [] with data := ⟨[]⟩ }

/-- No view makes it valid. -/
theorem hollow_invalid {S : Type} [BlockStorage S] [UtxoStorage S] (nowSecs : UInt64) (view : S) :
    validator.validate nowSecs hollow view ≠ .ok () := by
  intro valid
  simp only [BlockValidator.validate, bind_eq_ok] at valid
  obtain ⟨⟨⟩, -, ⟨⟩, composed, -⟩ := valid
  have fails : (validateBlockStructure hollow).toOption.isNone = true := by decide +kernel
  rw [composed] at fails
  cases fails

end Sample

open ConsensusRuntime Sample

/-- The relay of a block above genesis. -/
theorem ConsensusRuntime.relay_sound_iff_sample : ∃ engine, start = .ok engine ∧
    (RelaySound (receiveAll ⟨engine, MemPool.new poolConfig⟩ ([rival].map call)) (call other) ↔
      ¬ Stray (receiveAll ⟨engine, MemPool.new poolConfig⟩ ([rival].map call)).engine other) := by
  obtain ⟨engine, started⟩ := start_ok
  exact ⟨engine, started, relay_sound_iff started _ ([rival].map call) (call other)⟩

/-- A new node sends on a block that can not be valid anywhere, and does so each time. -/
theorem ConsensusRuntime.relays_hollow : ∃ engine, start = .ok engine ∧
    (∀ nowSecs, validator.validate nowSecs hollow engine.db ≠ .ok ()) ∧
    (receiveBlock ⟨engine, MemPool.new poolConfig⟩ (call hollow)).1 = true ∧
    ((receiveBlock ⟨engine, MemPool.new poolConfig⟩ (call hollow)).2.receiveBlock
      (call hollow)).1 = true ∧
    ¬ RelaySound ⟨engine, MemPool.new poolConfig⟩ (call hollow) := by
  have unknown : start.toOption.any (fun engine =>
      (verifyGenesisWorkShape hollow).toOption.isSome ∧ engine.validateHeight hollow = true ∧
        engine.classifyBlock hollow = .orphan other.blockHash) = true := by decide +kernel
  obtain ⟨engine, started, reads⟩ := exists_ok_of_any unknown
  rw [decide_eq_true_eq] at reads
  obtain ⟨shape, height, orphan⟩ := reads
  have stray : Stray engine hollow := by
    refine ⟨?_, height, _, orphan⟩
    cases shaped : verifyGenesisWorkShape hollow with
    | error error =>
      rw [shaped] at shape
      cases shape
    | ok _ => rfl
  have run := onBlock_stray stray (call hollow).nowSecs (call hollow).faults
  have received : receiveBlock ⟨engine, MemPool.new poolConfig⟩ (call hollow) =
      (true, ⟨engine, MemPool.new poolConfig⟩) := by
    rw [receiveBlock_ok run]
    rfl
  refine ⟨engine, started, fun nowSecs => hollow_invalid nowSecs _, ?_, ?_, ?_⟩
  · rw [received]
  · rw [received, received]
  · intro sound
    have resent := sound.once (by rw [received]) 1000 .none
    rw [received] at resent
    change (receiveBlock ⟨engine, MemPool.new poolConfig⟩ (call hollow)).1 = false at resent
    rw [received] at resent
    cases resent

end StryiChain
