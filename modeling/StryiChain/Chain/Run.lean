import StryiChain.Chain.Preservation
import StryiChain.Storage.RocksLawful

/-!
# Runs of the engine

A run starts from a committed genesis and delivers blocks one after the other. A call that
returns an error leaves the engine as it was and the run goes on. The invariant holds in every
state of every run, whatever the blocks, the clock and the failures of the backend.
-/

namespace StryiChain

open LawfulStorage StryiConsensusEngine

/-- One call of `on_block`. -/
structure Delivery where
  nowSecs : UInt64
  faults : Faults
  block : Block

section Run

variable [Primitives] {DB : Type} [FullNodeStorage DB]

/-- The engine after a call. -/
def deliver (engine : StryiConsensusEngine DB) (delivery : Delivery) : StryiConsensusEngine DB :=
  match onBlock delivery.nowSecs delivery.faults delivery.block engine with
  | .ok _ engine => engine
  | .error _ engine => engine

/-- The engine after a list of calls. -/
def deliverAll (engine : StryiConsensusEngine DB) (deliveries : List Delivery) :
    StryiConsensusEngine DB :=
  deliveries.foldl deliver engine

/-- The engine of a node that commits genesis to an empty storage and starts. -/
def launch (consensusConsts : ConsensusConsts) (blockValidator : BlockValidator) (genesis : Block)
    (chainMetadata : ChainMetadata) : Except StryiCoreError (StryiConsensusEngine DB) := do
  let (_, db) ← (commitTransition (StorageWrite.initial : DB)
    (.genesis genesis chainMetadata)).mapError (.storageError .other)
  StryiConsensusEngine.new consensusConsts blockValidator db

/-- A condition on every call of a run and the state before it. -/
def Along (condition : StryiConsensusEngine DB → Delivery → Prop) :
    StryiConsensusEngine DB → List Delivery → Prop
  | _, [] => True
  | engine, delivery :: deliveries =>
      condition engine delivery ∧ Along condition (deliver engine delivery) deliveries

/-- The blocks from height zero to the tip, as they are read from storage. -/
def canonicalBlocks (db : DB) : List Block :=
  match chainState db with
  | .ok (some state) => (List.range (state.latestBlock.1.toNat + 1)).filterMap fun height =>
      (getBlockByHeight db (UInt64.ofNat height)).toOption.join
  | _ => []

end Run

section Along

variable [Primitives] {DB : Type} [FullNodeStorage DB]
  {condition : StryiConsensusEngine DB → Delivery → Prop}
  {engine : StryiConsensusEngine DB} {deliveries : List Delivery}

theorem deliverAll_append (engine : StryiConsensusEngine DB) (l l' : List Delivery) :
    deliverAll engine (l ++ l') = deliverAll (deliverAll engine l) l' :=
  List.foldl_append

/-- A run in two parts. -/
theorem Along.append {l l' : List Delivery} : Along condition engine (l ++ l') ↔
    Along condition engine l ∧ Along condition (deliverAll engine l) l' := by
  induction l generalizing engine with
  | nil => exact (true_and _).symm.to_iff
  | cons delivery l ih => exact (and_congr_right fun _ => ih).trans and_assoc.symm

end Along

section Invariant

variable [Primitives] {DB : Type} [FullNodeStorage DB] [LawfulStorage DB]
  {engine : StryiConsensusEngine DB} {consensusConsts : ConsensusConsts}
  {blockValidator : BlockValidator} {g : Block} {chainMetadata : ChainMetadata} {w : List Block}

/-- What is read from height zero to the tip is the chain. -/
theorem canonicalBlocks_of_represents {db : DB} (sound : Sound db) (chain : IsChain w)
    (represents : Represents (tables db) w) : canonicalBlocks db = w := by
  obtain ⟨state, hstate⟩ := exists_stateOf chain
  obtain ⟨tip, last, latest, -, -⟩ := stateOf_eq_some hstate
  have top := chain.tip_height last
  have fits := represents.fits
  have read : ∀ height ∈ List.range w.length,
      (getBlockByHeight db (UInt64.ofNat height)).toOption.join = w[height]? := by
    intro height inside
    rw [List.mem_range] at inside
    have at_height : w[height]? = some w[height] := List.getElem?_eq_getElem inside
    have number : w[height].header.height = UInt64.ofNat height := by
      have position := chain.height at_height
      rw [← UInt64.toNat_inj, position, toNat_ofNat_u64 (by omega)]
    have found := represents.holds.get_height chain at_height
    rw [number] at found
    rw [getBlockByHeight_some sound found
      (represents.holds.body _ (List.mem_of_getElem? at_height)) number, at_height]
    rfl
  rw [canonicalBlocks, chainState_eq sound, represents.state, hstate]
  dsimp only
  rw [latest, top, List.filterMap_congr read]
  exact filterMap_range_getElem? w

theorem canonicalBlocks_eq {index : ChainIndex} {db : DB} (canonical : Canonical index db w) :
    canonicalBlocks db = w :=
  canonicalBlocks_of_represents canonical.sound canonical.chain canonical.represents

/-- The invariant holds when the engine starts. -/
theorem Invariant.launched
    (launched : launch consensusConsts blockValidator g chainMetadata = .ok engine) :
    Invariant g engine [g] ∧ engine.blockValidator = blockValidator ∧
      tables engine.db = Tables.genesis g chainMetadata := by
  simp only [launch, StryiConsensusEngine.new, bind_eq_ok, mapError_eq_ok, pure_eq_ok,
    Prod.exists] at launched
  obtain ⟨result, db, committed, index, built, rfl⟩ := launched
  obtain ⟨genesis, sound, tables'⟩ := genesis_eq_ok committed
  have represents := genesis.represents chainMetadata
  rw [← tables'] at represents
  obtain ⟨index', built', indexOf⟩ := buildChainIndex_ok sound genesis.isChain represents
  rw [built', Except.ok.injEq] at built
  subst built
  refine ⟨⟨⟨sound, genesis.isChain, represents, indexOf, ⟨genesis.applicable _, trivial⟩, ?_⟩,
    genesis, ⟨[], rfl⟩, Admissible.singleton g, RegistryOk.empty⟩, rfl, tables'⟩
  rw [tables']
  exact Submap.refl _

/-- A call either changes nothing or is a step. -/
theorem Invariant.deliver (inv : Invariant g engine w) (delivery : Delivery) :
    ∃ w', Invariant g (deliver engine delivery) w' ∧
      Moves engine delivery.nowSecs delivery.block w (deliver engine delivery) w' := by
  unfold StryiChain.deliver
  cases run : onBlock delivery.nowSecs delivery.faults delivery.block engine with
  | ok verdict engine' => exact inv.step (onBlock_ok run)
  | error error engine' =>
    obtain rfl := onBlock_error run
    exact ⟨w, inv, .stays rfl⟩

omit [LawfulStorage DB] in
/-- The rules never change. -/
theorem deliver_blockValidator (engine : StryiConsensusEngine DB) (delivery : Delivery) :
    (StryiChain.deliver engine delivery).blockValidator = engine.blockValidator := by
  unfold StryiChain.deliver
  cases run : onBlock delivery.nowSecs delivery.faults delivery.block engine with
  | ok verdict engine' =>
    cases onBlock_ok run with
    | replaced shape height creates work view valid top heavy reorganized =>
      obtain ⟨-, -, -, -, -, -, -, -, -, -, rfl⟩ := reorganized.done
      rfl
    | overtaken shape height extends' found view replayed valid top heavy reorganized =>
      obtain ⟨-, -, -, -, -, -, -, -, -, -, rfl⟩ := reorganized.done
      rfl
    | _ => rfl
  | error error engine' =>
    rw [onBlock_error run]

omit [LawfulStorage DB] in
theorem deliverAll_blockValidator (engine : StryiConsensusEngine DB) (deliveries : List Delivery) :
    (deliverAll engine deliveries).blockValidator = engine.blockValidator := by
  induction deliveries generalizing engine with
  | nil => rfl
  | cons delivery deliveries ih => exact (ih _).trans (deliver_blockValidator engine delivery)

/-- The invariant holds along every run. -/
theorem Invariant.run (inv : Invariant g engine w) (deliveries : List Delivery) :
    ∃ w', Invariant g (deliverAll engine deliveries) w' := by
  induction deliveries generalizing engine w with
  | nil => exact ⟨w, inv⟩
  | cons delivery deliveries ih =>
    obtain ⟨w', inv', -⟩ := inv.deliver delivery
    exact ih inv'

end Invariant

/-! ### A small run -/

namespace Sample

/-- The rules of the sample as the engine checks them. -/
def validator : BlockValidator := ⟨consts, ⟨consts.pow, rfl⟩⟩

/-- An engine over a new database. -/
def start : Except StryiCoreError (StryiConsensusEngine RocksView) :=
  launch consts validator genesis ⟨2, "sample", 1, 0⟩

theorem start_ok : ∃ engine, start = .ok engine := by
  have started : start.toOption.any (fun _ => true) = true := by decide +kernel
  obtain ⟨engine, ok, -⟩ := exists_ok_of_any started
  exact ⟨engine, ok⟩

/-- A delivery without failures at time 1000. -/
def call (block : Block) : Delivery := ⟨1000, .none, block⟩

/-- Two rival blocks above genesis, and a block above the second. -/
def rival : Block := above genesis 1 []

def other : Block := above genesis 2 []

def next : Block := above other 3 []

/-- The chains that the calls of a run with these blocks start from. -/
theorem run_chains : ∃ engine, start = .ok engine ∧ canonicalBlocks engine.db = [genesis] ∧
    canonicalBlocks (deliver engine (call rival)).db = [genesis, rival] ∧
    canonicalBlocks (deliver (deliver engine (call rival)) (call other)).db =
      [genesis, rival] := by
  have reads : start.toOption.any (fun engine =>
      canonicalBlocks engine.db = [genesis] ∧
      canonicalBlocks (deliver engine (call rival)).db = [genesis, rival] ∧
      canonicalBlocks (deliver (deliver engine (call rival)) (call other)).db =
        [genesis, rival]) = true := by decide +kernel
  obtain ⟨engine, started, chains⟩ := exists_ok_of_any reads
  rw [decide_eq_true_eq] at chains
  exact ⟨engine, started, chains⟩

end Sample

section Restart

variable [Primitives] {DB : Type} [FullNodeStorage DB] [LawfulStorage DB]
  {engine : StryiConsensusEngine DB} {consensusConsts : ConsensusConsts}
  {blockValidator : BlockValidator} {g : Block} {chainMetadata : ChainMetadata} {w : List Block}

/-- In every state of every run a restart rebuilds the live index, and its tip is the one that the
chain state names. -/
theorem restart_equivalence
    (launched : launch consensusConsts blockValidator g chainMetadata = .ok engine)
    (deliveries : List Delivery) :
    ∃ rebuilt tip state, buildChainIndex (deliverAll engine deliveries).db = .ok rebuilt ∧
      rebuilt.entries.read = (deliverAll engine deliveries).chainIndex.entries.read ∧
      rebuilt.tip = (deliverAll engine deliveries).chainIndex.tip ∧
      (deliverAll engine deliveries).chainIndex.tip = some tip ∧
      chainState (deliverAll engine deliveries).db = .ok (some state) ∧
      state.latestBlock = (tip.height, tip.hash) ∧ state.chainWork = tip.work := by
  obtain ⟨w, inv⟩ := (Invariant.launched launched).1.run deliveries
  obtain ⟨sound, chain, represents, indexOf, -, -⟩ := inv.canonical
  obtain ⟨rebuilt, built, indexOf'⟩ := buildChainIndex_ok sound chain represents
  obtain ⟨entries, tip⟩ := indexOf'.unique indexOf
  obtain ⟨state, hstate⟩ := exists_stateOf chain
  obtain ⟨top, last, latest, -, work⟩ := stateOf_eq_some hstate
  refine ⟨rebuilt, ⟨top.header.height, top.blockHash, chainWork w⟩, state, built, entries, tip, ?_,
    ?_, latest, work⟩
  · rw [indexOf.tip, tipOf, last]
    rfl
  · rw [chainState_eq sound, represents.state, hstate]

end Restart

open Sample in
/-- A restart after a reorganization. -/
theorem restart_equivalence_sample : ∃ engine, start = .ok engine ∧
    ∃ rebuilt tip state,
      buildChainIndex (deliverAll engine ([rival, other, next].map call)).db = .ok rebuilt ∧
      rebuilt.entries.read =
        (deliverAll engine ([rival, other, next].map call)).chainIndex.entries.read ∧
      rebuilt.tip = (deliverAll engine ([rival, other, next].map call)).chainIndex.tip ∧
      (deliverAll engine ([rival, other, next].map call)).chainIndex.tip = some tip ∧
      chainState (deliverAll engine ([rival, other, next].map call)).db = .ok (some state) ∧
      state.latestBlock = (tip.height, tip.hash) ∧ state.chainWork = tip.work := by
  obtain ⟨engine, started⟩ := start_ok
  exact ⟨engine, started, restart_equivalence started ([rival, other, next].map call)⟩

section Registry

variable [Primitives] {DB : Type} [FullNodeStorage DB]

/-- Blocks that stand above each other and above a block with the given hash and height. -/
def Stacked : BlockHash → Nat → List Block → Prop
  | _, _, [] => True
  | hash, height, b :: bs => b.header.previousBlockHash = hash ∧
      b.header.height.toNat = height + 1 ∧ Stacked b.blockHash (height + 1) bs

/-- An entry of the registry that is in order with respect to the canonical index. -/
structure EntryInOrder (index : ChainIndex) (key : BlockHash) (e : ForkEntry) : Prop where
  keyed : e.tip = key
  tip : ∃ last, e.blocks.getLast? = some last ∧ last.blockHash = e.tip
  ancestor : ∃ data, index.entries.read e.commonAncestor = some data ∧
    Stacked e.commonAncestor data.height.toNat e.blocks ∧
    e.cumulativeWork = data.work + chainWork e.blocks
  apart : ∀ b ∈ e.blocks, index.has b.blockHash = false
  lighter : ∃ tip, index.tip = some tip ∧ e.cumulativeWork ≤ tip.work

/-- Every entry is in order, and no block is in two of them. -/
structure RegistryInOrder (engine : StryiConsensusEngine DB) : Prop where
  entry : ∀ key e, engine.forks.read key = some e → EntryInOrder engine.chainIndex key e
  disjoint : ∀ key key' e e', engine.forks.read key = some e → engine.forks.read key' = some e' →
    key ≠ key' → ∀ b ∈ e.blocks, ∀ b' ∈ e'.blocks, b.blockHash ≠ b'.blockHash

/-- The upper part of a chain is stacked on the lower part. -/
theorem IsChain.stacked {p bs : List Block} {a : Block} (chain : IsChain (p ++ bs))
    (last : p.getLast? = some a) : Stacked a.blockHash a.header.height.toNat bs := by
  induction bs generalizing p a with
  | nil => trivial
  | cons b bs ih =>
    have ne : p ≠ [] := by
      rintro rfl
      simp at last
    obtain ⟨a', last', linked, height⟩ := chain.below ne
    rw [last, Option.some.injEq] at last'
    subst last'
    rw [List.append_cons] at chain
    refine ⟨linked, height.symm, ?_⟩
    rw [height]
    exact ih chain (by simp)

variable [LawfulStorage DB] {engine : StryiConsensusEngine DB} {consensusConsts : ConsensusConsts}
  {blockValidator : BlockValidator} {g : Block} {chainMetadata : ChainMetadata} {w : List Block}

theorem Invariant.registryInOrder (inv : Invariant g engine w) : RegistryInOrder engine := by
  have indexOf := inv.canonical.indexOf
  refine ⟨fun key e found => ?_, fun key key' e e' found found' differ b mem b' mem' same =>
    differ (inv.registry.disjoint found found' mem mem' same)⟩
  obtain ⟨keyed, p, q, branches⟩ := inv.registry.entry found
  obtain ⟨a, last, hash⟩ := Option.map_eq_some_iff.mp branches.ancestor
  obtain ⟨top, htop, tip⟩ := Option.map_eq_some_iff.mp branches.tip
  refine ⟨keyed, ⟨top, htop, tip⟩, ?_, fun b mem => ?_, ?_⟩
  · have here := indexOf
    rw [branches.split] at here
    refine ⟨_, by rw [← hash]; exact here.entry (getElem?_append_last last), ?_, ?_⟩
    · rw [← hash]
      exact branches.chain.stacked last
    · have pos := List.length_pos_iff.mpr branches.ne_nil
      rw [branches.work, chainWork_append, entryAt, show p.length - 1 + 1 = p.length by omega,
        List.take_left]
  · rw [← Bool.not_eq_true]
    exact fun has => branches.apart b mem (indexOf.has_iff.mp has)
  · obtain ⟨head, hhead⟩ : ∃ head, w.getLast? = some head := by
      rw [← Option.isSome_iff_exists, List.getLast?_isSome]
      exact inv.canonical.chain.ne_nil
    refine ⟨⟨head.header.height, head.blockHash, chainWork w⟩, ?_, branches.lighter⟩
    rw [indexOf.tip, tipOf, hhead]
    rfl

/-- The registry is in order in every state of every run, and every further call keeps it so. -/
theorem registry_inOrder
    (launched : launch consensusConsts blockValidator g chainMetadata = .ok engine)
    (deliveries : List Delivery) :
    RegistryInOrder (deliverAll engine deliveries) ∧
      ∀ delivery, RegistryInOrder (deliver (deliverAll engine deliveries) delivery) := by
  obtain ⟨w, inv⟩ := (Invariant.launched launched).1.run deliveries
  refine ⟨inv.registryInOrder, fun delivery => ?_⟩
  obtain ⟨w', inv', -⟩ := inv.deliver delivery
  exact inv'.registryInOrder

end Registry

open Sample in
/-- The registry while it holds a branch, and after that branch has become canonical. -/
theorem registry_inOrder_sample : ∃ engine, start = .ok engine ∧
    RegistryInOrder (deliverAll engine ([rival, other].map call)) ∧
    ∀ delivery, RegistryInOrder (deliver (deliverAll engine ([rival, other].map call)) delivery) := by
  obtain ⟨engine, started⟩ := start_ok
  exact ⟨engine, started, registry_inOrder started ([rival, other].map call)⟩

section Supply

variable [Primitives] {DB : Type} [FullNodeStorage DB]

/-- The value that storage holds at an outpoint. -/
def storedValue (db : DB) (o : OutPoint) : Nat :=
  match getUtxo db o with
  | .ok (some utxo) => utxo.value.toNat
  | _ => 0

variable [LawfulStorage DB] {engine : StryiConsensusEngine DB} {consensusConsts : ConsensusConsts}
  {blockValidator : BlockValidator} {g : Block} {chainMetadata : ChainMetadata} {w : List Block}

/-- In every state of every run the stored outputs are worth at most the allocations of genesis
and the subsidies of the heights up to the tip. -/
theorem bounded_supply
    (launched : launch consensusConsts blockValidator g chainMetadata = .ok engine)
    (deliveries : List Delivery) :
    ∃ (entries : Finset OutPoint) (tip : TipInfo),
      (deliverAll engine deliveries).chainIndex.tip = some tip ∧
      (∀ o, o ∈ entries ↔ ∃ utxo, getUtxo (deliverAll engine deliveries).db o = .ok (some utxo)) ∧
      ∑ o ∈ entries, storedValue (deliverAll engine deliveries).db o ≤
        allocations g + ∑ h ∈ Finset.Icc 1 tip.height.toNat,
          (blockValidator.consensusConsts.blockSubsidy (UInt64.ofNat h)).toNat := by
  obtain ⟨start, validator, -⟩ := Invariant.launched launched
  obtain ⟨w, inv⟩ := start.run deliveries
  have rules : (deliverAll engine deliveries).blockValidator = blockValidator :=
    (deliverAll_blockValidator engine deliveries).trans validator
  generalize deliverAll engine deliveries = reached at inv rules
  obtain ⟨sound, chain, -, indexOf, -, below⟩ := inv.canonical
  obtain ⟨rest, rfl⟩ := inv.first
  obtain ⟨top, last⟩ : ∃ top, (g :: rest).getLast? = some top := by
    rw [← Option.isSome_iff_exists, List.getLast?_isSome]
    exact chain.ne_nil
  have height := chain.tip_height last
  rw [List.length_cons, Nat.add_right_cancel_iff] at height
  have finite := below.finite (Coins.finite_ledger (g :: rest))
  refine ⟨finite.toFinset, ⟨top.header.height, top.blockHash, chainWork (g :: rest)⟩, ?_,
    fun o => ?_, ?_⟩
  · rw [indexOf.tip, tipOf, last]
    rfl
  · simp [getUtxo_eq o sound, Option.ne_none_iff_exists']
  · have stored : ∀ o, storedValue reached.db o ≤ (Coins.ledger (g :: rest)).worth o := by
      intro o
      refine Nat.le_trans (Nat.le_of_eq ?_) (below.valueAt_le (fun u => u.value.toNat) o)
      rw [storedValue, getUtxo_eq o sound, valueAt]
      cases (tables reached.db).utxo o <;> rfl
    have cap := inv.admissible.supply inv.genesis chain finite.toFinset
    rw [rules, supplyCap] at cap
    rw [height]
    exact (Finset.sum_le_sum fun o _ => stored o).trans cap

end Supply

open Sample in
/-- The supply after a reorganization. -/
theorem bounded_supply_sample : ∃ engine, start = .ok engine ∧
    ∃ (entries : Finset OutPoint) (tip : TipInfo),
      (deliverAll engine ([rival, other, next].map call)).chainIndex.tip = some tip ∧
      (∀ o, o ∈ entries ↔
        ∃ utxo, getUtxo (deliverAll engine ([rival, other, next].map call)).db o =
          .ok (some utxo)) ∧
      ∑ o ∈ entries, storedValue (deliverAll engine ([rival, other, next].map call)).db o ≤
        allocations genesis + ∑ h ∈ Finset.Icc 1 tip.height.toNat,
          (validator.consensusConsts.blockSubsidy (UInt64.ofNat h)).toNat := by
  obtain ⟨engine, started⟩ := start_ok
  exact ⟨engine, started, bounded_supply started ([rival, other, next].map call)⟩

end StryiChain
