import StryiChain.Chain.Locators
import StryiChain.Chain.Mentions
import StryiChain.Chain.Report
import StryiChain.Mempool.Indexes
import StryiChain.Node.Runtime

/-!
# The pool across chain transitions

After a committed transition the pool gives up the transactions that the attached blocks confirm,
and nothing else. A transaction that stays keeps its inputs as long as none of them is lost: by
another spend in an attached block, or with the detached block that had created it.
-/

namespace StryiChain

open LawfulStorage StryiConsensusEngine

section Coherence

variable [Primitives] [Floats]

/-- Another transaction of the pool creates the outpoint. -/
def MemPool.Supplies (pool : MemPool) (h : TransactionHash) (o : OutPoint) : Prop :=
  ∃ h' tx', h' ≠ h ∧ pool.find h' = some tx' ∧ o ∈ tx'.outpoints

/-- Every input of the pool is unspent or created by another transaction of the pool, and no
outpoint is spent twice. -/
structure MemPool.CoherentWith (pool : MemPool) (m : Coins) : Prop where
  resolved : ∀ h tx, pool.find h = some tx → ∀ o ∈ tx.spentOutpoints,
    m o ≠ none ∨ pool.Supplies h o
  distinct : ∀ h tx h' tx' o, pool.find h = some tx → pool.find h' = some tx' →
    o ∈ tx.spentOutpoints → o ∈ tx'.spentOutpoints → h = h'

/-- The pool holds the transaction, and none of the blocks confirms it. -/
def MemPool.Stays (pool : MemPool) (attached : List Block) (h : TransactionHash)
    (tx : Transaction) : Prop :=
  pool.find h = some tx ∧ h ∉ txidsOf attached

/-- No transaction that stays in the pool loses an input, unless another one that stays creates
the outpoint. -/
def MemPool.Unharmed (pool : MemPool) (m : Coins) (detached attached : List Block) : Prop :=
  ∀ h tx, pool.Stays attached h tx → ∀ o ∈ tx.spentOutpoints,
    ¬ Lost m detached attached o ∨
      ∃ h' tx', h' ≠ h ∧ pool.Stays attached h' tx' ∧ o ∈ tx'.outpoints

/-- The transition that a verdict reports. -/
def ConsensusVerdict.committed : ConsensusVerdict → Option CommittedTransition
  | .applied transition | .causedReorganization transition => some transition
  | _ => none

variable {DB : Type} [FullNodeStorage DB]

/-- The UTXO set that a storage answers from. -/
def storedUtxos (db : DB) : Coins := fun o => (getUtxo db o).toOption.join

/-- The canonical blocks that a transition detaches. -/
def detachedBlocks (db : DB) (transition : CommittedTransition) : List Block :=
  (canonicalBlocks db).filter fun b => b.point ∈ transition.detached

omit [FullNodeStorage DB] in
theorem publishTransition_eq (pool : MemPool) (transition : CommittedTransition) :
    publishTransition pool transition = pool.removeAll (txidsOf transition.attached) := by
  rw [publishTransition]
  generalize transition.attached = attached
  induction attached generalizing pool with
  | nil => rfl
  | cons b attached ih =>
    have split : txidsOf (b :: attached) = b.txids ++ txidsOf attached := List.flatMap_cons
    rw [List.foldl_cons, ih, MemPool.updateOnBlock_eq, split]
    exact (List.foldl_append ..).symm

theorem find_publishTransition {pool : MemPool} {transition : CommittedTransition}
    {h : TransactionHash} {tx : Transaction} :
    (publishTransition pool transition).find h = some tx ↔
      pool.Stays transition.attached h tx := by
  rw [publishTransition_eq, MemPool.find_removeAll, MemPool.Stays]
  by_cases confirmed : h ∈ txidsOf transition.attached
  · simp [confirmed]
  · simp [confirmed]

/-- The pool stays coherent exactly when it is unharmed. -/
theorem coherentWith_publish_iff {pool : MemPool} {m m' : Coins}
    {transition : CommittedTransition} {detached : List Block} (coherent : pool.CoherentWith m)
    (lost : ∀ o, m' o = none ↔ Lost m detached transition.attached o) :
    (publishTransition pool transition).CoherentWith m' ↔
      pool.Unharmed m detached transition.attached := by
  constructor
  · intro after h tx stays o input
    rcases after.resolved h tx (find_publishTransition.mpr stays) o input with present | supplied
    · exact .inl fun gone => present ((lost o).mpr gone)
    · obtain ⟨h', tx', other, held, output⟩ := supplied
      exact .inr ⟨h', tx', other, find_publishTransition.mp held, output⟩
  · intro unharmed
    refine ⟨fun h tx held o input => ?_, fun h tx h' tx' o held held' => ?_⟩
    · rcases unharmed h tx (find_publishTransition.mp held) o input with kept | supplied
      · exact .inl fun gone => kept ((lost o).mp gone)
      · obtain ⟨h', tx', other, stays, output⟩ := supplied
        exact .inr ⟨h', tx', other, find_publishTransition.mpr stays, output⟩
    · exact coherent.distinct h tx h' tx' o (find_publishTransition.mp held).1
        (find_publishTransition.mp held').1

end Coherence

section Transition

variable [Primitives] {DB : Type} [FullNodeStorage DB] [LawfulStorage DB]
  {engine engine' : StryiConsensusEngine DB} {g b : Block} {w p q bs : List Block}
  {nowSecs : UInt64} {verdict : ConsensusVerdict} {transition : CommittedTransition}

/-- A transition between two chains, with what it does to the UTXO set. -/
structure Transfers (engine engine' : StryiConsensusEngine DB) (transition : CommittedTransition)
    (p q : List Block) : Prop where
  split : canonicalBlocks engine.db = p ++ q
  ne : p ≠ []
  before : Admissible engine.blockValidator.consensusConsts (p ++ q)
  after : Admissible engine.blockValidator.consensusConsts (p ++ transition.attached)
  detached : transition.detached = (q.map Block.point).reverse
  chain : IsChain (p ++ q)
  utxos : storedUtxos engine'.db =
    Coins.applyAll transition.attached (Coins.unwind p q (storedUtxos engine.db))

theorem storedUtxos_eq {db : DB} (sound : Sound db) : storedUtxos db = (tables db).utxo := by
  funext o
  rw [storedUtxos, getUtxo_eq o sound]
  rfl

/-- A branch that replaces the top of the chain. -/
theorem Invariant.transfers_reorganized (inv : Invariant g engine w) {lca : BlockHash}
    (branch : Branch engine.blockValidator.consensusConsts w p q bs lca) (ne : bs ≠ [])
    (heavier : chainWork w < chainWork (p ++ bs))
    (reorganized : Reorganized engine lca bs verdict engine')
    (reported : verdict.committed = some transition) : Transfers engine engine' transition p q := by
  obtain ⟨inv', -, tables'⟩ := inv.reorganized branch ne heavier reorganized
  obtain ⟨lcaWork, works, delta, result, db, -, -, prepared, committed, rfl, -⟩ :=
    reorganized.done
  have canonical := inv.canonical
  rw [branch.split] at canonical
  have replacement := inv.replacement branch ne prepared
  obtain ⟨-, -, -, detached, -, -⟩ := reorganize_eq_ok replacement committed
  rw [ConsensusVerdict.committed, Option.some.injEq] at reported
  subst reported
  refine ⟨canonicalBlocks_eq canonical, branch.ne_nil, ?_, branch.admissible, detached,
    canonical.chain, ?_⟩
  · rw [← branch.split]
    exact inv.admissible
  · rw [storedUtxos_eq inv'.canonical.sound, storedUtxos_eq canonical.sound, tables']
    rfl

/-- Every step that reports a transition has made it. -/
theorem Step.transfers (inv : Invariant g engine w)
    (step : Step engine nowSecs b verdict engine')
    (reported : verdict.committed = some transition) :
    ∃ p q, Transfers engine engine' transition p q := by
  cases step with
  | rejected error => cases reported
  | included => cases reported
  | known => cases reported
  | orphan orphan => cases reported
  | forked shape height creates work view valid top light => cases reported
  | extended shape height extends' found view replayed valid top light => cases reported
  | applied shape height extends' valid top committed =>
    obtain ⟨inv', tables'⟩ := inv.applied extends' valid top committed
    have canonical := inv.canonical
    obtain ⟨-, -, -, -, rfl⟩ :=
      append_eq_ok canonical.sound canonical.chain canonical.represents committed
    cases reported
    refine ⟨w, [], ?_, canonical.chain.ne_nil, ?_, inv'.admissible, rfl, ?_, ?_⟩
    · rw [List.append_nil, canonicalBlocks_eq canonical]
    · rw [List.append_nil]
      exact inv.admissible
    · rw [List.append_nil]
      exact canonical.chain
    · rw [storedUtxos_eq inv'.canonical.sound, storedUtxos_eq canonical.sound, tables']
      rfl
  | replaced shape height creates work view valid top heavy reorganized =>
    obtain ⟨p, q, branch⟩ := inv.newBranch shape height creates view valid
    have heavier := inv.heavier_new branch work top heavy
    exact ⟨p, q, inv.transfers_reorganized branch (by simp) heavier reorganized reported⟩
  | @overtaken lca e rewound overlay tip verdict engine' shape height extends' found view replayed
      valid top heavy reorganized =>
    obtain ⟨p, q, branches, branch⟩ :=
      inv.longerBranch shape height extends' found view replayed valid
    have heavier := inv.heavier_longer branches top heavy
    have transfers := inv.transfers_reorganized branch (by simp) heavier reorganized reported
    exact ⟨p, q, transfers.split, transfers.ne, transfers.before, transfers.after,
      transfers.detached, transfers.chain, transfers.utxos⟩

omit [LawfulStorage DB] in
/-- The detached blocks are those above the common part. -/
theorem Transfers.detachedBlocks_eq (transfers : Transfers engine engine' transition p q) :
    detachedBlocks engine.db transition = q := by
  rw [detachedBlocks, transfers.split, List.filter_append, List.filter_eq_nil_iff.mpr,
    List.filter_eq_self.mpr, List.nil_append]
  · intro b mem
    rw [decide_eq_true_eq, transfers.detached, List.mem_reverse]
    exact List.mem_map_of_mem mem
  · intro b mem
    rw [decide_eq_true_eq, transfers.detached, List.mem_reverse]
    intro shared
    obtain ⟨b', mem', same⟩ := List.mem_map.mp shared
    have hash : b'.blockHash = b.blockHash := congrArg Prod.snd same
    have distinct := transfers.chain.distinct
    rw [List.map_append] at distinct
    exact (List.nodup_append.mp distinct).2.2 _ (List.mem_map_of_mem mem) _
      (List.mem_map_of_mem mem') hash.symm

end Transition

section Run

variable [Primitives] [Floats] {DB : Type} [FullNodeStorage DB] [LawfulStorage DB]
  {engine engine' : StryiConsensusEngine DB} {g : Block} {consensusConsts : ConsensusConsts}
  {blockValidator : BlockValidator} {chainMetadata : ChainMetadata}

/-- In every run, a pool that is coherent before a committed transition is coherent after it has
been published, exactly when no transaction that stays loses an input. -/
theorem pool_coherent_iff
    (launched : launch consensusConsts blockValidator g chainMetadata = .ok engine)
    (deliveries : List Delivery) (delivery : Delivery) {verdict : ConsensusVerdict}
    (run : onBlock delivery.nowSecs delivery.faults delivery.block (deliverAll engine deliveries) =
      .ok verdict engine')
    {transition : CommittedTransition} (committed : verdict.committed = some transition)
    {pool : MemPool}
    (coherent : pool.CoherentWith (storedUtxos (deliverAll engine deliveries).db)) :
    (publishTransition pool transition).CoherentWith (storedUtxos engine'.db) ↔
      pool.Unharmed (storedUtxos (deliverAll engine deliveries).db)
        (detachedBlocks (deliverAll engine deliveries).db transition) transition.attached := by
  obtain ⟨w, inv⟩ := (Invariant.launched launched).1.run deliveries
  obtain ⟨p, q, transfers⟩ := (onBlock_ok run).transfers inv committed
  apply coherentWith_publish_iff coherent
  intro o
  rw [transfers.utxos, transfers.detachedBlocks_eq]
  exact lost_iff transfers.before transfers.after transfers.ne

end Run

namespace Sample

/-- A pool that holds a payment of what genesis allocates. -/
def keeper : MemPool :=
  ((MemPool.new poolConfig).addTransaction (holding funds.utxos.toPairs) 0 earn).2

/-- A block that confirms another payment of the same output. -/
def elsewhere : Block := above genesis 1 [payment 7 earn.spentOutpoints [⟨900, ⟨5⟩⟩]]

theorem find_keeper {h : TransactionHash} {tx : Transaction} (held : keeper.find h = some tx) :
    h = earn.data.hash ∧ tx = earn := by
  have entries : keeper.storage.transactions.toPairs.map (fun e => (e.1, e.2.transaction)) =
      [(earn.data.hash, earn)] := by decide +kernel
  generalize keeper = pool at held entries
  obtain ⟨entry, read, rfl⟩ := Option.map_eq_some_iff.mp held
  have mem : (h, entry.transaction) ∈
      pool.storage.transactions.toPairs.map (fun e => (e.1, e.2.transaction)) :=
    List.mem_map.mpr ⟨(h, entry), Table.mem_toPairs.mpr read, rfl⟩
  rw [entries, List.mem_singleton] at mem
  exact Prod.mk.inj mem

theorem keeper_coherent {m : Coins} (present : ∀ o ∈ earn.spentOutpoints, m o ≠ none) :
    keeper.CoherentWith m := by
  refine ⟨fun h tx held o input => ?_, fun h tx h' tx' o held held' input input' => ?_⟩
  · obtain ⟨rfl, rfl⟩ := find_keeper held
    exact .inl (present o input)
  · rw [(find_keeper held).1, (find_keeper held').1]

/-- The block becomes the tip, and takes the output that the pool spends. -/
def takes (engine : StryiConsensusEngine RocksView) : Bool :=
  match onBlock 1000 .none elsewhere engine with
  | .ok (.applied transition) engine' =>
      decide (earn.data.hash ∉ txidsOf transition.attached) &&
      earn.spentOutpoints.all fun o =>
        (storedUtxos engine.db o).isSome && (storedUtxos engine'.db o).isNone
  | _ => false

theorem takes_ok : ∃ engine, start = .ok engine ∧ ∃ transition engine',
    onBlock 1000 .none elsewhere engine = .ok (.applied transition) engine' ∧
    earn.data.hash ∉ txidsOf transition.attached ∧
    ∀ o ∈ earn.spentOutpoints,
      storedUtxos engine.db o ≠ none ∧ storedUtxos engine'.db o = none := by
  have taken : start.toOption.any takes = true := by decide +kernel
  obtain ⟨engine, started, reads⟩ := exists_ok_of_any taken
  refine ⟨engine, started, ?_⟩
  unfold takes at reads
  split at reads
  · rename_i transition engine' run
    rw [Bool.and_eq_true, decide_eq_true_eq, List.all_eq_true] at reads
    refine ⟨transition, engine', run, reads.1, fun o input => ?_⟩
    have both := reads.2 o input
    rw [Bool.and_eq_true, Option.isSome_iff_ne_none, Option.isNone_iff_eq_none] at both
    exact both
  · cases reads

end Sample

open Sample in
/-- The pool keeps a payment of an output that a block has spent otherwise. -/
theorem pool_keeps_conflicting : ∃ engine, start = .ok engine ∧ ∃ transition engine',
    onBlock 1000 .none elsewhere engine = .ok (.applied transition) engine' ∧
    keeper.CoherentWith (storedUtxos engine.db) ∧
    ¬ (publishTransition keeper transition).CoherentWith (storedUtxos engine'.db) := by
  obtain ⟨engine, started, transition, engine', run, stays, taken⟩ := takes_ok
  refine ⟨engine, started, transition, engine', run,
    keeper_coherent fun o input => (taken o input).1, fun coherent => ?_⟩
  have held : keeper.find earn.data.hash = some earn := by decide +kernel
  obtain ⟨o, input⟩ : ∃ o, o ∈ earn.spentOutpoints := ⟨_, List.mem_cons_self⟩
  rcases coherent.resolved _ _ (find_publishTransition.mpr ⟨held, stays⟩) o input with
    present | ⟨h, tx, other, held', -⟩
  · exact present (taken o input).2
  · exact other (find_keeper (find_publishTransition.mp held').1).1

open Sample in
/-- The same transition, judged by the blocks it attaches. -/
theorem pool_coherent_iff_sample : ∃ engine, start = .ok engine ∧ ∃ transition engine',
    onBlock 1000 .none elsewhere engine = .ok (.applied transition) engine' ∧
    keeper.CoherentWith (storedUtxos engine.db) ∧
    ((publishTransition keeper transition).CoherentWith (storedUtxos engine'.db) ↔
      keeper.Unharmed (storedUtxos engine.db) (detachedBlocks engine.db transition)
        transition.attached) := by
  obtain ⟨engine, started, transition, engine', run, -, taken⟩ := takes_ok
  have coherent : keeper.CoherentWith (storedUtxos engine.db) :=
    keeper_coherent fun o input => (taken o input).1
  exact ⟨engine, started, transition, engine', run, coherent,
    pool_coherent_iff started [] (call elsewhere) run rfl coherent⟩

end StryiChain
