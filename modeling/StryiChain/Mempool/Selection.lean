import StryiChain.Consensus.Sequential
import StryiChain.Mempool.Admission
import StryiChain.Mempool.Tracker

/-!
# Selection for a block

The miner puts the best transactions of the pool behind its coinbase. Whatever the ranking is,
the selection lists pool transactions without repetition, and all of them once the limit allows.
A block of such a list is acceptable for every limit exactly when the whole pool is.
-/

namespace StryiChain

open Relation

namespace DependencyTracker

variable [Primitives] {tracker : DependencyTracker} {h h' : TransactionHash}

theorem Consistent.nodup_hashes (consistent : tracker.Consistent) {nodes : List Nat}
    (distinct : nodes.Nodup) : (tracker.hashes nodes).Nodup := by
  refine distinct.filterMap fun i j h first second => ?_
  exact consistent.wellFormed.index_eq first second

theorem mem_incoming {i j : Nat} :
    i ∈ tracker.edgesDirected .incoming j ↔ (i, j) ∈ tracker.graph.edges := by
  simp [edgesDirected]

/-- The package of a transaction: the transaction and its ancestors. -/
theorem Consistent.mem_getWithAncestors (consistent : tracker.Consistent) :
    h' ∈ tracker.getWithAncestors h ↔
      h ∈ tracker.graph.nodes ∧ ReflTransGen tracker.graph.Arrow h' h := by
  unfold getWithAncestors
  cases found : tracker.indices.read h with
  | none =>
    simp only [List.not_mem_nil, consistent.tracked_iff, found, reduceCtorEq, exists_false,
      false_and]
  | some start =>
    have wf := consistent.wellFormed
    have weight := (consistent.indices h start).mp found
    have bound := DiGraph.mem_range_of_nodeWeight weight
    have collected : ∀ i, i ∈ tracker.gatherWithAncestors start ↔
        ReflTransGen (fun i j => (i, j) ∈ tracker.graph.edges) i start := by
      intro i
      refine (mem_gather (edgesDirected_closed wf .incoming) bound i).trans ?_
      simp only [mem_incoming]
      exact reflTransGen_swap
    dsimp only
    rw [mem_hashes]
    constructor
    · rintro ⟨i, mem, source⟩
      exact ⟨List.mem_of_getElem? weight,
        (wf.reflPath_iff source weight).mpr ((collected i).mp mem)⟩
    · rintro ⟨-, path⟩
      obtain ⟨i, source⟩ : ∃ i, tracker.graph.nodeWeight i = some h' := by
        rcases ReflTransGen.cases_head path with rfl | ⟨_, arrow, -⟩
        · exact ⟨start, weight⟩
        · exact List.mem_iff_getElem?.mp arrow.source
      exact ⟨i, (collected i).mpr ((wf.reflPath_iff source weight).mp path), source⟩

/-- Each member of a package is listed once. -/
theorem Consistent.getWithAncestors_spec (consistent : tracker.Consistent)
    (here : h ∈ tracker.graph.nodes) :
    h ∈ tracker.getWithAncestors h ∧ (tracker.getWithAncestors h).Nodup ∧
      ∀ h' ∈ tracker.getWithAncestors h, h' ∈ tracker.graph.nodes := by
  refine ⟨consistent.mem_getWithAncestors.mpr ⟨here, .refl⟩, ?_, fun h' mem => ?_⟩
  · obtain ⟨start, found⟩ := consistent.tracked_iff.mp here
    have weight := (consistent.indices h start).mp found
    have bound := DiGraph.mem_range_of_nodeWeight weight
    unfold getWithAncestors
    rw [found]
    exact consistent.nodup_hashes
      (gather_inv (edgesDirected_closed consistent.wellFormed .incoming) bound).distinct
  · obtain ⟨-, path⟩ := consistent.mem_getWithAncestors.mp mem
    rcases ReflTransGen.cases_head path with rfl | ⟨_, arrow, -⟩
    · exact here
    · exact arrow.source

/-- Every tracked transaction is listed once. -/
theorem Consistent.topologicalOrder_perm (consistent : tracker.Consistent) :
    tracker.topologicalOrder.Perm tracker.graph.nodes := by
  have closed := edgesDirected_closed consistent.wellFormed .outgoing
  have order := dfsAll_perm closed List.nodup_range
    (List.range tracker.graph.nodes.length).length
  have all : tracker.hashes (List.range tracker.graph.nodes.length) = tracker.graph.nodes :=
    filterMap_range_getElem? tracker.graph.nodes
  rw [← all]
  exact ((List.reverse_perm _).trans order).filterMap _

end DependencyTracker

namespace MemPool

variable [Primitives] [Floats] {pool : MemPool} {h : TransactionHash} {tx : Transaction}

section Select

/-- What the selection has chosen: hashes of pool transactions, each once, and the transactions
under them in the order of the choice. -/
structure Chosen (pool : MemPool) (selection : Selection) : Prop where
  distinct : selection.selected.Nodup
  held : ∀ h ∈ selection.selected, pool.find h ≠ none
  listed : selection.result = selection.selected.reverse.filterMap pool.find

theorem chosen_start : pool.Chosen ⟨[], []⟩ := ⟨List.nodup_nil, by simp, by simp⟩

theorem Chosen.length_eq {selection : Selection} (chosen : pool.Chosen selection) :
    selection.result.length = selection.selected.length := by
  have size : ∀ l : List TransactionHash, (∀ h ∈ l, pool.find h ≠ none) →
      (l.filterMap pool.find).length = l.length := by
    intro l
    induction l with
    | nil => simp
    | cons h l ih =>
      intro held
      obtain ⟨tx, found⟩ := Option.ne_none_iff_exists'.mp (held h List.mem_cons_self)
      rw [List.filterMap_cons_some found, List.length_cons, List.length_cons,
        ih fun h' mem => held h' (List.mem_cons_of_mem _ mem)]
  rw [chosen.listed, size _ (by simpa using chosen.held), List.length_reverse]

/-- One transaction of a package. -/
theorem Chosen.select {selection : Selection} (chosen : pool.Chosen selection)
    (held : pool.find h ≠ none) :
    pool.Chosen (pool.select selection h) ∧
      ∀ h', h' ∈ (pool.select selection h).selected ↔ h' ∈ selection.selected ∨ h' = h := by
  unfold MemPool.select
  split
  · rename_i old
    refine ⟨chosen, fun h' => ⟨.inl, ?_⟩⟩
    rintro (mem | rfl)
    · exact mem
    · exact old
  · rename_i new
    obtain ⟨tx, found⟩ := Option.ne_none_iff_exists'.mp held
    cases stored : pool.storage.get h with
    | none =>
      simp [find, TransactionStorage.find, stored] at found
    | some entry =>
      refine ⟨⟨List.nodup_cons.mpr ⟨new, chosen.distinct⟩, ?_, ?_⟩, fun h' => ?_⟩
      · intro h' mem
        rcases List.mem_cons.mp mem with rfl | mem
        · exact held
        · exact chosen.held h' mem
      · have here : pool.find h = some entry.transaction := by
          simp [find, TransactionStorage.find, stored]
        simp [chosen.listed, here]
      · rw [List.mem_cons, or_comm]

/-- A whole package. -/
theorem Chosen.package (package : List TransactionHash) {selection : Selection}
    (chosen : pool.Chosen selection) (held : ∀ h ∈ package, pool.find h ≠ none) :
    pool.Chosen (package.foldl pool.select selection) ∧
      ∀ h', h' ∈ (package.foldl pool.select selection).selected ↔
        h' ∈ selection.selected ∨ h' ∈ package := by
  induction package generalizing selection with
  | nil => exact ⟨chosen, by simp⟩
  | cons h package ih =>
    obtain ⟨one, mem⟩ := chosen.select (held h List.mem_cons_self)
    obtain ⟨rest, mem'⟩ := ih one fun h' here => held h' (List.mem_cons_of_mem _ here)
    refine ⟨rest, fun h' => ?_⟩
    rw [List.foldl_cons, mem', mem, List.mem_cons, or_assoc]

/-- The loop over the packages chooses pool transactions; if the limit is the size of the pool,
it leaves none of those that it considers. -/
theorem selectPackages_chosen (tracked : pool.Tracked) (limit : Nat)
    {ranked : List TransactionHash} (inside : ∀ h ∈ ranked, pool.find h ≠ none)
    {selection : Selection} (chosen : pool.Chosen selection) :
    ∃ final, pool.Chosen final ∧ pool.selectPackages limit ranked selection = final.result ∧
      (limit = pool.dependencyTracker.graph.nodes.length →
        ∀ h, h ∈ selection.selected ∨ h ∈ ranked → h ∈ final.selected) := by
  induction ranked generalizing selection with
  | nil => exact ⟨selection, chosen, rfl, fun _ h mem => mem.resolve_right List.not_mem_nil⟩
  | cons txHash ranked ih =>
    have later : ∀ h ∈ ranked, pool.find h ≠ none :=
      fun h mem => inside h (List.mem_cons_of_mem _ mem)
    have here := (tracked.nodes txHash).mpr (inside txHash List.mem_cons_self)
    rw [selectPackages]
    split
    · rename_i old
      obtain ⟨final, done, result, all⟩ := ih later chosen
      refine ⟨final, done, result, fun full h mem => all full h ?_⟩
      rcases mem with mem | mem
      · exact .inl mem
      · rcases List.mem_cons.mp mem with rfl | mem
        · exact .inl old
        · exact .inr mem
    · obtain ⟨own, distinct, nodes⟩ := tracked.consistent.getWithAncestors_spec here
      have held : ∀ h ∈ (pool.dependencyTracker.getWithAncestors txHash).filter
          (fun hash => hash ∉ selection.selected), pool.find h ≠ none :=
        fun h mem => (tracked.nodes h).mp (nodes h (List.mem_filter.mp mem).1)
      obtain ⟨more, mem'⟩ := chosen.package _ held
      have taken : txHash ∈ (((pool.dependencyTracker.getWithAncestors txHash).filter
          fun hash => hash ∉ selection.selected).foldl pool.select selection).selected := by
        rw [mem', List.mem_filter]
        by_cases old : txHash ∈ selection.selected
        · exact .inl old
        · exact .inr ⟨own, by simpa using old⟩
      dsimp only
      split
      · rename_i tooLarge
        -- the package and what is selected are different nodes, so this is not the full limit
        have room : (selection.selected ++ (pool.dependencyTracker.getWithAncestors txHash).filter
            fun hash => hash ∉ selection.selected).length ≤
              pool.dependencyTracker.graph.nodes.length := by
          refine (List.subperm_of_subset ?_ ?_).length_le
          · refine List.nodup_append.mpr ⟨chosen.distinct, distinct.filter _, ?_⟩
            rintro a old _ new rfl
            have := (List.mem_filter.mp new).2
            simp only [decide_eq_true_eq] at this
            exact this old
          · intro a mem
            rcases List.mem_append.mp mem with old | new
            · exact (tracked.nodes a).mpr (chosen.held a old)
            · exact nodes a (List.mem_filter.mp new).1
        rw [List.length_append, ← chosen.length_eq] at room
        obtain ⟨final, done, result, -⟩ := ih later chosen
        exact ⟨final, done, result, fun full => by omega⟩
      · split
        · rename_i reached
          refine ⟨_, more, rfl, fun full h mem => ?_⟩
          have size := more.length_eq
          rw [reached, full] at size
          have sub : (((pool.dependencyTracker.getWithAncestors txHash).filter
              fun hash => hash ∉ selection.selected).foldl pool.select selection).selected.Subperm
              pool.dependencyTracker.graph.nodes :=
            List.subperm_of_subset more.distinct fun a mem =>
              (tracked.nodes a).mpr (more.held a mem)
          have all := (sub.perm_of_length_le size.le).mem_iff (a := h)
          rw [all, tracked.nodes]
          rcases mem with mem | mem
          · exact chosen.held h mem
          · exact inside h mem
        · obtain ⟨final, done, result, all⟩ := ih later more
          refine ⟨final, done, result, fun full h mem => all full h ?_⟩
          rcases mem with mem | mem
          · exact .inl ((mem' h).mpr (.inl mem))
          · rcases List.mem_cons.mp mem with rfl | mem
            · exact .inl taken
            · exact .inr mem

theorem ranking_perm (tracked : pool.Tracked) :
    pool.ranking.Perm pool.dependencyTracker.graph.nodes := by
  refine ((List.mergeSort_perm _ _).map Prod.fst).trans ?_
  simp only [List.map_map]
  rw [show (Prod.fst ∘ fun hash => (hash, pool.packageFeeRate hash)) = id from rfl, List.map_id]
  exact tracked.consistent.topologicalOrder_perm

/-- The selection lists pool transactions without repetition. -/
theorem getBestTransactions_eq (tracked : pool.Tracked) (limit : Nat) :
    ∃ l : List TransactionHash, l.Nodup ∧ (∀ h ∈ l, pool.find h ≠ none) ∧
      pool.getBestTransactions limit = l.filterMap pool.find ∧
      (limit = pool.dependencyTracker.graph.nodes.length → ∀ h, pool.find h ≠ none → h ∈ l) := by
  unfold getBestTransactions
  split
  · rename_i zero
    refine ⟨[], List.nodup_nil, by simp, rfl, fun full h held => ?_⟩
    have empty : pool.dependencyTracker.graph.nodes = [] :=
      List.length_eq_zero_iff.mp (by omega)
    have mem := (tracked.nodes h).mpr held
    rw [empty] at mem
    cases mem
  · have ranked : ∀ h, h ∈ pool.ranking ↔ pool.find h ≠ none :=
      fun h => (ranking_perm tracked).mem_iff.trans (tracked.nodes h)
    obtain ⟨final, chosen, result, all⟩ := selectPackages_chosen tracked limit
      (fun h mem => (ranked h).mp mem) chosen_start
    refine ⟨final.selected.reverse, List.nodup_reverse.mpr chosen.distinct, ?_, ?_, ?_⟩
    · simpa using chosen.held
    · rw [result, chosen.listed]
    · intro full h held
      rw [List.mem_reverse]
      exact all full h (.inr ((ranked h).mpr held))

end Select

section Block

/-- The coinbase of `build_candidate_block` (`miner/mod.rs:196-211`). -/
def candidateCoinbase (rules : ConsensusConsts) (header : BlockHeader)
    (recipient : AccountAddress) : Transaction :=
  ⟨⟨header.version, .coinbase header.height header.previousBlockHash, [],
    [⟨rules.blockSubsidy header.height, recipient⟩]⟩, ⟨0⟩⟩

/-- The block that the miner builds from a selection. -/
def candidateBlock (rules : ConsensusConsts) (header : BlockHeader) (recipient : AccountAddress)
    (txs : List Transaction) : Block :=
  ⟨header, ⟨candidateCoinbase rules header recipient :: txs⟩⟩

/-- The transactions of the pool, in any order. -/
def transactions (pool : MemPool) : List Transaction :=
  pool.storage.getAll.map MemPoolTx.transaction

/-- A pool that can be mined as a whole: every transaction is valid on the UTXO set alone, none
spends an output of another one, and the fees can be added up. -/
structure Mineable (rules : ConsensusConsts) (header : BlockHeader) (recipient : AccountAddress)
    (m : Coins) (pool : MemPool) : Prop where
  distinct : ∀ h tx, pool.find h = some tx → tx.spentOutpoints.Nodup
  owned : ∀ h tx, pool.find h = some tx → Owned m tx.author tx.spentOutpoints
  fits : ∀ h tx, pool.find h = some tx → m.worthAll tx.spentOutpoints < 2 ^ 64
  pays : ∀ h tx, pool.find h = some tx → tx.outputTotal ≤ m.worthAll tx.spentOutpoints
  outputs : ∀ h tx, pool.find h = some tx → tx.outpoints.Nodup
  apart : ∀ h tx h' tx', pool.find h = some tx → pool.find h' = some tx' →
    ∀ o ∈ tx.spentOutpoints, o ∉ tx'.outpoints
  coinbase : ∀ h tx, pool.find h = some tx →
    ∀ o ∈ (candidateCoinbase rules header recipient).outpoints,
      o ∉ tx.spentOutpoints ∧ o ∉ tx.outpoints
  fees : (rules.blockSubsidy header.height).toNat + totalFees m pool.transactions < 2 ^ 64

/-- Transactions that can be mined together: each of them is valid on the UTXO set alone, none spends
an output of another one, and the fees can be added up. -/
structure Packable (rules : ConsensusConsts) (header : BlockHeader) (recipient : AccountAddress)
    (m : Coins) (txs : List Transaction) : Prop where
  distinct : ∀ tx ∈ txs, tx.spentOutpoints.Nodup
  owned : ∀ tx ∈ txs, Owned m tx.author tx.spentOutpoints
  fits : ∀ tx ∈ txs, m.worthAll tx.spentOutpoints < 2 ^ 64
  pays : ∀ tx ∈ txs, tx.outputTotal ≤ m.worthAll tx.spentOutpoints
  outputs : ∀ tx ∈ txs, tx.outpoints.Nodup
  apart : ∀ tx ∈ txs, ∀ tx' ∈ txs, ∀ o ∈ tx.spentOutpoints, o ∉ tx'.outpoints
  coinbase : ∀ tx ∈ txs, ∀ o ∈ (candidateCoinbase rules header recipient).outpoints,
    o ∉ tx.spentOutpoints ∧ o ∉ tx.outpoints
  fees : (rules.blockSubsidy header.height).toNat + totalFees m txs < 2 ^ 64

/-- What an admission checks and nothing changes later: the pool holds signed payments. -/
def Payments (pool : MemPool) : Prop :=
  ∀ h tx, pool.find h = some tx →
    tx.data.kind = .payment ∧ Primitives.recoverAuthor tx = some tx.author

theorem payments_call (payments : pool.Payments) (call : Call) : (pool.call call).Payments := by
  have removed : ∀ l, (pool.removeAll l).Payments := by
    intro l h tx found
    rw [find_removeAll] at found
    split at found
    · cases found
    · exact payments h tx found
  rcases pool.call_cases call with ⟨l, same⟩ | ⟨lookup, now, tx, utxos, -, -, passed, stored⟩
  · rw [same]
    exact removed l
  · rw [stored]
    obtain ⟨_, -, admissible⟩ := validate_admissible passed
    intro h tx' found
    rw [find_store] at found
    by_cases same : h = tx.data.hash
    · subst same
      rw [Function.update_self, Option.some.injEq] at found
      exact found ▸ ⟨admissible.kind, admissible.signed⟩
    · rw [Function.update_of_ne same] at found
      exact removed _ h tx' found

/-- What every reached pool satisfies. -/
structure Reachable (pool : MemPool) : Prop where
  indexed : pool.storage.Indexed
  tracked : pool.Tracked
  payments : pool.Payments

theorem reachable_run (config : MemPoolConfig) (calls : List Call) :
    ((new config).run calls).Reachable := by
  have rest : ∀ (calls : List Call) (pool : MemPool), pool.Reachable →
      (pool.run calls).Reachable := by
    intro calls
    induction calls with
    | nil => exact fun pool reachable => reachable
    | cons call calls ih =>
      intro pool reachable
      exact ih _ ⟨indexed_call reachable.indexed call,
        tracked_call reachable.indexed reachable.tracked call,
        payments_call reachable.payments call⟩
  refine rest calls _ ⟨TransactionStorage.indexed_empty, tracked_new config, ?_⟩
  intro h tx found
  simp [new, find, TransactionStorage.find, TransactionStorage.get, TransactionStorage.empty]
    at found

theorem mem_filterMap_find {l : List TransactionHash} :
    tx ∈ l.filterMap pool.find ↔ ∃ h ∈ l, pool.find h = some tx := List.mem_filterMap

/-- Lists of outpoints that name their transaction do not repeat each other. -/
theorem nodup_flatMap_find {outpoints : Transaction → List OutPoint} {l : List TransactionHash}
    (distinct : l.Nodup) (own : ∀ tx ∈ l.filterMap pool.find, (outpoints tx).Nodup)
    (apart : ∀ h tx h' tx' o, pool.find h = some tx → pool.find h' = some tx' →
      o ∈ outpoints tx → o ∈ outpoints tx' → h = h') :
    ((l.filterMap pool.find).flatMap outpoints).Nodup := by
  induction l with
  | nil => simp
  | cons h l ih =>
    rw [List.nodup_cons] at distinct
    cases found : pool.find h with
    | none =>
      rw [List.filterMap_cons_none found] at own ⊢
      exact ih distinct.2 own
    | some tx =>
      rw [List.filterMap_cons_some found] at own
      rw [List.filterMap_cons_some found, List.flatMap_cons, List.nodup_append]
      refine ⟨own tx List.mem_cons_self,
        ih distinct.2 fun tx' mem => own tx' (List.mem_cons_of_mem tx mem), ?_⟩
      rintro o here _ there rfl
      obtain ⟨tx', mem, here'⟩ := List.mem_flatMap.mp there
      obtain ⟨h', listed, found'⟩ := mem_filterMap_find.mp mem
      exact distinct.1 (apart h tx h' tx' o found found' here here' ▸ listed)

/-- Any list of all hashes of the pool lists its transactions. -/
theorem transactions_perm {l : List TransactionHash} (distinct : l.Nodup)
    (all : ∀ h, pool.find h ≠ none ↔ h ∈ l) : (l.filterMap pool.find).Perm pool.transactions := by
  have pairs : pool.storage.transactions.toPairs.map (fun e => e.2.transaction) =
      (pool.storage.transactions.toPairs.map Prod.fst).filterMap pool.find := by
    rw [List.filterMap_map, ← List.filterMap_eq_map]
    refine List.filterMap_congr fun e mem => ?_
    have read := Table.mem_toPairs.mp mem
    simp [find, TransactionStorage.find, TransactionStorage.get, read]
  have keys : l.Perm (pool.storage.transactions.toPairs.map Prod.fst) := by
    refine (List.perm_ext_iff_of_nodup distinct (Table.nodup_toPairs_keys _)).mpr fun h => ?_
    rw [← all, Table.toPairs_keys, Table.mem_keys_iff]
    simp [find, TransactionStorage.find, TransactionStorage.get, Option.ne_none_iff_exists']
  refine (keys.filterMap pool.find).trans ?_
  rw [← pairs, transactions, TransactionStorage.getAll, List.map_map]
  exact ((iter_perm _).map _).symm

variable {rules : ConsensusConsts} {header : BlockHeader} {recipient : AccountAddress} {m : Coins}
  {l : List TransactionHash}

theorem candidate_inputs (payments : pool.Payments) :
    paymentInputsOf (candidateBlock rules header recipient (l.filterMap pool.find)).data.transactions
      = (l.filterMap pool.find).flatMap Transaction.spentOutpoints := by
  change Transaction.paymentInputs _ ++ paymentInputsOf _ = _
  rw [Transaction.paymentInputs, if_neg (by simp [candidateCoinbase]), List.nil_append]
  refine List.flatMap_congr fun tx mem => ?_
  obtain ⟨h, -, found⟩ := mem_filterMap_find.mp mem
  exact if_pos (payments h tx found).1

omit [Floats] in
theorem candidate_outputs (txs : List Transaction) :
    createdBy (candidateBlock rules header recipient txs).data.transactions =
      (candidateCoinbase rules header recipient).outpoints ++
        txs.flatMap Transaction.outpoints := by
  rw [createdBy, candidateBlock, List.flatMap_cons, ← Transaction.outpoints_eq]
  exact congrArg _ (List.flatMap_congr fun tx _ => (tx.outpoints_eq).symm)

omit [Primitives] [Floats] in
theorem candidate_fees (txs : List Transaction) :
    totalFees m (candidateBlock rules header recipient txs).data.transactions = totalFees m txs := by
  have none' : Transaction.fee m (candidateCoinbase rules header recipient) = 0 := by
    simp [Transaction.fee, Transaction.paymentInputs, candidateCoinbase]
  rw [totalFees, candidateBlock, List.map_cons, List.sum_cons, none', Nat.zero_add]
  rfl

/-- The structure of a block of pool transactions that name no input twice. -/
theorem Reachable.structured (reachable : pool.Reachable) (distinct : l.Nodup)
    (inputs : ((l.filterMap pool.find).flatMap Transaction.spentOutpoints).Nodup) :
    Structured (candidateBlock rules header recipient (l.filterMap pool.find)) := by
  have kinds : ∀ tx ∈ l.filterMap pool.find, tx.data.kind = .payment := by
    intro tx mem
    obtain ⟨h, -, found⟩ := mem_filterMap_find.mp mem
    exact (reachable.payments h tx found).1
  refine ⟨?_, ⟨_, _, rfl, rfl, kinds⟩, by rw [candidate_inputs reachable.payments]; exact inputs⟩
  refine List.nodup_cons.mpr ⟨fun mem => ?_, ?_⟩
  · have := kinds _ mem
    simp [candidateCoinbase] at this
  · refine distinct.filterMap fun h h' tx first second => ?_
    rw [← reachable.indexed.keyed h tx first, reachable.indexed.keyed h' tx second]

/-- Transactions of a mineable pool can be mined together. -/
theorem Mineable.packable (mineable : Mineable rules header recipient m pool)
    (reachable : pool.Reachable) (distinct : l.Nodup) (held : ∀ h ∈ l, pool.find h ≠ none) :
    Packable rules header recipient m (l.filterMap pool.find) := by
  have each : ∀ {P : Transaction → Prop}, (∀ h tx, pool.find h = some tx → P tx) →
      ∀ tx ∈ l.filterMap pool.find, P tx := by
    intro P all tx mem
    obtain ⟨h, -, found⟩ := mem_filterMap_find.mp mem
    exact all h tx found
  have fees : totalFees m (l.filterMap pool.find) ≤ totalFees m pool.transactions := by
    obtain ⟨all, complete, whole⟩ : ∃ all : List TransactionHash, all.Nodup ∧
        ∀ h, pool.find h ≠ none ↔ h ∈ all :=
      ⟨_, reachable.tracked.consistent.wellFormed.distinct,
        fun h => (reachable.tracked.nodes h).symm⟩
    obtain ⟨part, perm, sub⟩ := List.subperm_of_subset distinct fun h mem => (whole h).mp (held h mem)
    have smaller := ((sub.filterMap pool.find).map (Transaction.fee m)).sum_le_sum
      fun _ _ => Nat.zero_le _
    have same := ((perm.filterMap pool.find).map (Transaction.fee m)).sum_eq
    have same' := ((transactions_perm complete whole).map (Transaction.fee m)).sum_eq
    unfold totalFees
    omega
  refine ⟨each mineable.distinct, each mineable.owned, each mineable.fits, each mineable.pays,
    each mineable.outputs, ?_, each mineable.coinbase, ?_⟩
  · exact each fun h tx found => each fun h' tx' found' => mineable.apart h tx h' tx' found found'
  · exact lt_of_le_of_lt (Nat.add_le_add_left fees _) mineable.fees

/-- A block of pool transactions that can be mined together is acceptable. -/
theorem Packable.accepted (packable : Packable rules header recipient m (l.filterMap pool.find))
    (reachable : pool.Reachable) (distinct : l.Nodup) :
    Structured (candidateBlock rules header recipient (l.filterMap pool.find)) ∧
      Accepted rules m (candidateBlock rules header recipient (l.filterMap pool.find)) := by
  have inputs := nodup_flatMap_find distinct packable.distinct
    fun h tx h' tx' o first second => reachable.indexed.spender_unique first second
  have created := nodup_flatMap_find distinct packable.outputs (by
    intro h tx h' tx' o first second here here'
    rw [← reachable.indexed.keyed h tx first, ← reachable.indexed.keyed h' tx' second,
      ← Transaction.txid_of_mem_outpoints here, Transaction.txid_of_mem_outpoints here'])
  refine ⟨reachable.structured distinct inputs, ?_, ?_, ?_, ?_, ?_, ?_⟩
  · rw [candidate_outputs, List.nodup_append]
    refine ⟨by simp [Transaction.outpoints, Transaction.outpointsUnder, candidateCoinbase],
      created, ?_⟩
    rintro o here _ there rfl
    obtain ⟨tx, mem, output⟩ := List.mem_flatMap.mp there
    exact (packable.coinbase tx mem o here).2 output
  · intro o input output
    rw [candidate_inputs reachable.payments] at input
    rw [candidate_outputs, List.mem_append] at output
    obtain ⟨tx, mem, input⟩ := List.mem_flatMap.mp input
    rcases output with reward | output
    · exact (packable.coinbase tx mem o reward).1 input
    · obtain ⟨tx', mem', output⟩ := List.mem_flatMap.mp output
      exact packable.apart tx mem tx' mem' o input output
  · rw [candidate_inputs reachable.payments]
    exact inputs
  · intro tx mem
    rcases List.mem_cons.mp mem with rfl | mem
    · refine ⟨by simp [Startable, candidateCoinbase], ?_, ?_, by simp [TxThread.of, candidateCoinbase]⟩
      · simp [Owned, TxThread.of, Transaction.paymentInputs, candidateCoinbase]
      · simp [TxThread.of, Transaction.paymentInputs, candidateCoinbase]
    · obtain ⟨h, -, found⟩ := mem_filterMap_find.mp mem
      obtain ⟨kind, signed⟩ := reachable.payments h tx found
      have paid : tx.paymentInputs = tx.spentOutpoints := if_pos kind
      have fits := packable.fits tx mem
      have pays := packable.pays tx mem
      refine ⟨by simp [Startable, kind, signed], ?_, ?_, fun _ => ?_⟩
      · simp only [TxThread.of, paid]
        exact packable.owned tx mem
      · simpa only [TxThread.of, paid, UInt64.toNat_zero, Nat.zero_add] using fits
      · simp only [TxThread.of, paid, UInt64.toNat_zero, Nat.zero_add]
        exact ⟨by omega, pays⟩
  · rw [candidate_fees]
    exact packable.fees
  · rw [candidate_fees]
    exact ⟨_, _, rfl, rfl, Nat.le_add_right _ _⟩

/-- A block of the whole pool shows that the pool is mineable. -/
theorem mineable_of_accepted (reachable : pool.Reachable) (distinct : l.Nodup)
    (all : ∀ h, pool.find h ≠ none ↔ h ∈ l)
    (accepted : Accepted rules m (candidateBlock rules header recipient (l.filterMap pool.find))) :
    Mineable rules header recipient m pool := by
  have listed : ∀ h tx, pool.find h = some tx → tx ∈ l.filterMap pool.find := by
    intro h tx found
    exact mem_filterMap_find.mpr ⟨h, (all h).mp (by simp [found]), found⟩
  have inputs := accepted.inputs
  have outputs := accepted.outputs
  have external := accepted.external
  rw [candidate_inputs reachable.payments] at inputs external
  rw [candidate_outputs] at outputs external
  obtain ⟨-, created, reward⟩ := List.nodup_append.mp outputs
  have thread : ∀ h tx, pool.find h = some tx → Owned m tx.author tx.spentOutpoints ∧
      m.worthAll tx.spentOutpoints < 2 ^ 64 ∧ tx.outputTotal ≤ m.worthAll tx.spentOutpoints := by
    intro h tx found
    have kind := (reachable.payments h tx found).1
    have paid : tx.paymentInputs = tx.spentOutpoints := if_pos kind
    obtain ⟨-, owned, fits, pays⟩ := accepted.each tx (List.mem_cons_of_mem _ (listed h tx found))
    simp only [TxThread.of, paid, UInt64.toNat_zero, Nat.zero_add] at owned fits pays
    exact ⟨owned, fits, (pays kind).2⟩
  have spent : ∀ h tx, pool.find h = some tx → ∀ o ∈ tx.spentOutpoints,
      o ∈ (l.filterMap pool.find).flatMap Transaction.spentOutpoints :=
    fun h tx found o mem => List.mem_flatMap.mpr ⟨tx, listed h tx found, mem⟩
  have made : ∀ h tx, pool.find h = some tx → ∀ o ∈ tx.outpoints,
      o ∈ (l.filterMap pool.find).flatMap Transaction.outpoints :=
    fun h tx found o mem => List.mem_flatMap.mpr ⟨tx, listed h tx found, mem⟩
  constructor
  · exact fun h tx found => (List.nodup_flatMap.mp inputs).1 tx (listed h tx found)
  · exact fun h tx found => (thread h tx found).1
  · exact fun h tx found => (thread h tx found).2.1
  · exact fun h tx found => (thread h tx found).2.2
  · exact fun h tx found => (List.nodup_flatMap.mp created).1 tx (listed h tx found)
  · intro h tx h' tx' found found' o input output
    exact external o (spent h tx found o input)
      (List.mem_append_right _ (made h' tx' found' o output))
  · intro h tx found o coinbase
    refine ⟨fun input => ?_, fun output => ?_⟩
    · exact external o (spent h tx found o input) (List.mem_append_left _ coinbase)
    · exact reward o coinbase o (made h tx found o output) rfl
  · have fits := accepted.reward.fits
    rw [candidate_fees] at fits
    have same := ((transactions_perm distinct all).map (Transaction.fee m)).sum_eq
    unfold totalFees at fits ⊢
    rw [← same]
    exact fits

/-- If the block of all that fits is acceptable, the pool is mineable. -/
theorem Reachable.mineable (reachable : pool.Reachable) {S : Type} [UtxoStorage S] {s : S}
    (reads : Reads s m) (normal : header.isGenesis = false)
    (passes : ∀ limit,
      validateBlockStructure (candidateBlock rules header recipient
        (pool.getBestTransactions limit)) = .ok () ∧
      validateTransactions (candidateBlock rules header recipient
        (pool.getBestTransactions limit)) rules s = .ok ()) :
    Mineable rules header recipient m pool := by
  obtain ⟨l, distinct, held, best, all⟩ := getBestTransactions_eq reachable.tracked
    pool.dependencyTracker.graph.nodes.length
  have block := passes pool.dependencyTracker.graph.nodes.length
  rw [best] at block
  have structured := validateBlockStructure_eq_ok normal block.1
  refine mineable_of_accepted reachable distinct (fun h => ⟨all rfl h, held h⟩) ?_
  exact (validateTransactionsUnder_iff reads normal structured).mp block.2

/-- For every pool reached by any calls and every UTXO set: the miner's coinbase followed by the
selection is an acceptable block for every limit exactly when the pool is mineable as a whole. -/
theorem selection_acceptable_iff {S : Type} [UtxoStorage S] {s : S} {m : Coins} (reads : Reads s m)
    (config : MemPoolConfig) (calls : List Call) (rules : ConsensusConsts) (header : BlockHeader)
    (normal : header.isGenesis = false) (recipient : AccountAddress) :
    (∀ limit,
      validateBlockStructure (candidateBlock rules header recipient
        (((new config).run calls).getBestTransactions limit)) = .ok () ∧
      validateTransactions (candidateBlock rules header recipient
        (((new config).run calls).getBestTransactions limit)) rules s = .ok ()) ↔
    Mineable rules header recipient m ((new config).run calls) := by
  have reachable := reachable_run config calls
  generalize (new config).run calls = pool at reachable
  constructor
  · intro passes
    exact reachable.mineable reads normal passes
  · intro mineable limit
    obtain ⟨l, distinct, held, best, -⟩ := getBestTransactions_eq reachable.tracked limit
    rw [best]
    have packable := mineable.packable reachable distinct held
    obtain ⟨structured, accepted⟩ := packable.accepted reachable distinct
    exact ⟨validateBlockStructure_ok structured,
      (validateTransactionsUnder_iff reads normal structured).mpr accepted⟩

end Block

end MemPool

namespace Sample

/-- The lookup in the UTXO set after genesis. -/
def allocations : UtxoLookup := holding funds.utxos.toPairs

/-- A payment of the allocation and one that passes it on enter the pool. -/
def packageCalls : List MemPool.Call :=
  [.addTransaction allocations 0 earn, .addTransaction allocations 0 passOn]

/-- The header of the first block above genesis. -/
def firstHeader : BlockHeader := (above genesis 1 []).header

/-- Three accounts with an output each. -/
def purses : MemoryView :=
  { MemoryView.default with
    utxos := Table.insertAll [(⟨⟨1⟩, 0⟩, ⟨⟨1⟩, 0, 5000, ⟨1⟩⟩), (⟨⟨2⟩, 0⟩, ⟨⟨2⟩, 0, 5000, ⟨2⟩⟩),
      (⟨⟨3⟩, 0⟩, ⟨⟨3⟩, 0, 5000, ⟨3⟩⟩)] ∅ }

def purseCoins : Coins := purses.utxos.read

/-- Each of them pays another account. -/
def gifts : List Transaction :=
  [payment 1 [⟨⟨1⟩, 0⟩] [⟨4000, ⟨6⟩⟩], payment 2 [⟨⟨2⟩, 0⟩] [⟨3000, ⟨7⟩⟩, ⟨1000, ⟨2⟩⟩],
    payment 3 [⟨⟨3⟩, 0⟩] [⟨4500, ⟨8⟩⟩]]

/-- The pool that all of the payments have entered. -/
def giftPool : MemPool := (MemPool.new poolConfig).run
  (gifts.map fun tx => .addTransaction (holding purses.utxos.toPairs) 0 tx)

end Sample

open Sample in
/-- A child next to its parent in the pool makes the block of both unacceptable. -/
theorem selection_rejected_with_parent :
    ¬ ∀ (config : MemPoolConfig) (calls : List MemPool.Call) (limit : Nat),
      (∀ call ∈ calls, ∃ now tx, call = .addTransaction allocations now tx) →
      validateBlockStructure (MemPool.candidateBlock consts firstHeader ⟨9⟩
        (((MemPool.new config).run calls).getBestTransactions limit)) = .ok () ∧
      validateTransactions (MemPool.candidateBlock consts firstHeader ⟨9⟩
        (((MemPool.new config).run calls).getBestTransactions limit)) consts funds = .ok () := by
  intro all
  have only : ∀ call ∈ packageCalls, ∃ now tx, call = .addTransaction allocations now tx := by
    simp [packageCalls]
  have mineable := (MemPool.reachable_run poolConfig packageCalls).mineable
    (s := funds) (m := funds.utxos.read) (fun _ => rfl) (by decide)
    fun limit => all poolConfig packageCalls limit only
  refine mineable.apart passOn.data.hash passOn earn.data.hash earn ?_ ?_
    (earn.outpoints.head (by decide)) ?_ ?_ <;> decide +kernel

open Sample in
/-- Payments of several accounts make an acceptable block, however many of them fit. -/
theorem selection_acceptable_sample : giftPool.transactions.length = 3 ∧ ∀ limit,
    validateBlockStructure (MemPool.candidateBlock consts firstHeader ⟨9⟩
      (giftPool.getBestTransactions limit)) = .ok () ∧
    validateTransactions (MemPool.candidateBlock consts firstHeader ⟨9⟩
      (giftPool.getBestTransactions limit)) consts purses = .ok () := by
  have listed : ∀ e ∈ giftPool.storage.transactions.toPairs.map fun e => (e.1, e.2.transaction),
      e.2 ∈ gifts := by decide +kernel
  have gift : ∀ h tx, giftPool.find h = some tx → tx ∈ gifts :=
    fun h tx found => listed _ (MemPool.mem_pairs_of_find found)
  have distinct : ∀ tx ∈ gifts, tx.spentOutpoints.Nodup ∧ tx.outpoints.Nodup := by decide +kernel
  have owned : ∀ tx ∈ gifts, ∀ o ∈ tx.spentOutpoints,
      (purseCoins o).any (fun utxo => utxo.owner = tx.author) = true := by decide +kernel
  have paid : ∀ tx ∈ gifts, purseCoins.worthAll tx.spentOutpoints < 2 ^ 64 ∧
      tx.outputTotal ≤ purseCoins.worthAll tx.spentOutpoints := by decide +kernel
  have apart : ∀ tx ∈ gifts, ∀ tx' ∈ gifts, ∀ o ∈ tx.spentOutpoints, o ∉ tx'.outpoints := by
    decide +kernel
  have coinbase : ∀ tx ∈ gifts,
      ∀ o ∈ (MemPool.candidateCoinbase consts firstHeader ⟨9⟩).outpoints,
        o ∉ tx.spentOutpoints ∧ o ∉ tx.outpoints := by decide +kernel
  have mineable : MemPool.Mineable consts firstHeader ⟨9⟩ purseCoins giftPool := by
    constructor
    case distinct => exact fun h tx found => (distinct tx (gift h tx found)).1
    case owned =>
      intro h tx found o mem
      obtain ⟨utxo, held, owner⟩ := (Option.any_eq_true _ _).mp (owned tx (gift h tx found) o mem)
      exact ⟨utxo, held, of_decide_eq_true owner⟩
    case fits => exact fun h tx found => (paid tx (gift h tx found)).1
    case pays => exact fun h tx found => (paid tx (gift h tx found)).2
    case outputs => exact fun h tx found => (distinct tx (gift h tx found)).2
    case apart =>
      exact fun h tx h' tx' found found' => apart tx (gift h tx found) tx' (gift h' tx' found')
    case coinbase => exact fun h tx found => coinbase tx (gift h tx found)
    case fees => decide +kernel
  exact ⟨by decide +kernel, (MemPool.selection_acceptable_iff (s := purses) (fun _ => rfl)
    poolConfig _ consts firstHeader (by decide) ⟨9⟩).mpr mineable⟩

end StryiChain
