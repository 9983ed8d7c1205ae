import StryiChain.Mempool.Selection

/-!
# Snapshots of the pool (`mempool/types.rs`, `mempool/mod.rs`)

A snapshot lists the stored transactions in the order of a hash map. The restoring pool first
stores all of them and then adds them to its tracker, in the order of the list; an edge needs the
node of its parent, so that a parent listed after its child is left without the edge.
-/

namespace StryiChain

open Relation

section Snapshot

variable [Primitives] [Floats]

/-- `MemPoolSyncEntry`. -/
structure MemPoolSyncEntry where
  transaction : Transaction
  fee : UInt64
  timestamp : UInt64

/-- `MemPoolSyncData`. -/
structure MemPoolSyncData where
  entries : List MemPoolSyncEntry
  timestamp : UInt64

/-- The hash of the transaction of an entry. -/
def MemPoolSyncEntry.hash (entry : MemPoolSyncEntry) : TransactionHash :=
  entry.transaction.data.hash

/-- The entry of a snapshot for a stored transaction. -/
def MemPoolTx.syncEntry (stored : MemPoolTx) : MemPoolSyncEntry :=
  ⟨stored.transaction, stored.fee, stored.timestamp⟩

/-- What an entry is stored as. -/
def MemPoolSyncEntry.stored (entry : MemPoolSyncEntry) : MemPoolTx :=
  ⟨entry.transaction, entry.timestamp, entry.fee, entry.transaction.serializedSize⟩

/-- One entry goes back into the storage (`mod.rs:170-178`). -/
def TransactionStorage.restoreEntry (storage : TransactionStorage) (entry : MemPoolSyncEntry) :
    TransactionStorage :=
  storage.insertWithTimestamp entry.hash entry.transaction entry.fee entry.timestamp

namespace MemPool

/-- `get_sync_state` (`mod.rs:136-153`), with the reading of the clock. -/
def getSyncState (pool : MemPool) (now : UInt64) : MemPoolSyncData where
  entries := pool.storage.getAll.map MemPoolTx.syncEntry
  timestamp := now

/-- One transaction goes back into the tracker (`mod.rs:181-186`). -/
def restoreParents (storage : TransactionStorage) (tracker : DependencyTracker)
    (tx : Transaction) : DependencyTracker :=
  tracker.addTransaction tx.data.hash (parentHashes storage tx)

/-- `restore_state` (`mod.rs:162-189`). The decoder is that of the serialization library, with the
text of its error. -/
def restoreState (pool : MemPool) (fromBytes : List UInt8 → Except String MemPoolSyncData)
    (data : List UInt8) : Except MemPoolError Unit × MemPool :=
  match fromBytes data with
  | .error message => (.error (.storage (.inr message)), pool)
  | .ok syncData =>
      let storage := syncData.entries.foldl TransactionStorage.restoreEntry .empty
      let transactions := syncData.entries.map MemPoolSyncEntry.transaction
      (.ok (), { pool with
        storage
        dependencyTracker := transactions.foldl (restoreParents storage) .empty })

end MemPool

section Storage

variable {storage storage' : TransactionStorage} {entries : List MemPoolSyncEntry}

/-- Entries that can be stored one after the other: different transactions without a common
input. -/
def Compatible (entries : List MemPoolSyncEntry) : Prop :=
  entries.Pairwise fun e e' => e.hash ≠ e'.hash ∧
    ∀ o ∈ e.transaction.spentOutpoints, o ∉ e'.transaction.spentOutpoints

omit [Floats] in
theorem get_restore (entries : List MemPoolSyncEntry) (storage : TransactionStorage) :
    (entries.foldl TransactionStorage.restoreEntry storage).get =
      putAll (entries.map fun e => (e.hash, e.stored)) storage.get := by
  induction entries generalizing storage with
  | nil => rfl
  | cons e entries ih =>
    have one : (storage.restoreEntry e).get =
        Function.update storage.get e.hash (some e.stored) :=
      TransactionStorage.get_insert e.fee e.timestamp
    rw [List.foldl_cons, ih, one, List.map_cons, putAll_cons]

omit [Floats] in
/-- Storing compatible entries keeps the indexes. -/
theorem restore_indexed (compatible : Compatible entries) (indexed : storage.Indexed)
    (new : ∀ e ∈ entries, storage.find e.hash = none)
    (free : ∀ e ∈ entries, ∀ o ∈ e.transaction.spentOutpoints, storage.getSpendingTx o = none) :
    (entries.foldl TransactionStorage.restoreEntry storage).Indexed := by
  induction entries generalizing storage with
  | nil => exact indexed
  | cons e entries ih =>
    obtain ⟨apart, rest⟩ := List.pairwise_cons.mp compatible
    have one : (storage.restoreEntry e).Indexed :=
      indexed.insert e.fee e.timestamp (new e List.mem_cons_self) (free e List.mem_cons_self)
    refine ih rest one (fun e' mem => ?_) (fun e' mem o input => ?_)
    · have found : (storage.restoreEntry e).find =
          Function.update storage.find e.hash (some e.transaction) :=
        TransactionStorage.find_insert e.fee e.timestamp
      rw [found, Function.update_of_ne (apart e' mem).1.symm]
      exact new e' (List.mem_cons_of_mem _ mem)
    · have slot : (storage.restoreEntry e).getSpendingTx o =
          if o ∈ e.transaction.spentOutpoints then some e.hash else storage.getSpendingTx o :=
        TransactionStorage.getSpendingTx_insert e.fee e.timestamp
      rw [slot, if_neg fun shared => (apart e' mem).2 o shared input]
      exact free e' (List.mem_cons_of_mem _ mem) o input

omit [Floats] in
/-- The indexes are determined by the stored transactions. -/
theorem TransactionStorage.Indexed.indexes_eq (indexed : storage.Indexed)
    (indexed' : storage'.Indexed) (same : storage'.find = storage.find) :
    storage'.getCreatingTx = storage.getCreatingTx ∧
      storage'.getSpendingTx = storage.getSpendingTx := by
  refine ⟨?_, ?_⟩
  · funext o
    refine Option.ext fun h => ?_
    rw [indexed'.creating, indexed.creating, same]
  · funext o
    refine Option.ext fun h => ?_
    rw [indexed'.spending, indexed.spending, same]

end Storage

section Tracker

omit [Primitives] [Floats] in
/-- Which pairs the list with one more element contains in order. -/
theorem pair_sublist_concat {α : Type} {l : List α} {a b x : α} :
    [a, b].Sublist (l ++ [x]) ↔ [a, b].Sublist l ∨ b = x ∧ a ∈ l := by
  have turned : [a, b].Sublist l ↔ [b, a].Sublist l.reverse := List.reverse_sublist.symm
  rw [turned, ← List.reverse_sublist, List.reverse_append]
  simp [List.sublist_cons_iff]

omit [Floats] in
/-- The edges after a list of transactions has gone into the empty tracker: a parent has to be
listed first. -/
theorem restoreParents_spec (storage : TransactionStorage) {txs : List Transaction}
    (distinct : (txs.map fun tx => tx.data.hash).Nodup) :
    (txs.foldl (MemPool.restoreParents storage) .empty).Consistent ∧
    (txs.foldl (MemPool.restoreParents storage) .empty).graph.nodes =
      txs.map (fun tx => tx.data.hash) ∧
    ∀ p c, (txs.foldl (MemPool.restoreParents storage) .empty).graph.Arrow p c ↔
      ∃ tx ∈ txs, tx.data.hash = c ∧ p ∈ MemPool.parentHashes storage tx ∧
        ([p, c].Sublist (txs.map fun tx => tx.data.hash) ∨ p = c) := by
  induction txs using List.reverseRecOn with
  | nil =>
    refine ⟨DependencyTracker.consistent_empty, DiGraph.nodes_empty, fun p c => ?_⟩
    simp only [List.foldl_nil, List.not_mem_nil, false_and, exists_false, iff_false]
    exact DiGraph.not_arrow_empty
  | append_singleton txs tx ih =>
    rw [List.map_append, List.map_singleton, List.nodup_append] at distinct
    obtain ⟨before, -, apart⟩ := distinct
    obtain ⟨consistent, nodes, arrows⟩ := ih before
    have new : tx.data.hash ∉ txs.map fun tx => tx.data.hash :=
      fun mem => apart _ mem _ (by simp) rfl
    rw [List.foldl_concat, List.map_append, List.map_singleton]
    obtain ⟨consistent', nodes', arrows'⟩ := consistent.addTransaction (by rw [nodes]; exact new)
      (MemPool.parentHashes storage tx)
    refine ⟨consistent', nodes'.trans (by rw [nodes]), fun p c => (arrows' p c).trans ?_⟩
    rw [arrows, nodes]
    simp only [List.mem_append, List.mem_singleton, pair_sublist_concat]
    constructor
    · rintro (⟨tx', mem, rfl, parent, order⟩ | ⟨rfl, parent, order⟩)
      · exact ⟨tx', .inl mem, rfl, parent, order.imp_left .inl⟩
      · exact ⟨tx, .inr rfl, rfl, parent, order.imp_left fun mem => .inr ⟨rfl, mem⟩⟩
    · rintro ⟨tx', mem | rfl, rfl, parent, order⟩
      · have other : tx'.data.hash ≠ tx.data.hash := fun same =>
          new (same ▸ List.mem_map_of_mem mem)
        exact .inl ⟨tx', mem, rfl, parent, order.imp_left
          fun listed => listed.resolve_right fun last => other last.1⟩
      · refine .inr ⟨rfl, parent, order.imp_left fun listed => ?_⟩
        rcases listed with earlier | last
        · exact absurd (earlier.subset (by simp)) new
        · exact last.2

end Tracker

namespace MemPool

variable {pool pool' : MemPool} {h p c : TransactionHash}

/-- The sizes that the pool keeps are those of its transactions. -/
def Sized (pool : MemPool) : Prop :=
  ∀ h stored, pool.storage.get h = some stored →
    stored.serializedSize = stored.transaction.serializedSize

theorem sized_call (sized : pool.Sized) (call : Call) : (pool.call call).Sized := by
  have removed : ∀ l, (pool.removeAll l).Sized := by
    intro l h stored found
    rw [get_removeAll] at found
    split at found
    · cases found
    · exact sized h stored found
  rcases pool.call_cases call with ⟨l, same⟩ | ⟨lookup, now, tx, utxos, -, -, -, done⟩
  · rw [same]
    exact removed l
  · rw [done]
    intro h stored found
    rw [get_store] at found
    by_cases new : h = tx.data.hash
    · subst new
      rw [Function.update_self, Option.some.injEq] at found
      rw [← found]
    · rw [Function.update_of_ne new] at found
      exact removed _ h stored found

theorem sized_run (config : MemPoolConfig) (calls : List Call) : ((new config).run calls).Sized := by
  refine List.foldlRecOn calls MemPool.call ?_ fun pool sized call _ => sized_call sized call
  intro h stored found
  simp [new, TransactionStorage.get, TransactionStorage.empty] at found

section Entries

omit [Floats] in
theorem mem_syncEntries {storage : TransactionStorage} {e : MemPoolSyncEntry} :
    e ∈ storage.getAll.map MemPoolTx.syncEntry ↔
      ∃ h stored, storage.get h = some stored ∧ stored.syncEntry = e := by
  simp only [TransactionStorage.getAll, List.map_map, List.mem_map, mem_iter, Prod.exists,
    Function.comp_apply, Table.mem_toPairs]
  rfl

/-- The entries of a snapshot: one for each pool transaction. -/
structure Lists (pool : MemPool) (entries : List MemPoolSyncEntry) : Prop where
  distinct : (entries.map MemPoolSyncEntry.hash).Nodup
  mem : ∀ e, e ∈ entries ↔ ∃ stored, pool.storage.get e.hash = some stored ∧ stored.syncEntry = e

/-- Every order in which a snapshot may list its entries. -/
theorem lists_of_perm (indexed : pool.storage.Indexed) {now : UInt64}
    {entries : List MemPoolSyncEntry} (perm : entries.Perm (pool.getSyncState now).entries) :
    pool.Lists entries := by
  have keyed : ∀ h stored, pool.storage.get h = some stored → stored.syncEntry.hash = h := by
    intro h stored found
    refine indexed.keyed h stored.transaction ?_
    rw [TransactionStorage.find, found, Option.map_some]
  refine ⟨?_, fun e => ?_⟩
  · rw [(perm.map _).nodup_iff]
    have keys : ((pool.getSyncState now).entries.map MemPoolSyncEntry.hash) =
        (iter pool.storage.transactions.toPairs).map Prod.fst := by
      rw [getSyncState, TransactionStorage.getAll, List.map_map, List.map_map]
      refine List.map_congr_left fun e mem => ?_
      exact keyed e.1 e.2 (Table.mem_toPairs.mp (mem_iter.mp mem))
    rw [keys, ((iter_perm _).map _).nodup_iff]
    exact Table.nodup_toPairs_keys _
  · rw [perm.mem_iff, getSyncState, mem_syncEntries]
    constructor
    · rintro ⟨h, stored, found, rfl⟩
      exact ⟨stored, by rw [keyed h stored found, found], rfl⟩
    · rintro ⟨stored, found, same⟩
      exact ⟨e.hash, stored, found, same⟩

variable {entries : List MemPoolSyncEntry}

theorem Lists.find (lists : pool.Lists entries) {e : MemPoolSyncEntry} (mem : e ∈ entries) :
    pool.find e.hash = some e.transaction := by
  obtain ⟨stored, found, same⟩ := (lists.mem e).mp mem
  rw [MemPool.find, TransactionStorage.find, found, Option.map_some, ← same]
  rfl

theorem Lists.compatible (lists : pool.Lists entries) (indexed : pool.storage.Indexed) :
    Compatible entries := by
  have distinct : entries.Pairwise fun e e' => e.hash ≠ e'.hash :=
    List.pairwise_map.mp lists.distinct
  refine distinct.imp_of_mem fun {e e'} mem mem' other => ⟨other, fun o input input' => ?_⟩
  exact other (indexed.spender_unique (lists.find mem) (lists.find mem') input input')

/-- The storage is restored as it was, whatever the order of the entries. -/
theorem Lists.restored (lists : pool.Lists entries) (indexed : pool.storage.Indexed)
    (sized : pool.Sized) :
    (entries.foldl TransactionStorage.restoreEntry .empty).Indexed ∧
      (entries.foldl TransactionStorage.restoreEntry .empty).get = pool.storage.get := by
  refine ⟨restore_indexed (lists.compatible indexed) TransactionStorage.indexed_empty
    (fun e _ => rfl) (fun e _ o _ => rfl), ?_⟩
  have keys : (entries.map fun e => (e.hash, e.stored)).map Prod.fst =
      entries.map MemPoolSyncEntry.hash := List.map_map
  funext h
  rw [get_restore]
  cases found : pool.storage.get h with
  | some stored =>
    have hash : stored.syncEntry.hash = h := by
      refine indexed.keyed h stored.transaction ?_
      rw [TransactionStorage.find, found, Option.map_some]
    have mem : stored.syncEntry ∈ entries :=
      (lists.mem _).mpr ⟨stored, by rw [hash, found], rfl⟩
    have same : stored.syncEntry.stored = stored := by
      have size := sized h stored found
      cases stored
      rw [MemPoolSyncEntry.stored, MemPoolTx.syncEntry, ← size]
    refine putAll_of_mem (by rw [keys]; exact lists.distinct) ?_ _
    exact List.mem_map.mpr ⟨_, mem, by rw [hash, same]⟩
  | none =>
    refine (putAll_of_notMem ?_ _).trans rfl
    rw [keys]
    intro mem
    obtain ⟨e, listed, rfl⟩ := List.mem_map.mp mem
    obtain ⟨stored, stored', -⟩ := (lists.mem e).mp listed
    rw [found] at stored'
    cases stored'

/-- The restored edges: the spends whose parent is listed before the child. -/
theorem Lists.restored_arrow (lists : pool.Lists entries) {storage : TransactionStorage}
    (indexed : storage.Indexed) (same : storage.find = pool.find) :
    ((entries.map MemPoolSyncEntry.transaction).foldl (restoreParents storage) .empty).Consistent ∧
    (∀ h, h ∈ ((entries.map MemPoolSyncEntry.transaction).foldl (restoreParents storage)
      .empty).graph.nodes ↔ pool.find h ≠ none) ∧
    ∀ p c, ((entries.map MemPoolSyncEntry.transaction).foldl (restoreParents storage)
        .empty).graph.Arrow p c ↔
      pool.Feeds p c ∧ ([p, c].Sublist (entries.map MemPoolSyncEntry.hash) ∨ p = c) := by
  have hashes : (entries.map MemPoolSyncEntry.transaction).map (fun tx => tx.data.hash) =
      entries.map MemPoolSyncEntry.hash := List.map_map
  have distinct := lists.distinct
  rw [← hashes] at distinct
  obtain ⟨consistent, nodes, arrows⟩ := restoreParents_spec storage distinct
  rw [hashes] at nodes arrows
  have held : ∀ c tx, pool.find c = some tx → ∃ e ∈ entries, e.hash = c ∧ e.transaction = tx := by
    intro c tx found
    have hash : tx.data.hash = c := indexed.keyed c tx (by rw [same, found])
    obtain ⟨stored, read, rfl⟩ := Option.map_eq_some_iff.mp found
    exact ⟨stored.syncEntry, (lists.mem _).mpr ⟨stored, by rw [← read, ← hash]; rfl, rfl⟩, hash, rfl⟩
  refine ⟨consistent, fun h => ?_, fun p c => ?_⟩
  · rw [nodes]
    constructor
    · intro mem
      obtain ⟨e, listed, rfl⟩ := List.mem_map.mp mem
      simp [lists.find listed]
    · intro found
      obtain ⟨tx, found⟩ := Option.ne_none_iff_exists'.mp found
      obtain ⟨e, listed, rfl, -⟩ := held h tx found
      exact List.mem_map_of_mem listed
  · rw [arrows]
    constructor
    · rintro ⟨tx, mem, rfl, parent, order⟩
      obtain ⟨e, listed, rfl⟩ := List.mem_map.mp mem
      obtain ⟨o, input, creator⟩ := List.mem_filterMap.mp parent
      obtain ⟨tx, found, output⟩ := (indexed.creating o p).mp creator
      rw [same] at found
      exact ⟨⟨tx, e.transaction, found, lists.find listed, o, input, output⟩, order⟩
    · rintro ⟨⟨parent, child, found, found', o, input, output⟩, order⟩
      obtain ⟨e, listed, rfl, rfl⟩ := held c child found'
      refine ⟨e.transaction, List.mem_map_of_mem listed, rfl, ?_, order⟩
      refine List.mem_filterMap.mpr ⟨o, input, (indexed.creating o p).mpr ⟨parent, ?_, output⟩⟩
      rw [same, found]

end Entries

/-- Two pools that agree on everything but the numbering inside the tracker. -/
structure Agrees (pool pool' : MemPool) : Prop where
  entries : pool'.storage.get = pool.storage.get
  creating : pool'.storage.getCreatingTx = pool.storage.getCreatingTx
  spending : pool'.storage.getSpendingTx = pool.storage.getSpendingTx
  edges : ∀ p c, pool'.dependencyTracker.graph.Arrow p c ↔
    pool.dependencyTracker.graph.Arrow p c

/-- The restored pool agrees with the pool of the snapshot, also in what the tracker answers and in
what a removal leaves. -/
structure RoundTrips (pool pool' : MemPool) : Prop where
  agrees : pool.Agrees pool'
  descendants : ∀ h h', h' ∈ pool'.dependencyTracker.getDescendants h ↔
    h' ∈ pool.dependencyTracker.getDescendants h
  ancestors : ∀ h h', h' ∈ pool'.dependencyTracker.getWithAncestors h ↔
    h' ∈ pool.dependencyTracker.getWithAncestors h
  removal : ∀ h, (pool.removeTransaction h).Agrees (pool'.removeTransaction h)

/-- The snapshot lists a parent before its child where the tracker has the edge, and only
there. -/
def ListedAsTracked (pool : MemPool) (order : List TransactionHash) : Prop :=
  ∀ p c, pool.Feeds p c →
    (pool.dependencyTracker.graph.Arrow p c ↔ [p, c].Sublist order ∨ p = c)

section Agrees

/-- A pool whose indexes are exact and whose tracker has the nodes of the pool. -/
structure Kept (pool : MemPool) : Prop where
  indexed : pool.storage.Indexed
  consistent : pool.dependencyTracker.Consistent
  nodes : ∀ h, h ∈ pool.dependencyTracker.graph.nodes ↔ pool.find h ≠ none

omit [Primitives] [Floats] in
theorem find_eq {storage storage' : TransactionStorage} (same : storage'.get = storage.get) :
    storage'.find = storage.find := by
  funext h
  rw [TransactionStorage.find, same, TransactionStorage.find]

/-- Edges between the same transactions decide what the tracker answers and what a removal
leaves. -/
theorem Agrees.roundTrips (agrees : pool.Agrees pool') (kept : pool.Kept) (kept' : pool'.Kept) :
    pool.RoundTrips pool' := by
  have edges : pool'.dependencyTracker.graph.Arrow = pool.dependencyTracker.graph.Arrow := by
    funext p c
    exact propext (agrees.edges p c)
  have descendants : ∀ h h', h' ∈ pool'.dependencyTracker.getDescendants h ↔
      h' ∈ pool.dependencyTracker.getDescendants h := by
    intro h h'
    rw [kept.consistent.mem_getDescendants, kept'.consistent.mem_getDescendants, edges]
  refine ⟨agrees, descendants, fun h h' => ?_, fun h => ?_⟩
  · rw [kept.consistent.mem_getWithAncestors, kept'.consistent.mem_getWithAncestors, edges,
      kept.nodes, kept'.nodes, show pool'.find h = pool.find h from
        congrFun (find_eq agrees.entries) h]
  · have gone : ∀ c, c ∈ pool'.dependencyTracker.getDescendants h ++ [h] ↔
        c ∈ pool.dependencyTracker.getDescendants h ++ [h] := by
      intro c
      rw [List.mem_append, List.mem_append, descendants]
    rw [removeTransaction_eq, removeTransaction_eq]
    have entries : (pool'.removeAll (pool'.dependencyTracker.getDescendants h ++ [h])).storage.get =
        (pool.removeAll (pool.dependencyTracker.getDescendants h ++ [h])).storage.get := by
      funext c
      rw [get_removeAll, get_removeAll, agrees.entries]
      simp only [gone]
    obtain ⟨creating, spending⟩ := (indexed_removeAll kept.indexed _).indexes_eq
      (indexed_removeAll kept'.indexed _) (find_eq entries)
    refine ⟨entries, creating, spending, fun p c => ?_⟩
    rw [(tracker_removeAll kept.consistent _).2.2, (tracker_removeAll kept'.consistent _).2.2,
      gone, gone, edges]

end Agrees

/-- A snapshot of any reachable pool, in any order, restores the transactions with their fees and
times and both indexes; it restores the edges, and with them what the tracker answers and what a
removal leaves, exactly when its order lists the parents as they are tracked. -/
theorem snapshot_restores_iff (config : MemPoolConfig) (calls : List Call) (now : UInt64)
    (target : MemPool) (fromBytes : List UInt8 → Except String MemPoolSyncData)
    (data : List UInt8) (syncData : MemPoolSyncData) (decoded : fromBytes data = .ok syncData)
    (order : syncData.entries.Perm (((new config).run calls).getSyncState now).entries) :
    ∃ restored, target.restoreState fromBytes data = (.ok (), restored) ∧
      restored.storage.get = ((new config).run calls).storage.get ∧
      restored.storage.getCreatingTx = ((new config).run calls).storage.getCreatingTx ∧
      restored.storage.getSpendingTx = ((new config).run calls).storage.getSpendingTx ∧
      (((new config).run calls).RoundTrips restored ↔ ((new config).run calls).ListedAsTracked
        (syncData.entries.map MemPoolSyncEntry.hash)) := by
  obtain ⟨indexed, tracked, -⟩ := reachable_run config calls
  have sized := sized_run config calls
  generalize (new config).run calls = pool at indexed tracked sized order ⊢
  have lists := lists_of_perm indexed order
  obtain ⟨indexed', entries⟩ := lists.restored indexed sized
  have found := find_eq entries
  obtain ⟨consistent', nodes', arrows⟩ := lists.restored_arrow indexed' found
  obtain ⟨creating, spending⟩ := indexed.indexes_eq indexed' found
  refine ⟨_, by rw [restoreState, decoded], entries, creating, spending, ?_⟩
  constructor
  · intro trips p c feeds
    rw [← trips.agrees.edges]
    exact (arrows p c).trans (and_iff_right feeds)
  · intro listed
    have edges : ∀ p c, _ ↔ pool.dependencyTracker.graph.Arrow p c := fun p c =>
      (arrows p c).trans
        ⟨fun edge => (listed p c edge.1).mpr edge.2, fun arrow =>
          ⟨tracked.sound p c arrow, (listed p c (tracked.sound p c arrow)).mp arrow⟩⟩
    refine Agrees.roundTrips ⟨entries, creating, spending, edges⟩
      ⟨indexed, tracked.consistent, tracked.nodes⟩ ⟨indexed', consistent', fun h => ?_⟩
    rw [nodes', MemPool.find, MemPool.find, found]

end MemPool

end Snapshot

namespace Sample

/-- A parent and its child enter the pool. -/
def movedThenPaid : List MemPool.Call :=
  [.addTransaction (holding [coin 1]) 0 moved, .addTransaction (holding [coin 1]) 0 paid]

/-- Their snapshot. The hash map lists the child first. -/
def childFirst : MemPoolSyncData := ((MemPool.new poolConfig).run movedThenPaid).getSyncState 0

end Sample

open Sample in
/-- A pool with a parent and its child does not survive a snapshot that lists the child first. -/
theorem snapshot_loses_edge :
    ¬ ∀ (config : MemPoolConfig) (calls : List MemPool.Call) (now : UInt64) (target : MemPool)
      (fromBytes : List UInt8 → Except String MemPoolSyncData) (data : List UInt8)
      (syncData : MemPoolSyncData), fromBytes data = .ok syncData →
      syncData.entries.Perm (((MemPool.new config).run calls).getSyncState now).entries →
      ∃ restored, target.restoreState fromBytes data = (.ok (), restored) ∧
        ((MemPool.new config).run calls).RoundTrips restored := by
  intro all
  obtain ⟨restored, run, trips⟩ := all poolConfig movedThenPaid 0 (MemPool.new poolConfig)
    (fun _ => .ok childFirst) [] childFirst rfl (List.Perm.refl _)
  have gone : ((MemPool.new poolConfig).restoreState (fun _ => .ok childFirst)
      []).2.dependencyTracker.getDescendants moved.data.hash = [] := by decide +kernel
  have before : paid.data.hash ∈ ((MemPool.new poolConfig).run
      movedThenPaid).dependencyTracker.getDescendants moved.data.hash := by decide +kernel
  rw [run] at gone
  have after := (trips.descendants _ _).mpr before
  rw [gone] at after
  exact List.not_mem_nil after

open Sample in
theorem snapshot_restores_sample : ∃ restored,
    (MemPool.new poolConfig).restoreState (fun _ => .ok childFirst) [] = (.ok (), restored) ∧
      restored.storage.get = ((MemPool.new poolConfig).run movedThenPaid).storage.get ∧
      restored.storage.getCreatingTx =
        ((MemPool.new poolConfig).run movedThenPaid).storage.getCreatingTx ∧
      restored.storage.getSpendingTx =
        ((MemPool.new poolConfig).run movedThenPaid).storage.getSpendingTx ∧
      (((MemPool.new poolConfig).run movedThenPaid).RoundTrips restored ↔
        ((MemPool.new poolConfig).run movedThenPaid).ListedAsTracked
          (childFirst.entries.map MemPoolSyncEntry.hash)) :=
  MemPool.snapshot_restores_iff poolConfig movedThenPaid 0 (MemPool.new poolConfig)
    (fun _ => .ok childFirst) [] childFirst rfl (List.Perm.refl _)

end StryiChain
