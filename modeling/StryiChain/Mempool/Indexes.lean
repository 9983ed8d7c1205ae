import StryiChain.Mempool.Pool

/-!
# The indexes of the pool

What the pool holds is a map from hashes to transactions, and the two indexes mirror it. Every
operation comes down to removals of single transactions and, for an admission, to storing one
whose inputs are free by then.
-/

namespace StryiChain

section Storage

variable [Primitives]

/-- The outpoints of the outputs of a transaction. -/
def Transaction.outpoints (tx : Transaction) : List OutPoint := tx.outpointsUnder tx.data.hash

theorem Transaction.outpoints_eq (tx : Transaction) :
    tx.outpoints = tx.createdUtxos.map Prod.fst := by
  simp [Transaction.outpoints, Transaction.outpointsUnder, Transaction.createdUtxos,
    Function.comp_def]

theorem Transaction.txid_of_mem_outpoints {tx : Transaction} {o : OutPoint}
    (mem : o ∈ tx.outpoints) : o.txid = tx.data.hash := by
  obtain ⟨_, -, rfl⟩ := List.mem_map.mp mem
  rfl

namespace TransactionStorage

/-- The stored transaction under a hash. -/
def find (storage : TransactionStorage) (txHash : TransactionHash) : Option Transaction :=
  (storage.get txHash).map MemPoolTx.transaction

/-- The indexes mirror the stored transactions. -/
structure Indexed (storage : TransactionStorage) : Prop where
  keyed : ∀ h tx, storage.find h = some tx → tx.data.hash = h
  spending : ∀ o h, storage.getSpendingTx o = some h ↔
    ∃ tx, storage.find h = some tx ∧ o ∈ tx.spentOutpoints
  creating : ∀ o h, storage.getCreatingTx o = some h ↔
    ∃ tx, storage.find h = some tx ∧ o ∈ tx.outpoints

variable {storage : TransactionStorage} {tx : Transaction} {h : TransactionHash} {o : OutPoint}

/-- No outpoint is spent by two stored transactions. -/
theorem Indexed.spender_unique (indexed : storage.Indexed) {h' : TransactionHash}
    {tx' : Transaction} (first : storage.find h = some tx) (second : storage.find h' = some tx')
    (input : o ∈ tx.spentOutpoints) (input' : o ∈ tx'.spentOutpoints) : h = h' := by
  have one := (indexed.spending o h).mpr ⟨tx, first, input⟩
  have two := (indexed.spending o h').mpr ⟨tx', second, input'⟩
  rw [one] at two
  exact Option.some.inj two

theorem indexed_empty : (empty : TransactionStorage).Indexed := by
  constructor <;> simp [empty, find, get, getSpendingTx, getCreatingTx]

omit [Primitives] in
theorem exists_eq_false : storage.exists' h = false ↔ storage.find h = none := by
  simp [exists', find, get]

section Insert

variable (fee now : UInt64)

theorem get_insert : (storage.insert h tx fee now).get =
    Function.update storage.get h (some ⟨tx, now, fee, tx.serializedSize⟩) := by
  funext h'
  simp only [get, insert, insertWithTimestamp, Table.read_insert]
  by_cases same : h' = h
  · subst same
    simp
  · simp [Function.update_of_ne same, get]

theorem find_insert :
    (storage.insert h tx fee now).find = Function.update storage.find h (some tx) := by
  funext h'
  rw [find, get_insert]
  by_cases same : h' = h
  · subst same
    simp
  · simp [Function.update_of_ne same, find]

theorem getSpendingTx_insert : (storage.insert h tx fee now).getSpendingTx o =
    if o ∈ tx.spentOutpoints then some h else storage.getSpendingTx o := by
  simp only [getSpendingTx, insert, insertWithTimestamp, Table.read_insertAll, putAll_map_const]

theorem getCreatingTx_insert : (storage.insert h tx fee now).getCreatingTx o =
    if o ∈ tx.outpointsUnder h then some h else storage.getCreatingTx o := by
  simp only [getCreatingTx, insert, insertWithTimestamp, Table.read_insertAll, putAll_map_const]

/-- An index from outpoints to their transaction stays a mirror when a new transaction claims
outpoints that are free. -/
theorem mirror_insert {outpoints : Transaction → List OutPoint}
    {index : OutPoint → Option TransactionHash} {find : TransactionHash → Option Transaction}
    (mirror : ∀ o h, index o = some h ↔ ∃ tx, find h = some tx ∧ o ∈ outpoints tx)
    (new : find tx.data.hash = none) (free : ∀ o ∈ outpoints tx, index o = none) (o : OutPoint)
    (h : TransactionHash) :
    (if o ∈ outpoints tx then some tx.data.hash else index o) = some h ↔
      ∃ tx', Function.update find tx.data.hash (some tx) h = some tx' ∧ o ∈ outpoints tx' := by
  by_cases same : h = tx.data.hash
  · subst same
    rw [Function.update_self]
    constructor
    · intro found
      split at found
      · rename_i mem
        exact ⟨tx, rfl, mem⟩
      · obtain ⟨tx', held, -⟩ := (mirror o _).mp found
        rw [new] at held
        cases held
    · rintro ⟨_, ⟨⟩, mem⟩
      exact if_pos mem
  · rw [Function.update_of_ne same, ← mirror]
    split
    · rename_i mem
      rw [free o mem]
      simp [Ne.symm same]
    · exact Iff.rfl

/-- Storing a transaction whose inputs are free keeps the mirror. -/
theorem Indexed.insert (indexed : storage.Indexed) (new : storage.find tx.data.hash = none)
    (free : ∀ o ∈ tx.spentOutpoints, storage.getSpendingTx o = none) :
    (storage.insert tx.data.hash tx fee now).Indexed where
  keyed := by
    intro h tx' found
    rw [find_insert] at found
    by_cases same : h = tx.data.hash
    · subst same
      rw [Function.update_self, Option.some.injEq] at found
      rw [found]
    · rw [Function.update_of_ne same] at found
      exact indexed.keyed h tx' found
  spending := by
    intro o h
    rw [getSpendingTx_insert, find_insert]
    exact mirror_insert indexed.spending new free o h
  creating := by
    intro o h
    rw [getCreatingTx_insert, find_insert]
    -- an outpoint names its transaction, so only the new one could have claimed it
    have free : ∀ o ∈ tx.outpoints, storage.getCreatingTx o = none := by
      intro o mem
      cases found : storage.getCreatingTx o with
      | none => rfl
      | some h =>
        obtain ⟨tx', held, mem'⟩ := (indexed.creating o h).mp found
        have same : h = tx.data.hash := by
          rw [← indexed.keyed h tx' held, ← Transaction.txid_of_mem_outpoints mem',
            Transaction.txid_of_mem_outpoints mem]
        rw [same, new] at held
        cases held
    exact mirror_insert indexed.creating new free o h

end Insert

section Remove

omit [Primitives] in
theorem get_remove : (storage.remove h).2.get = Function.update storage.get h none := by
  funext h'
  unfold remove
  split
  · rename_i absent
    by_cases same : h' = h
    · subst same
      simp [get, absent]
    · rw [Function.update_of_ne same]
  · simp only [get, Table.read_erase]
    by_cases same : h' = h
    · subst same
      simp
    · simp [Function.update_of_ne same, get]

omit [Primitives] in
theorem find_remove : (storage.remove h).2.find = Function.update storage.find h none := by
  funext h'
  rw [find, get_remove]
  by_cases same : h' = h
  · subst same
    simp
  · simp [Function.update_of_ne same, find]

omit [Primitives] in
/-- The slots that a removed transaction gives back. -/
theorem read_foldl_release (l : List OutPoint) (index : Table OutPoint TransactionHash) :
    (l.foldl (release h) index).read o =
      if o ∈ l ∧ index.read o = some h then none else index.read o := by
  induction l generalizing index with
  | nil => simp
  | cons o' l ih =>
    rw [List.foldl_cons, ih]
    unfold release
    split
    · rename_i own
      rw [Table.read_erase]
      by_cases same : o = o'
      · subst same
        simp [own]
      · simp [same]
    · rename_i foreign
      by_cases same : o = o'
      · subst same
        simp [foreign]
      · simp [same]

omit [Primitives] in
theorem getSpendingTx_remove {entry : MemPoolTx} (found : storage.get h = some entry) :
    (storage.remove h).2.getSpendingTx o =
      if o ∈ entry.transaction.spentOutpoints ∧ storage.getSpendingTx o = some h then none
      else storage.getSpendingTx o := by
  have read : storage.transactions.read h = some entry := found
  simp only [remove, read, getSpendingTx]
  exact read_foldl_release _ _

omit [Primitives] in
theorem getCreatingTx_remove {entry : MemPoolTx} (found : storage.get h = some entry) :
    (storage.remove h).2.getCreatingTx o =
      if o ∈ entry.transaction.outpointsUnder h then none else storage.getCreatingTx o := by
  have read : storage.transactions.read h = some entry := found
  simp only [remove, read, getCreatingTx, Table.read_removeAll]
  rfl

omit [Primitives] in
/-- An index stays a mirror when a transaction gives back what it claims. -/
theorem mirror_remove {outpoints : Transaction → List OutPoint}
    {index index' : OutPoint → Option TransactionHash}
    {find : TransactionHash → Option Transaction}
    (mirror : ∀ o h, index o = some h ↔ ∃ tx, find h = some tx ∧ o ∈ outpoints tx)
    (released : ∀ o, index' o = if index o = some h then none else index o) (o : OutPoint)
    (h' : TransactionHash) :
    index' o = some h' ↔ ∃ tx, Function.update find h none h' = some tx ∧ o ∈ outpoints tx := by
  rw [released]
  by_cases same : h' = h
  · subst same
    rw [Function.update_self]
    split
    · simp
    · rename_i foreign
      simp [foreign]
  · rw [Function.update_of_ne same, ← mirror]
    split
    · rename_i own
      simp [own, Ne.symm same]
    · exact Iff.rfl

/-- Removing a transaction keeps the mirror. -/
theorem Indexed.remove (indexed : storage.Indexed) (h : TransactionHash) :
    (storage.remove h).2.Indexed := by
  cases found : storage.get h with
  | none =>
    have same : (storage.remove h).2 = storage := by
      unfold TransactionStorage.remove
      rw [show storage.transactions.read h = none from found]
    rw [same]
    exact indexed
  | some entry =>
    have held : storage.find h = some entry.transaction := by rw [find, found, Option.map_some]
    refine ⟨?_, ?_, ?_⟩
    · intro h' tx found
      rw [find_remove] at found
      by_cases same : h' = h
      · subst same
        simp at found
      · rw [Function.update_of_ne same] at found
        exact indexed.keyed h' tx found
    · intro o h'
      rw [find_remove]
      refine mirror_remove indexed.spending (fun o => ?_) o h'
      rw [getSpendingTx_remove found]
      have slot := indexed.spending o h
      by_cases own : storage.getSpendingTx o = some h
      · obtain ⟨tx, same, mem⟩ := slot.mp own
        rw [held, Option.some.injEq] at same
        rw [if_pos own, if_pos ⟨same ▸ mem, own⟩]
      · rw [if_neg own, if_neg fun both => own both.2]
    · intro o h'
      rw [find_remove]
      refine mirror_remove indexed.creating (fun o => ?_) o h'
      rw [getCreatingTx_remove found]
      have slot := indexed.creating o h
      have hash := indexed.keyed h _ held
      by_cases own : storage.getCreatingTx o = some h
      · obtain ⟨tx, same, mem⟩ := slot.mp own
        rw [held, Option.some.injEq] at same
        subst same
        rw [Transaction.outpoints, hash] at mem
        rw [if_pos own, if_pos mem]
      · have other : o ∉ entry.transaction.outpointsUnder h := by
          intro mem
          refine own (slot.mpr ⟨_, held, ?_⟩)
          rw [Transaction.outpoints, hash]
          exact mem
        rw [if_neg own, if_neg other]

end Remove

end TransactionStorage

omit [Primitives] in
/-- The conflicts of a transaction are the pool transactions that spend one of its inputs. -/
theorem mem_findConflicts {storage : TransactionStorage} {tx : Transaction} {h : TransactionHash} :
    h ∈ RbfPolicy.findConflicts tx storage ↔
      ∃ o ∈ tx.spentOutpoints, storage.getSpendingTx o = some h := by
  have loop : ∀ (l : List OutPoint) (conflicts : List TransactionHash),
      h ∈ l.foldl (RbfPolicy.addConflict storage) conflicts ↔
        h ∈ conflicts ∨ ∃ o ∈ l, storage.getSpendingTx o = some h := by
    intro l
    induction l with
    | nil => simp
    | cons o l ih =>
      intro conflicts
      rw [List.foldl_cons, ih, RbfPolicy.addConflict]
      cases found : storage.getSpendingTx o with
      | none => simp [found]
      | some existing =>
        simp only [List.mem_insert_iff, List.mem_cons, exists_eq_or_imp, found, Option.some.injEq]
        constructor
        · rintro ((rfl | old) | later)
          · exact .inr (.inl rfl)
          · exact .inl old
          · exact .inr (.inr later)
        · rintro (old | rfl | later)
          · exact .inl (.inr old)
          · exact .inl (.inl rfl)
          · exact .inr later
  rw [RbfPolicy.findConflicts, loop]
  simp

/-- The affected transactions: the conflicts in the pool and their descendants. -/
theorem mem_affected {conflicts : List TransactionHash} {storage : TransactionStorage}
    {tracker : DependencyTracker} {h : TransactionHash} :
    h ∈ (RbfPolicy.affected conflicts storage tracker).2 ↔
      ∃ conflict ∈ conflicts, storage.find conflict ≠ none ∧
        (h = conflict ∨ h ∈ tracker.getDescendants conflict) := by
  have inner : ∀ (l : List TransactionHash) (state : UInt64 × List TransactionHash),
      h ∈ (l.foldl (RbfPolicy.affectDescendant storage) state).2 ↔ h ∈ state.2 ∨ h ∈ l := by
    intro l
    induction l with
    | nil => simp
    | cons d l ih =>
      intro state
      rw [List.foldl_cons, ih, RbfPolicy.affectDescendant, List.mem_insert_iff, List.mem_cons]
      tauto
  have loop : ∀ (l : List TransactionHash) (state : UInt64 × List TransactionHash),
      h ∈ (l.foldl (RbfPolicy.affect storage tracker) state).2 ↔ h ∈ state.2 ∨
        ∃ conflict ∈ l, storage.find conflict ≠ none ∧
          (h = conflict ∨ h ∈ tracker.getDescendants conflict) := by
    intro l
    induction l with
    | nil => simp
    | cons conflict l ih =>
      intro state
      rw [List.foldl_cons, ih, RbfPolicy.affect]
      cases found : storage.get conflict with
      | none => simp [TransactionStorage.find, found]
      | some entry =>
        simp only [inner, List.mem_insert_iff, List.mem_cons, exists_eq_or_imp,
          TransactionStorage.find, found, Option.map_some, ne_eq, reduceCtorEq, not_false_eq_true,
          true_and]
        rw [or_comm (a := h = conflict), or_assoc, or_assoc, or_assoc]
  rw [RbfPolicy.affected, loop]
  simp

end Storage

namespace MemPool

variable [Primitives] [Floats] {pool pool' : MemPool} {tx : Transaction} {now : UInt64}

/-- The transaction that the pool holds under a hash. -/
def find (pool : MemPool) (h : TransactionHash) : Option Transaction := pool.storage.find h

/-- What is found is listed. -/
theorem mem_pairs_of_find {h : TransactionHash} (found : pool.find h = some tx) :
    (h, tx) ∈ pool.storage.transactions.toPairs.map fun e => (e.1, e.2.transaction) := by
  obtain ⟨entry, read, rfl⟩ := Option.map_eq_some_iff.mp found
  exact List.mem_map.mpr ⟨(h, entry), Table.mem_toPairs.mpr read, rfl⟩

/-- The transactions that an admission evicts, in the order in which they go. -/
def evictions (pool : MemPool) (tx : Transaction) : List TransactionHash :=
  RbfPolicy.byDepth pool.dependencyTracker
    (RbfPolicy.affected (RbfPolicy.findConflicts tx pool.storage) pool.storage
      pool.dependencyTracker).2

/-- The removal of a list of transactions, one by one. -/
def removeAll (pool : MemPool) (txs : List TransactionHash) : MemPool :=
  txs.foldl removeStoredTransaction pool

theorem mem_evictions {h : TransactionHash} :
    h ∈ pool.evictions tx ↔ ∃ conflict ∈ RbfPolicy.findConflicts tx pool.storage,
      pool.find conflict ≠ none ∧
        (h = conflict ∨ h ∈ pool.dependencyTracker.getDescendants conflict) := by
  rw [evictions, RbfPolicy.byDepth, List.mem_mergeSort, mem_iter, mem_affected]
  rfl

theorem evictions_of_no_conflict (none' : (RbfPolicy.findConflicts tx pool.storage).isEmpty) :
    pool.evictions tx = [] := by
  rw [List.isEmpty_iff] at none'
  simp [evictions, RbfPolicy.byDepth, none', RbfPolicy.affected]

theorem foldl_evict (l : List TransactionHash) (pool : MemPool) :
    l.foldl RbfPolicy.evict (pool.storage, pool.dependencyTracker) =
      ((pool.removeAll l).storage, (pool.removeAll l).dependencyTracker) ∧
    (pool.removeAll l).config = pool.config := by
  induction l generalizing pool with
  | nil => exact ⟨rfl, rfl⟩
  | cons h l ih => exact ih (pool.removeStoredTransaction h)

/-- The two outcomes of `add_transaction`: an error leaves the pool as it was, and an admission
evicts the conflicts with their descendants before it stores the transaction. -/
theorem addTransaction_cases (pool : MemPool) (lookup : UtxoLookup) (now : UInt64)
    (tx : Transaction) :
    (∃ e, pool.addTransaction lookup now tx = (.error e, pool)) ∨
    ∃ utxos, pool.find tx.data.hash = none ∧
      (MempoolTxValidator.validate lookup tx pool.storage = .ok utxos ∨
        MempoolTxValidator.validate lookup tx pool.storage = .error (.potentialRbf utxos)) ∧
      pool.addTransaction lookup now tx = (.ok (),
        (pool.removeAll (pool.evictions tx)).store now tx (pool.actualFee tx utxos)) := by
  have admission : ∀ utxos, (∃ e, pool.admitResolved now tx utxos = (.error e, pool)) ∨
      pool.admitResolved now tx utxos = (.ok (),
        (pool.removeAll (pool.evictions tx)).store now tx (pool.actualFee tx utxos)) := by
    intro utxos
    unfold admitResolved
    dsimp only
    split
    · rename_i none'
      rw [evictions_of_no_conflict none']
      exact .inr rfl
    · rename_i conflicts
      split
      · exact .inl ⟨_, rfl⟩
      · -- the fee is compared before anything is removed
        unfold RbfPolicy.resolveConflicts
        rw [if_neg conflicts]
        dsimp only
        split_ifs
        · exact .inl ⟨_, rfl⟩
        · obtain ⟨evicted, config⟩ := foldl_evict (pool.evictions tx) pool
          refine .inr ?_
          unfold evictions at evicted
          rw [evicted]
          dsimp only
          rw [← config]
          rfl
  unfold addTransaction
  split
  · exact .inl ⟨_, rfl⟩
  · rename_i new
    have absent : pool.find tx.data.hash = none :=
      TransactionStorage.exists_eq_false.mp (by simpa using new)
    split
    · exact .inl ⟨_, rfl⟩
    · split
      · rename_i utxos valid
        rcases admission utxos with failed | done
        · exact .inl failed
        · exact .inr ⟨utxos, absent, .inl valid, done⟩
      · rename_i utxos valid
        rcases admission utxos with failed | done
        · exact .inl failed
        · exact .inr ⟨utxos, absent, .inr valid, done⟩
      · exact .inl ⟨_, rfl⟩
      · exact .inl ⟨_, rfl⟩

theorem get_removeAll (l : List TransactionHash) (h : TransactionHash) :
    (pool.removeAll l).storage.get h = if h ∈ l then none else pool.storage.get h := by
  induction l generalizing pool with
  | nil => simp [removeAll]
  | cons h' l ih =>
    change ((pool.removeStoredTransaction h').removeAll l).storage.get h = _
    rw [ih, removeStoredTransaction, TransactionStorage.get_remove]
    by_cases same : h = h'
    · subst same
      simp
    · simp [same]

theorem find_removeAll (l : List TransactionHash) (h : TransactionHash) :
    (pool.removeAll l).find h = if h ∈ l then none else pool.find h := by
  rw [find, TransactionStorage.find, get_removeAll]
  split <;> rfl

theorem get_store (fee : UInt64) : (pool.store now tx fee).storage.get =
    Function.update pool.storage.get tx.data.hash (some ⟨tx, now, fee, tx.serializedSize⟩) :=
  TransactionStorage.get_insert fee now

theorem find_store (fee : UInt64) :
    (pool.store now tx fee).find = Function.update pool.find tx.data.hash (some tx) :=
  TransactionStorage.find_insert fee now

theorem indexed_removeAll (indexed : pool.storage.Indexed) (l : List TransactionHash) :
    (pool.removeAll l).storage.Indexed := by
  induction l generalizing pool with
  | nil => exact indexed
  | cons h l ih => exact ih (indexed.remove h)

/-- After the evictions nothing in the pool spends an input of the new transaction. -/
theorem free_after_evictions (indexed : pool.storage.Indexed) {o : OutPoint}
    (input : o ∈ tx.spentOutpoints) :
    (pool.removeAll (pool.evictions tx)).storage.getSpendingTx o = none := by
  cases found : (pool.removeAll (pool.evictions tx)).storage.getSpendingTx o with
  | none => rfl
  | some h =>
    obtain ⟨tx', held, input'⟩ := ((indexed_removeAll indexed _).spending o h).mp found
    change (pool.removeAll (pool.evictions tx)).find h = some tx' at held
    rw [find_removeAll] at held
    split at held
    · cases held
    · rename_i stays
      have conflict : h ∈ RbfPolicy.findConflicts tx pool.storage :=
        mem_findConflicts.mpr ⟨o, input, (indexed.spending o h).mpr ⟨tx', held, input'⟩⟩
      have present : pool.find h ≠ none := by simp [held]
      exact absurd (mem_evictions.mpr ⟨h, conflict, present, .inl rfl⟩) stays

/-- An admission keeps the mirror. -/
theorem indexed_admission (indexed : pool.storage.Indexed) (new : pool.find tx.data.hash = none)
    (now fee : UInt64) :
    ((pool.removeAll (pool.evictions tx)).store now tx fee).storage.Indexed := by
  apply TransactionStorage.Indexed.insert fee now (indexed_removeAll indexed _)
  · change (pool.removeAll (pool.evictions tx)).find _ = none
    rw [find_removeAll, new, ite_self]
  · intro o input
    exact free_after_evictions indexed input

/-- A removal with descendants is a list of single removals. -/
theorem removeTransaction_eq (pool : MemPool) (h : TransactionHash) :
    pool.removeTransaction h =
      pool.removeAll (pool.dependencyTracker.getDescendants h ++ [h]) := by
  simp [removeTransaction, removeAll]

theorem updateOnBlock_eq (pool : MemPool) (block : BlockData) :
    pool.updateOnBlock block =
      pool.removeAll (block.transactions.map fun tx => tx.data.hash) := by
  rw [updateOnBlock, removeAll, List.foldl_map]

/-- Every call but an admission is a list of single removals. -/
theorem call_cases (pool : MemPool) (call : Call) :
    (∃ l, pool.call call = pool.removeAll l) ∨
    ∃ lookup now tx utxos, call = .addTransaction lookup now tx ∧
      pool.find tx.data.hash = none ∧
      (MempoolTxValidator.validate lookup tx pool.storage = .ok utxos ∨
        MempoolTxValidator.validate lookup tx pool.storage = .error (.potentialRbf utxos)) ∧
      pool.call call =
        (pool.removeAll (pool.evictions tx)).store now tx (pool.actualFee tx utxos) := by
  cases call with
  | addTransaction lookup now tx =>
    rcases pool.addTransaction_cases lookup now tx with ⟨e, failed⟩ | ⟨utxos, new, valid, done⟩
    · exact .inl ⟨[], by rw [MemPool.call, failed]; rfl⟩
    · exact .inr ⟨lookup, now, tx, utxos, rfl, new, valid, by rw [MemPool.call, done]⟩
  | removeTransaction h => exact .inl ⟨_, removeTransaction_eq pool h⟩
  | updateOnBlock block => exact .inl ⟨_, updateOnBlock_eq pool block⟩
  | cleanupExpired now =>
    left
    have loop : ∀ (l : List TransactionHash) (pool : MemPool),
        ∃ l', l.foldl removeTransaction pool = pool.removeAll l' := by
      intro l
      induction l with
      | nil => exact fun pool => ⟨[], rfl⟩
      | cons h l ih =>
        intro pool
        obtain ⟨l', rest⟩ := ih (pool.removeTransaction h)
        refine ⟨pool.dependencyTracker.getDescendants h ++ [h] ++ l', ?_⟩
        rw [List.foldl_cons, rest, removeTransaction_eq]
        simp [removeAll]
    exact loop _ pool

/-- The configuration stays as it is. -/
theorem config_call (pool : MemPool) (call : Call) : (pool.call call).config = pool.config := by
  rcases pool.call_cases call with ⟨l, removed⟩ | ⟨lookup, now, tx, utxos, -, -, -, stored⟩
  · rw [removed]
    exact (foldl_evict l pool).2
  · rw [stored]
    exact (foldl_evict _ pool).2

/-- A call keeps the mirror. -/
theorem indexed_call (indexed : pool.storage.Indexed) (call : Call) :
    (pool.call call).storage.Indexed := by
  rcases pool.call_cases call with ⟨l, removed⟩ | ⟨lookup, now, tx, utxos, -, new, -, stored⟩
  · rw [removed]
    exact indexed_removeAll indexed l
  · rw [stored]
    exact indexed_admission indexed new now _

/-- Every sequence of calls keeps the mirror. -/
theorem indexed_run (indexed : pool.storage.Indexed) (calls : List Call) :
    (pool.run calls).storage.Indexed := by
  induction calls generalizing pool with
  | nil => exact indexed
  | cons call calls ih => exact ih (indexed_call indexed call)

/-- In every pool reached from the empty one by any sequence of calls, whatever the lookups
answer, both indexes mirror the stored transactions, no outpoint is spent twice, and an admission
that fails changes nothing. -/
theorem indexes_exact (config : MemPoolConfig) (calls : List Call) :
    ((new config).run calls).storage.Indexed ∧
    (∀ h tx h' tx' o, ((new config).run calls).find h = some tx →
      ((new config).run calls).find h' = some tx' → o ∈ tx.spentOutpoints →
      o ∈ tx'.spentOutpoints → h = h') ∧
    ∀ lookup now tx e pool', ((new config).run calls).addTransaction lookup now tx =
      (.error e, pool') → pool' = (new config).run calls := by
  have indexed : ((new config).run calls).storage.Indexed :=
    indexed_run TransactionStorage.indexed_empty calls
  refine ⟨indexed, fun h tx h' tx' o first second input input' => ?_, ?_⟩
  · exact indexed.spender_unique first second input input'
  · intro lookup now tx e pool' failed
    rcases addTransaction_cases ((new config).run calls) lookup now tx with
      ⟨_, same⟩ | ⟨_, -, -, done⟩
    · rw [same] at failed
      exact (Prod.mk.inj failed).2.symm
    · rw [done] at failed
      cases (Prod.mk.inj failed).1

end MemPool

end StryiChain
