import StryiChain.Mempool.Selection
import StryiChain.Misc.Runs

/-!
# Where the inputs of the pool come from

An admission resolves its inputs before it evicts anything. Over a fixed UTXO set, every input
of the pool stays in that set or an output of the pool as long as no admitted transaction takes an
input from one that it displaces.
-/

namespace StryiChain

open Relation

section Parents

variable [Primitives] [Floats] {pool : MemPool} {U : Coins} {tx : Transaction}

/-- The lookup answers from a UTXO set. -/
def AnswersFrom (U : Coins) (lookup : UtxoLookup) : Prop :=
  ∀ outpoints answer, lookup outpoints = .ok answer → ∀ o ∈ outpoints, answer.read o = U o

namespace MemPool

/-- The calls over a fixed UTXO set: no block arrives, and every lookup answers from the set. -/
def Call.On (U : Coins) : Call → Prop
  | .addTransaction lookup _ _ => AnswersFrom U lookup
  | .updateOnBlock _ => False
  | _ => True

/-- Every input of a pool transaction is in the UTXO set or an output of the pool. -/
def Anchored (U : Coins) (pool : MemPool) : Prop :=
  ∀ c child, pool.find c = some child → ∀ o ∈ child.spentOutpoints,
    U o ≠ none ∨ ∃ p parent, pool.find p = some parent ∧ o ∈ parent.outpoints

/-- The call evicts no transaction whose output the transaction that it admits spends. -/
def KeepsParents (pool : MemPool) (call : Call) : Prop :=
  ∀ lookup now tx, call = .addTransaction lookup now tx →
    (pool.addTransaction lookup now tx).1 = .ok () → ∀ o ∈ tx.spentOutpoints,
      ∀ p parent, pool.find p = some parent → o ∈ parent.outpoints → (pool.call call).find p ≠ none

/-- An admitted transaction displaces no pool transaction that creates an input of its that the
UTXO set does not have. -/
def SparesParents (U : Coins) (pool : MemPool) (call : Call) : Prop :=
  ∀ lookup now tx, call = .addTransaction lookup now tx →
    (pool.addTransaction lookup now tx).1 = .ok () → ∀ o ∈ tx.spentOutpoints, U o = none →
      ∀ p parent, pool.find p = some parent → o ∈ parent.outpoints → ¬ pool.Displaces tx p

/-- Every input that is not in the UTXO set comes over an edge of the tracker. -/
def Linked (U : Coins) (pool : MemPool) : Prop :=
  ∀ c child, pool.find c = some child → ∀ o ∈ child.spentOutpoints, U o ≠ none ∨
    ∃ p parent, pool.find p = some parent ∧ o ∈ parent.outpoints ∧
      pool.dependencyTracker.graph.Arrow p c

theorem Linked.anchored (linked : pool.Linked U) : pool.Anchored U := by
  intro c child held o input
  rcases linked c child held o input with inside | ⟨p, parent, found, output, -⟩
  · exact .inl inside
  · exact .inr ⟨p, parent, found, output⟩

section Remove

/-- A list of removals that takes the tracked children along. -/
def ClosedBelow (pool : MemPool) (l : List TransactionHash) : Prop :=
  ∀ p c, pool.dependencyTracker.graph.Arrow p c → p ∈ l → c ∈ l

theorem Linked.removeAll (linked : pool.Linked U) (tracked : pool.Tracked)
    {l : List TransactionHash} (closed : pool.ClosedBelow l) : (pool.removeAll l).Linked U := by
  intro c child held o input
  rw [find_removeAll] at held
  split at held
  · cases held
  · rename_i stays
    rcases linked c child held o input with inside | ⟨p, parent, found, output, arrow⟩
    · exact .inl inside
    · have parentStays : p ∉ l := fun gone => stays (closed p c arrow gone)
      refine .inr ⟨p, parent, ?_, output, ?_⟩
      · rw [find_removeAll, if_neg parentStays, found]
      · exact ((tracker_removeAll tracked.consistent l).2.2 p c).mpr ⟨arrow, parentStays, stays⟩

theorem closedBelow_descendants (consistent : pool.dependencyTracker.Consistent)
    (h : TransactionHash) :
    pool.ClosedBelow (pool.dependencyTracker.getDescendants h ++ [h]) := by
  intro p c arrow gone
  rw [List.mem_append, List.mem_singleton, consistent.mem_getDescendants] at gone ⊢
  rcases gone with below | rfl
  · exact .inl (below.tail arrow)
  · exact .inl (.single arrow)

theorem closedBelow_evictions (indexed : pool.storage.Indexed)
    (consistent : pool.dependencyTracker.Consistent) :
    pool.ClosedBelow (pool.evictions tx) := by
  intro p c arrow gone
  rw [mem_evictions_displaces indexed consistent] at gone ⊢
  obtain ⟨r, conflict, held, shared, reached⟩ := gone
  exact ⟨r, conflict, held, shared, reached.tail arrow⟩

theorem Linked.removeTransaction (linked : pool.Linked U) (tracked : pool.Tracked)
    (h : TransactionHash) : (pool.removeTransaction h).Linked U := by
  rw [removeTransaction_eq]
  exact linked.removeAll tracked (closedBelow_descendants tracked.consistent h)

theorem Linked.removeTransactions (l : List TransactionHash) (linked : pool.Linked U)
    (tracked : pool.Tracked) : (l.foldl MemPool.removeTransaction pool).Linked U := by
  induction l generalizing pool with
  | nil => exact linked
  | cons h l ih =>
    have after : (pool.removeTransaction h).Tracked := by
      rw [removeTransaction_eq]
      exact tracked.removeAll _
    exact ih (linked.removeTransaction tracked h) after

end Remove

section Add

open MempoolTxValidator

omit [Primitives] [Floats] in
/-- Inputs that the pool does not create are answered from the UTXO set. -/
theorem externalUtxos_answers {lookup : UtxoLookup} {storage : TransactionStorage}
    {external : Table OutPoint UTXO} (answers : AnswersFrom U lookup)
    (answer : externalUtxos lookup tx storage = .ok external) {o : OutPoint}
    (input : o ∈ tx.spentOutpoints) (outside : storage.getCreatingTx o = none) :
    external.read o = U o := by
  have mem : o ∈ externalInputs tx storage := by
    simp [externalInputs, input, outside]
  have some' : ¬ (externalInputs tx storage).isEmpty := by
    rw [List.isEmpty_iff]
    exact List.ne_nil_of_mem mem
  rw [externalUtxos, if_neg some', mapError_eq_ok] at answer
  exact answers _ _ answer o mem

/-- An input of an admitted transaction is in the UTXO set, or the pool creates it. -/
theorem admitted_input (indexed : pool.storage.Indexed) {lookup : UtxoLookup} {utxos : List UTXO}
    (answers : AnswersFrom U lookup)
    (passed : validate lookup tx pool.storage = .ok utxos ∨
      validate lookup tx pool.storage = .error (.potentialRbf utxos)) {o : OutPoint}
    (input : o ∈ tx.spentOutpoints) :
    U o ≠ none ∨ ∃ p parent, pool.find p = some parent ∧ o ∈ parent.outpoints := by
  obtain ⟨external, answer, admissible⟩ := validate_admissible passed
  cases created : pool.storage.getCreatingTx o with
  | some p => exact .inr ⟨p, (indexed.creating o p).mp created⟩
  | none =>
    left
    obtain ⟨utxo, found, -⟩ := admissible.owned o input
    rw [poolView_external created, externalUtxos_answers answers answer input created] at found
    simp [found]

/-- A transaction that spares its parents finds them in the pool that it is stored in. -/
theorem Linked.admission (linked : pool.Linked U) (indexed : pool.storage.Indexed)
    (tracked : pool.Tracked) (new : pool.find tx.data.hash = none)
    (resolved : ∀ o ∈ tx.spentOutpoints,
      U o ≠ none ∨ ∃ p parent, pool.find p = some parent ∧ o ∈ parent.outpoints)
    (spares : ∀ o ∈ tx.spentOutpoints, U o = none → ∀ p parent, pool.find p = some parent →
      o ∈ parent.outpoints → ¬ pool.Displaces tx p) (now fee : UInt64) :
    ((pool.removeAll (pool.evictions tx)).store now tx fee).Linked U := by
  have before : (pool.removeAll (pool.evictions tx)).Linked U :=
    linked.removeAll tracked (closedBelow_evictions indexed tracked.consistent)
  have ready := ready_admission indexed tracked new
  obtain ⟨-, -, arrows⟩ := ready.store_arrow now fee
  have stored : ((pool.removeAll (pool.evictions tx)).store now tx fee).find =
      Function.update (pool.removeAll (pool.evictions tx)).find tx.data.hash (some tx) :=
    find_store fee
  -- what was in the pool before is still there under its hash
  have kept : ∀ p parent, (pool.removeAll (pool.evictions tx)).find p = some parent →
      ((pool.removeAll (pool.evictions tx)).store now tx fee).find p = some parent := by
    intro p parent found
    have other : p ≠ tx.data.hash := by
      rintro rfl
      rw [ready.new] at found
      cases found
    rw [stored, Function.update_of_ne other, found]
  intro c child held o input
  rw [stored] at held
  by_cases same : c = tx.data.hash
  · subst same
    rw [Function.update_self, Option.some.injEq] at held
    subst held
    rcases resolved o input with inside | ⟨p, parent, found, output⟩
    · exact .inl inside
    · by_cases inside : U o = none
      · right
        have stays : p ∉ pool.evictions tx := by
          rw [mem_evictions_displaces indexed tracked.consistent]
          exact spares o input inside p parent found output
        have here : ((pool.removeAll (pool.evictions tx)).store now tx fee).find p = some parent :=
          kept p parent (by rw [find_removeAll, if_neg stays, found])
        refine ⟨p, parent, here, output, (arrows p _).mpr (.inr ⟨rfl, ?_⟩)⟩
        exact ⟨parent, tx, here, by rw [stored, Function.update_self], o, input, output⟩
      · exact .inl inside
  · rw [Function.update_of_ne same] at held
    rcases before c child held o input with inside | ⟨p, parent, found, output, arrow⟩
    · exact .inl inside
    · exact .inr ⟨p, parent, kept p parent found, output, (arrows p c).mpr (.inl arrow)⟩

/-- A parent that is not evicted is still there after the admission, and an evicted one is not. -/
theorem find_admission (indexed : pool.storage.Indexed) (tracked : pool.Tracked)
    (new : pool.find tx.data.hash = none) {p : TransactionHash} {parent : Transaction}
    (found : pool.find p = some parent) (now fee : UInt64) :
    ((pool.removeAll (pool.evictions tx)).store now tx fee).find p = none ↔
      pool.Displaces tx p := by
  have other : p ≠ tx.data.hash := by
    rintro rfl
    rw [new] at found
    cases found
  rw [find_store, Function.update_of_ne other, find_removeAll,
    ← mem_evictions_displaces indexed tracked.consistent, found]
  simp

end Add

section Step

/-- One call over the UTXO set keeps the links if it spares the parents. -/
theorem Linked.call (linked : pool.Linked U) (indexed : pool.storage.Indexed)
    (tracked : pool.Tracked) {call : Call} (on : call.On U) (spares : pool.SparesParents U call) :
    (pool.call call).Linked U := by
  cases call with
  | addTransaction lookup now tx =>
    rw [MemPool.call]
    rcases pool.addTransaction_cases lookup now tx with ⟨e, failed⟩ | ⟨utxos, new, passed, done⟩
    · rw [failed]
      exact linked
    · rw [done]
      refine linked.admission indexed tracked new (fun o => admitted_input indexed on passed) ?_ _ _
      exact spares lookup now tx rfl (by rw [done])
  | removeTransaction h => exact linked.removeTransaction tracked h
  | updateOnBlock block => exact on.elim
  | cleanupExpired now => exact linked.removeTransactions _ tracked

/-- A call that leaves every input anchored has spared the parents. -/
theorem SparesParents.of_anchored (indexed : pool.storage.Indexed) (tracked : pool.Tracked)
    {call : Call} (anchored : (pool.call call).Anchored U) : pool.SparesParents U call := by
  rintro lookup now tx rfl admitted o input outside p parent found output displaced
  have indexed' := indexed_call indexed (.addTransaction lookup now tx)
  rw [MemPool.call] at anchored indexed'
  rcases pool.addTransaction_cases lookup now tx with ⟨e, failed⟩ | ⟨utxos, new, -, done⟩
  · rw [failed] at admitted
    cases admitted
  rw [done] at anchored indexed'
  have own : ((pool.removeAll (pool.evictions tx)).store now tx (pool.actualFee tx utxos)).find
      tx.data.hash = some tx := by
    rw [find_store, Function.update_self]
  have gone := (find_admission indexed tracked new found now (pool.actualFee tx utxos)).mpr displaced
  rcases anchored _ tx own o input with inside | ⟨p', parent', found', output'⟩
  · exact inside outside
  · -- an outpoint names the transaction that creates it
    have same : p' = p := by
      rw [← indexed'.keyed p' parent' found', ← Transaction.txid_of_mem_outpoints output',
        Transaction.txid_of_mem_outpoints output, indexed.keyed p parent found]
    subst same
    rw [gone] at found'
    cases found'

/-- To keep the parents is to spare them, whatever the UTXO set has. -/
theorem keepsParents_iff (indexed : pool.storage.Indexed) (tracked : pool.Tracked) (call : Call) :
    pool.KeepsParents call ↔ pool.SparesParents (fun _ => none) call := by
  unfold KeepsParents SparesParents
  refine forall_congr' fun lookup => forall_congr' fun now => forall_congr' fun tx => ?_
  refine imp_congr_right fun isAdd => imp_congr_right fun admitted => ?_
  subst isAdd
  rw [MemPool.call]
  rcases pool.addTransaction_cases lookup now tx with ⟨e, failed⟩ | ⟨utxos, new, -, done⟩
  · rw [failed] at admitted
    cases admitted
  rw [done]
  constructor
  · intro keeps o input _ p parent found output displaced
    exact keeps o input p parent found output
      ((find_admission indexed tracked new found now _).mpr displaced)
  · intro spares o input p parent found output gone
    exact spares o input rfl p parent found output
      ((find_admission indexed tracked new found now _).mp gone)

end Step

/-- What the calls over a fixed UTXO set keep. -/
structure Rooted (U : Coins) (pool : MemPool) : Prop where
  indexed : pool.storage.Indexed
  tracked : pool.Tracked
  linked : pool.Linked U

theorem rooted_new (config : MemPoolConfig) : (new config).Rooted U where
  indexed := TransactionStorage.indexed_empty
  tracked := tracked_new config
  linked c child found := by
    simp [new, find, TransactionStorage.find, TransactionStorage.get, TransactionStorage.empty]
      at found

theorem Rooted.call (rooted : pool.Rooted U) {call : Call} (on : call.On U)
    (spares : pool.SparesParents U call) : (pool.call call).Rooted U where
  indexed := indexed_call rooted.indexed call
  tracked := tracked_call rooted.indexed rooted.tracked call
  linked := rooted.linked.call rooted.indexed rooted.tracked on spares

/-- Over a fixed UTXO set, every input of the pool is in the set or an output of the pool in every
state of a run exactly when every admitted transaction spares the parents that the set does not
replace; and no admission evicts a parent of its transaction exactly when all parents are
spared. -/
theorem parents_kept_iff (config : MemPoolConfig) (U : Coins) (calls : List Call)
    (on : ∀ call ∈ calls, call.On U) :
    ((∀ n, ((new config).run (calls.take n)).Anchored U) ↔
      Throughout MemPool.call (SparesParents U) (new config) calls) ∧
    ((∀ n call, calls[n]? = some call → ((new config).run (calls.take n)).KeepsParents call) ↔
      Throughout MemPool.call (SparesParents fun _ => none) (new config) calls) := by
  have needed : ∀ (pool : MemPool) call, pool.Rooted U → call.On U →
      (pool.call call).Anchored U → pool.SparesParents U call :=
    fun pool call rooted _ anchored =>
      SparesParents.of_anchored rooted.indexed rooted.tracked anchored
  have enough : ∀ (pool : MemPool) call, pool.Rooted U → call.On U →
      pool.SparesParents U call → (pool.call call).Rooted U :=
    fun pool call rooted on spares => rooted.call on spares
  refine ⟨?_, ?_⟩
  · exact always_iff (fun pool rooted => rooted.linked.anchored) needed enough (rooted_new config)
      calls on
  · rw [throughout_iff]
    refine forall_congr' fun n => forall_congr' fun call => imp_congr_right fun _ => ?_
    have reachable := reachable_run config (calls.take n)
    exact keepsParents_iff reachable.indexed reachable.tracked call

end MemPool

end Parents

namespace Sample

/-- A coin of the account 7, large enough to pay for a replacement. -/
def purse : OutPoint × UTXO := (⟨⟨1⟩, 0⟩, ⟨⟨1⟩, 0, 100000, ⟨7⟩⟩)

/-- The account 7 moves the coin to itself. -/
def lent : Transaction := payment 7 [purse.1] [⟨100000, ⟨7⟩⟩]

/-- The account 7 spends the coin once more, together with the output of the transaction that
spends it already. -/
def grab : Transaction := payment 7 (purse.1 :: lent.outpoints) [⟨900, ⟨8⟩⟩]

def grabCalls : List MemPool.Call :=
  [.addTransaction (holding [purse]) 0 lent, .addTransaction (holding [purse]) 0 grab]

/-- A lookup from a list answers from the map of the list. -/
theorem holding_answers (entries : List (OutPoint × UTXO)) :
    AnswersFrom (Table.read (Table.insertAll entries ∅)) (holding entries) := by
  intro outpoints answer found o mem
  rw [holding, Except.ok.injEq] at found
  subst found
  rw [Table.read_insertAll, Table.read_insertAll]
  -- an entry that is left out is not asked for
  have kept : ∀ (l : List (OutPoint × UTXO)) (m : Coins),
      putAll (l.filter fun entry => entry.1 ∈ outpoints) m o = putAll l m o := by
    intro l
    induction l with
    | nil => exact fun _ => rfl
    | cons e l ih =>
      intro m
      by_cases asked : e.1 ∈ outpoints
      · rw [List.filter_cons_of_pos (by simpa using asked), putAll_cons, putAll_cons, ih]
      · rw [List.filter_cons_of_neg (by simpa using asked), putAll_cons, ih]
        have other : o ≠ e.1 := fun same => asked (same ▸ mem)
        exact putAll_congr (Function.update_of_ne other _ _).symm
  exact kept entries _

theorem grabCalls_on :
    ∀ call ∈ grabCalls, call.On (Table.read (Table.insertAll [purse] ∅)) := by
  simp [grabCalls, MemPool.Call.On, holding_answers]

end Sample

open Sample in
/-- A replacement is admitted although it spends an output of the transaction that it evicts. -/
theorem replacement_orphans_itself :
    ¬ ∀ (config : MemPoolConfig) (U : Coins) (calls : List MemPool.Call),
      (∀ call ∈ calls, call.On U) → ((MemPool.new config).run calls).Anchored U := by
  intro all
  have anchored := all poolConfig _ grabCalls grabCalls_on
  have held : ((MemPool.new poolConfig).run grabCalls).find grab.data.hash = some grab := by
    decide +kernel
  have gone : ((MemPool.new poolConfig).run grabCalls).find lent.data.hash = none := by
    decide +kernel
  have input : lent.outpoints.head (by decide) ∈ grab.spentOutpoints := by decide +kernel
  rcases anchored _ grab held _ input with inside | ⟨p, parent, found, output⟩
  · exact inside (by decide +kernel)
  · have indexed := (MemPool.indexes_exact poolConfig grabCalls).1
    have same : p = lent.data.hash := by
      rw [← indexed.keyed p parent found, ← Transaction.txid_of_mem_outpoints output]
      decide +kernel
    rw [same, gone] at found
    cases found

open Sample in
theorem parents_kept_sample :
    ((∀ n, ((MemPool.new poolConfig).run (grabCalls.take n)).Anchored
        (Table.read (Table.insertAll [purse] ∅))) ↔
      Throughout MemPool.call (MemPool.SparesParents (Table.read (Table.insertAll [purse] ∅)))
        (MemPool.new poolConfig) grabCalls) ∧
    ((∀ n call, grabCalls[n]? = some call →
        ((MemPool.new poolConfig).run (grabCalls.take n)).KeepsParents call) ↔
      Throughout MemPool.call (MemPool.SparesParents fun _ => none)
        (MemPool.new poolConfig) grabCalls) :=
  MemPool.parents_kept_iff poolConfig _ grabCalls grabCalls_on

end StryiChain
