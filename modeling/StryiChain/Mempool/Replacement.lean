import StryiChain.Mempool.Parents

/-!
# What a replacement pays

The pool records the larger of the fee that the policy asks for and the fee that is paid, and
compares recorded fees when a transaction replaces others. What is paid is kept in accounts beside
the pool. A replacement that pays at least what the policy asks for pays more than everything that
it evicts.
-/

namespace StryiChain

section Replacement

variable [Primitives]

/-- The fee that is recorded for a pool transaction. -/
def TransactionStorage.recordedFee (storage : TransactionStorage) (h : TransactionHash) : Nat :=
  match storage.get h with
  | some entry => entry.fee.toNat
  | none => 0

section Total

variable {storage : TransactionStorage} {tracker : DependencyTracker}
  {state : UInt64 × List TransactionHash}

/-- The affected transactions are distinct, and the total covers their recorded fees as far as it
can. -/
structure Covers (storage : TransactionStorage) (state : UInt64 × List TransactionHash) : Prop where
  distinct : state.2.Nodup
  total : min ((state.2.map storage.recordedFee).sum) (2 ^ 64 - 1) ≤ state.1.toNat

omit [Primitives] in
/-- A total that grows by the recorded fee covers one more transaction. -/
theorem Covers.insert (covers : Covers storage state) {h : TransactionHash} {total : UInt64}
    (grows : min (state.1.toNat + storage.recordedFee h) (2 ^ 64 - 1) ≤ total.toNat) :
    Covers storage (total, List.insert h state.2) := by
  have before := covers.total
  have bound := state.1.toNat_lt
  refine ⟨covers.distinct.insert, ?_⟩
  by_cases old : h ∈ state.2
  · rw [List.insert_of_mem old]
    dsimp only
    omega
  · rw [List.insert_of_not_mem old]
    dsimp only
    rw [List.map_cons, List.sum_cons]
    omega

omit [Primitives] in
theorem Covers.descendant (covers : Covers storage state) (h : TransactionHash) :
    Covers storage (RbfPolicy.affectDescendant storage state h) := by
  refine covers.insert ?_
  have bound := state.1.toNat_lt
  rw [TransactionStorage.recordedFee]
  cases storage.get h with
  | some entry => exact (saturatingAdd_toNat state.1 entry.fee).ge
  | none => show min (state.1.toNat + 0) (2 ^ 64 - 1) ≤ state.1.toNat; omega

theorem Covers.conflict (covers : Covers storage state) (h : TransactionHash) :
    Covers storage (RbfPolicy.affect storage tracker state h) := by
  unfold RbfPolicy.affect
  split
  · exact covers
  · rename_i entry stored
    refine List.foldlRecOn _ _ (covers.insert ?_) fun state covers h _ => covers.descendant h
    rw [TransactionStorage.recordedFee, stored]
    exact (saturatingAdd_toNat state.1 entry.fee).ge

theorem affected_covers (conflicts : List TransactionHash) (storage : TransactionStorage)
    (tracker : DependencyTracker) :
    Covers storage (RbfPolicy.affected conflicts storage tracker) := by
  unfold RbfPolicy.affected
  refine List.foldlRecOn _ _ ⟨List.nodup_nil, ?_⟩ fun state covers h _ =>
    Covers.conflict covers h
  simp

end Total

variable [Floats]

namespace MemPool

variable {pool : MemPool} {tx : Transaction} {lookup : UtxoLookup} {now : UInt64}

/-- What the inputs of a transaction resolve to, if it passes the checks. -/
def inputUtxos (pool : MemPool) (lookup : UtxoLookup) (tx : Transaction) : List UTXO :=
  match MempoolTxValidator.validate lookup tx pool.storage with
  | .ok utxos => utxos
  | .error (.potentialRbf utxos) => utxos
  | .error _ => []

/-- The sum of the inputs. -/
def inputTotal (pool : MemPool) (lookup : UtxoLookup) (tx : Transaction) : Nat :=
  ((pool.inputUtxos lookup tx).map fun utxo => utxo.value.toNat).sum

/-- The fee that a transaction pays: the sum of its inputs without the sum of its outputs. -/
def feePaid (pool : MemPool) (lookup : UtxoLookup) (tx : Transaction) : Nat :=
  pool.inputTotal lookup tx - tx.outputTotal

/-- The total of the recorded fees that a replacement is compared with. -/
def conflictTotal (pool : MemPool) (tx : Transaction) : UInt64 :=
  (RbfPolicy.affected (RbfPolicy.findConflicts tx pool.storage) pool.storage
    pool.dependencyTracker).1

/-- The recorded fees of the evicted transactions are in the total. -/
theorem evictions_covered : (pool.evictions tx).Nodup ∧
    min (((pool.evictions tx).map pool.storage.recordedFee).sum) (2 ^ 64 - 1) ≤
      (pool.conflictTotal tx).toNat := by
  have covers := affected_covers (RbfPolicy.findConflicts tx pool.storage) pool.storage
    pool.dependencyTracker
  have perm : (pool.evictions tx).Perm (RbfPolicy.affected
      (RbfPolicy.findConflicts tx pool.storage) pool.storage pool.dependencyTracker).2 :=
    (List.mergeSort_perm _ _).trans (iter_perm _)
  refine ⟨perm.nodup_iff.mpr covers.distinct, ?_⟩
  rw [(perm.map _).sum_eq]
  exact covers.total

/-- An admission that evicts anything records at least the fee that a replacement has to pay. -/
theorem admission_pays (admitted : (pool.addTransaction lookup now tx).1 = .ok ())
    (evicts : pool.evictions tx ≠ []) :
    pool.config.rbfPolicy.conflictFee (RbfPolicy.findConflicts tx pool.storage)
        (pool.conflictTotal tx) Floats.one ≤ pool.actualFee tx (pool.inputUtxos lookup tx) := by
  have conflicts : ¬ (RbfPolicy.findConflicts tx pool.storage).isEmpty :=
    fun none' => evicts (evictions_of_no_conflict none')
  have resolved : ∀ utxos, (pool.admitResolved now tx utxos).1 = .ok () →
      pool.config.rbfPolicy.conflictFee (RbfPolicy.findConflicts tx pool.storage)
        (pool.conflictTotal tx) Floats.one ≤ pool.actualFee tx utxos := by
    intro utxos done
    by_contra low
    have short := UInt64.not_le.mp low
    rw [conflictTotal] at short
    unfold admitResolved RbfPolicy.resolveConflicts at done
    dsimp only at done
    rw [if_neg conflicts, if_neg conflicts, if_pos short] at done
    split at done <;> cases done
  unfold addTransaction at admitted
  unfold inputUtxos
  split at admitted
  · cases admitted
  · split at admitted
    · cases admitted
    · split at admitted
      · rename_i utxos valid
        rw [valid]
        exact resolved utxos admitted
      · rename_i utxos valid
        rw [valid]
        exact resolved utxos admitted
      · cases admitted
      · cases admitted

theorem inputUtxos_eq {utxos : List UTXO}
    (passed : MempoolTxValidator.validate lookup tx pool.storage = .ok utxos ∨
      MempoolTxValidator.validate lookup tx pool.storage = .error (.potentialRbf utxos)) :
    pool.inputUtxos lookup tx = utxos := by
  unfold inputUtxos
  rcases passed with valid | valid <;> rw [valid]

section Fees

/-- The part of the recorded fee that is computed from the inputs and outputs. -/
theorem actualFee_toNat : (pool.actualFee tx (pool.inputUtxos lookup tx)).toNat =
    max (pool.config.feePolicy.calculateFee tx).toNat
      (pool.inputTotal lookup tx % 2 ^ 64 - tx.outputTotal % 2 ^ 64) := by
  have inputs : ((pool.inputUtxos lookup tx).map UTXO.value).map UInt64.toNat =
      (pool.inputUtxos lookup tx).map fun utxo => utxo.value.toNat := List.map_map
  have outputs : (tx.data.outputs.map TransactionOut.value).map UInt64.toNat =
      tx.data.outputs.map fun output => output.value.toNat := List.map_map
  rw [actualFee, UInt64.toNat_max, saturatingSub_toNat, wrappingSum_toNat, wrappingSum_toNat,
    inputs, outputs]
  rfl

/-- Inputs that can be added up are recorded with at least the fee that they pay. -/
theorem feePaid_le_actualFee (fits : pool.inputTotal lookup tx < 2 ^ 64) :
    pool.feePaid lookup tx ≤ (pool.actualFee tx (pool.inputUtxos lookup tx)).toNat := by
  have wrapped := Nat.mod_le tx.outputTotal (2 ^ 64)
  rw [actualFee_toNat, feePaid, Nat.mod_eq_of_lt fits]
  omega

/-- A transaction that pays what the policy asks for is recorded with what it pays at most. -/
theorem actualFee_le_feePaid (fits : tx.outputTotal < 2 ^ 64)
    (pays : (pool.config.feePolicy.calculateFee tx).toNat ≤ pool.feePaid lookup tx) :
    (pool.actualFee tx (pool.inputUtxos lookup tx)).toNat ≤ pool.feePaid lookup tx := by
  have wrapped := Nat.mod_le (pool.inputTotal lookup tx) (2 ^ 64)
  rw [feePaid] at pays ⊢
  rw [actualFee_toNat, Nat.mod_eq_of_lt fits]
  omega

end Fees

/-- The pool, and beside it the sum of the inputs of each transaction at its last admission. -/
structure Accounts where
  pool : MemPool
  inputs : TransactionHash → Nat

namespace Accounts

/-- The accounts of the empty pool. -/
def new (config : MemPoolConfig) : Accounts := ⟨.new config, fun _ => 0⟩

/-- A call; an admission is entered in the accounts. -/
def call (accounts : Accounts) (call : Call) : Accounts where
  pool := accounts.pool.call call
  inputs :=
    match call with
    | .addTransaction lookup now tx =>
        match (accounts.pool.addTransaction lookup now tx).1 with
        | .ok _ =>
            Function.update accounts.inputs tx.data.hash (accounts.pool.inputTotal lookup tx)
        | .error _ => accounts.inputs
    | _ => accounts.inputs

/-- The fee that a pool transaction has paid. -/
def paid (accounts : Accounts) (h : TransactionHash) : Nat :=
  match accounts.pool.find h with
  | some tx => accounts.inputs h - tx.outputTotal
  | none => 0

/-- A transaction that displaces others pays what the policy asks for, and no sum of outputs, of
inputs or of recorded fees that enters the comparison overflows. -/
def PaysInFull (accounts : Accounts) (call : Call) : Prop :=
  ∀ lookup now tx, call = .addTransaction lookup now tx →
    (accounts.pool.addTransaction lookup now tx).1 = .ok () →
    (∃ h, accounts.pool.Displaces tx h) →
      tx.outputTotal < 2 ^ 64 ∧
      (accounts.pool.config.feePolicy.calculateFee tx).toNat ≤ accounts.pool.feePaid lookup tx ∧
      (∀ h, accounts.pool.Displaces tx h → accounts.inputs h < 2 ^ 64) ∧
      ∀ l : List TransactionHash, l.Nodup → (∀ h ∈ l, accounts.pool.Displaces tx h) →
        (l.map accounts.pool.storage.recordedFee).sum < 2 ^ 64 - 1

/-- An admitted transaction pays more than all those together that leave the pool for it. -/
def PaysForEvicted (accounts : Accounts) (call : Call) : Prop :=
  ∀ lookup now tx, call = .addTransaction lookup now tx →
    (accounts.pool.addTransaction lookup now tx).1 = .ok () →
    ∀ evicted : List TransactionHash, evicted ≠ [] → evicted.Nodup →
      (∀ h ∈ evicted, accounts.pool.find h ≠ none ∧ (accounts.pool.call call).find h = none) →
      (evicted.map accounts.paid).sum < accounts.pool.feePaid lookup tx

/-- What the calls keep: recorded fees cover what was paid out of inputs that can be added up. -/
structure Audited (config : MemPoolConfig) (accounts : Accounts) : Prop where
  indexed : accounts.pool.storage.Indexed
  tracked : accounts.pool.Tracked
  config : accounts.pool.config = config
  recorded : ∀ h, accounts.inputs h < 2 ^ 64 →
    accounts.paid h ≤ accounts.pool.storage.recordedFee h

variable {accounts : Accounts} {config : MemPoolConfig}

theorem audited_new (config : MemPoolConfig) : (new config).Audited config where
  indexed := TransactionStorage.indexed_empty
  tracked := tracked_new config
  config := rfl
  recorded h _ := by
    simp [new, MemPool.new, paid, find, TransactionStorage.find, TransactionStorage.get,
      TransactionStorage.empty]

/-- Removals leave the entries of the other transactions as they are. -/
theorem recorded_removeAll {inputs : TransactionHash → Nat} {l : List TransactionHash}
    (recorded : ∀ h, accounts.inputs h < 2 ^ 64 →
      accounts.paid h ≤ accounts.pool.storage.recordedFee h) (h : TransactionHash)
    (same : inputs h = accounts.inputs h) (fits : inputs h < 2 ^ 64) :
    paid ⟨accounts.pool.removeAll l, inputs⟩ h ≤
      (accounts.pool.removeAll l).storage.recordedFee h := by
  rw [same] at fits
  have before := recorded h fits
  unfold paid TransactionStorage.recordedFee at before ⊢
  dsimp only
  rw [find_removeAll, get_removeAll, same]
  split_ifs
  · exact Nat.le_refl 0
  · exact before

/-- An admission is entered with the fee that it records. -/
theorem recorded_admission (recorded : ∀ h, accounts.inputs h < 2 ^ 64 →
      accounts.paid h ≤ accounts.pool.storage.recordedFee h) (l : List TransactionHash)
    (h : TransactionHash)
    (fits : Function.update accounts.inputs tx.data.hash (accounts.pool.inputTotal lookup tx) h <
      2 ^ 64) :
    paid ⟨(accounts.pool.removeAll l).store now tx
        (accounts.pool.actualFee tx (accounts.pool.inputUtxos lookup tx)),
      Function.update accounts.inputs tx.data.hash (accounts.pool.inputTotal lookup tx)⟩ h ≤
    ((accounts.pool.removeAll l).store now tx (accounts.pool.actualFee tx
      (accounts.pool.inputUtxos lookup tx))).storage.recordedFee h := by
  by_cases same : h = tx.data.hash
  · subst same
    rw [Function.update_self] at fits
    unfold paid TransactionStorage.recordedFee
    dsimp only
    rw [find_store, get_store, Function.update_self, Function.update_self, Function.update_self]
    exact feePaid_le_actualFee fits
  · have old := recorded_removeAll (l := l) recorded h (Function.update_of_ne same _ _) fits
    unfold paid TransactionStorage.recordedFee at old ⊢
    dsimp only at old ⊢
    rw [find_store, get_store]
    simpa only [Function.update_of_ne same] using old

theorem Audited.call (audited : accounts.Audited config) (call : Call) :
    (accounts.call call).Audited config where
  indexed := indexed_call audited.indexed call
  tracked := tracked_call audited.indexed audited.tracked call
  config := (config_call accounts.pool call).trans audited.config
  recorded := by
    have removal : ∀ l, accounts.pool.call call = accounts.pool.removeAll l →
        (accounts.call call).inputs = accounts.inputs →
        ∀ h, (accounts.call call).inputs h < 2 ^ 64 →
          (accounts.call call).paid h ≤ (accounts.call call).pool.storage.recordedFee h := by
      intro l removed same h fits
      have after : accounts.call call = ⟨accounts.pool.removeAll l, accounts.inputs⟩ := by
        rw [← removed, ← same]
        rfl
      rw [after] at fits ⊢
      exact recorded_removeAll audited.recorded h rfl fits
    cases call with
    | addTransaction lookup now tx =>
      rw [Accounts.call, MemPool.call]
      rcases accounts.pool.addTransaction_cases lookup now tx with
        ⟨e, failed⟩ | ⟨utxos, -, passed, done⟩
      · rw [failed]
        exact audited.recorded
      · rw [done, ← inputUtxos_eq passed]
        exact recorded_admission audited.recorded _
    | removeTransaction h => exact removal _ (removeTransaction_eq _ h) rfl
    | updateOnBlock block => exact removal _ (updateOnBlock_eq _ block) rfl
    | cleanupExpired now =>
      rcases accounts.pool.call_cases (.cleanupExpired now) with ⟨l, removed⟩ | ⟨_, _, _, _, isAdd, -⟩
      · exact removal l removed rfl
      · cases isAdd

/-- One admission: the fees that were paid by what it evicts are in the total that it is compared
with. -/
theorem Audited.pays (audited : accounts.Audited config)
    (enabled : 1 ≤ config.rbfPolicy.baseFeeDelta.toNat)
    (required : ∀ conflicts fee, min (fee.toNat + config.rbfPolicy.baseFeeDelta.toNat) (2 ^ 64 - 1) ≤
      (config.rbfPolicy.conflictFee conflicts fee Floats.one).toNat)
    {call : Call} (inFull : accounts.PaysInFull call) : accounts.PaysForEvicted call := by
  rintro lookup now tx rfl admitted evicted some' distinct gone
  have displaced : ∀ h ∈ evicted, accounts.pool.Displaces tx h := by
    intro h mem
    obtain ⟨held, left⟩ := gone h mem
    obtain ⟨parent, found⟩ := Option.ne_none_iff_exists'.mp held
    rw [MemPool.call] at left
    rcases accounts.pool.addTransaction_cases lookup now tx with ⟨e, failed⟩ | ⟨utxos, new, -, done⟩
    · rw [failed] at admitted
      cases admitted
    · rw [done] at left
      exact (find_admission audited.indexed audited.tracked new found now _).mp left
  obtain ⟨h, mem⟩ := List.exists_mem_of_ne_nil evicted some'
  obtain ⟨outputs, policy, inputs, bounded⟩ := inFull lookup now tx rfl admitted ⟨h, displaced h mem⟩
  have evictions : ∀ h ∈ evicted, h ∈ accounts.pool.evictions tx := fun h mem =>
    (mem_evictions_displaces audited.indexed audited.tracked.consistent).mpr (displaced h mem)
  have fee := admission_pays admitted (List.ne_nil_of_mem (evictions h mem))
  rw [audited.config, UInt64.le_iff_toNat_le] at fee
  have compared := required (RbfPolicy.findConflicts tx accounts.pool.storage)
    (accounts.pool.conflictTotal tx)
  have covered : min (((accounts.pool.evictions tx).map
      accounts.pool.storage.recordedFee).sum) (2 ^ 64 - 1) ≤
      (accounts.pool.conflictTotal tx).toNat := evictions_covered.2
  have part : (evicted.map accounts.pool.storage.recordedFee).sum ≤
      ((accounts.pool.evictions tx).map accounts.pool.storage.recordedFee).sum := by
    obtain ⟨l, perm, sub⟩ := List.subperm_of_subset distinct evictions
    rw [← (perm.map _).sum_eq]
    exact (sub.map _).sum_le_sum fun _ _ => Nat.zero_le _
  have paid : (evicted.map accounts.paid).sum ≤
      (evicted.map accounts.pool.storage.recordedFee).sum :=
    List.sum_le_sum fun h mem => audited.recorded h (inputs h (displaced h mem))
  have small := bounded evicted distinct displaced
  have real := actualFee_le_feePaid outputs policy
  omega

end Accounts

/-- With replacement enabled, a transaction pays more than everything that it evicts, in every run
in which the displacing transactions pay in full. -/
theorem replacement_pays_more (config : MemPoolConfig)
    (enabled : 1 ≤ config.rbfPolicy.baseFeeDelta.toNat)
    (required : ∀ conflicts fee, min (fee.toNat + config.rbfPolicy.baseFeeDelta.toNat) (2 ^ 64 - 1) ≤
      (config.rbfPolicy.conflictFee conflicts fee Floats.one).toNat) (calls : List Call)
    (along : Throughout Accounts.call Accounts.PaysInFull (Accounts.new config) calls) :
    Throughout Accounts.call Accounts.PaysForEvicted (Accounts.new config) calls :=
  along.strengthen (Accounts.audited_new config)
    (fun _ call audited _ => audited.call call)
    (fun _ _ audited inFull => audited.pays enabled required inFull)

end MemPool

end Replacement

namespace Sample

/-- A factor of at least one does not make a fee smaller. -/
theorem le_ceilMul (fee : UInt64) {factor : Nat} (grows : 100 ≤ factor) :
    fee.toNat ≤ (Floats.ceilMul fee factor).toNat := by
  have bound := fee.toNat_lt
  have scaled : fee.toNat * 100 ≤ fee.toNat * factor := Nat.mul_le_mul_left _ grows
  show fee.toNat ≤
    (UInt64.ofNat (min ((fee.toNat * factor + 99) / 100) (2 ^ 64 - 1))).toNat
  rw [toNat_ofNat_u64 (by omega)]
  omega

/-- The default policy asks for more than the fee that is replaced. -/
theorem poolConfig_required (conflicts : List TransactionHash) (fee : UInt64) :
    min (fee.toNat + poolConfig.rbfPolicy.baseFeeDelta.toNat) (2 ^ 64 - 1) ≤
      (poolConfig.rbfPolicy.conflictFee conflicts fee Floats.one).toNat := by
  rw [← saturatingAdd_toNat]
  refine Nat.le_trans ?_ (le_ceilMul _ (Nat.le_add_right 100 (5 * conflicts.length)))
  refine Nat.le_trans ?_ (le_ceilMul _ (Nat.le_refl 100))
  rw [UInt64.toNat_max]
  exact Nat.le_max_left _ _

/-- A transaction that pays a little more than the policy asks for. -/
def thrift : Transaction := payment 7 [purse.1] [⟨96800, ⟨8⟩⟩]

/-- A transaction with many outputs that pays nothing. -/
def bulky : Transaction :=
  payment 7 [purse.1] (List.replicate 4 ⟨25000, ⟨8⟩⟩)

/-- A transaction that pays for its place. -/
def generous : Transaction := payment 7 [purse.1] [⟨50000, ⟨8⟩⟩]

/-- The accounts once the thrifty transaction is in the pool. -/
def thrifty : MemPool.Accounts :=
  (MemPool.Accounts.new poolConfig).call (.addTransaction (holding [purse]) 0 thrift)

def replacedBy (tx : Transaction) : List MemPool.Call :=
  [.addTransaction (holding [purse]) 0 thrift, .addTransaction (holding [purse]) 0 tx]

theorem admitted_after_thrift {tx : Transaction}
    (passes : ((thrifty.pool.addTransaction (holding [purse]) 0 tx).1.toOption.any
      fun _ => true) = true) :
    (thrifty.pool.addTransaction (holding [purse]) 0 tx).1 = .ok () := by
  obtain ⟨⟨⟩, admitted, -⟩ := exists_ok_of_any passes
  exact admitted

end Sample

open Sample in
/-- A transaction that pays nothing replaces one that pays. -/
theorem replacement_pays_nothing :
    ¬ ∀ (config : MemPoolConfig) (calls : List MemPool.Call),
      1 ≤ config.rbfPolicy.baseFeeDelta.toNat →
      (∀ conflicts fee, min (fee.toNat + config.rbfPolicy.baseFeeDelta.toNat) (2 ^ 64 - 1) ≤
        (config.rbfPolicy.conflictFee conflicts fee Floats.one).toNat) →
      Throughout MemPool.Accounts.call MemPool.Accounts.PaysForEvicted
        (MemPool.Accounts.new config) calls := by
  intro all
  have second : thrifty.PaysForEvicted (.addTransaction (holding [purse]) 0 bulky) :=
    (all poolConfig (replacedBy bulky) (by decide) poolConfig_required).2.1
  have admitted : (thrifty.pool.addTransaction (holding [purse]) 0 bulky).1 = .ok () :=
    admitted_after_thrift (by decide +kernel)
  have pays := second (holding [purse]) 0 bulky rfl admitted [thrift.data.hash] (by simp) (by simp)
    (by decide +kernel)
  have nothing : thrifty.pool.feePaid (holding [purse]) bulky = 0 := by decide +kernel
  rw [nothing] at pays
  exact Nat.not_lt_zero _ pays

namespace Sample

theorem only_thrift {h : TransactionHash} {tx : Transaction}
    (found : thrifty.pool.find h = some tx) : h = thrift.data.hash := by
  have pairs : (thrifty.pool.storage.transactions.toPairs.map
      fun e => (e.1, e.2.transaction)) = [(thrift.data.hash, thrift)] := by decide +kernel
  have mem := MemPool.mem_pairs_of_find found
  rw [pairs, List.mem_singleton] at mem
  exact (Prod.mk.inj mem).1

theorem generous_pays : Throughout MemPool.Accounts.call MemPool.Accounts.PaysInFull
    (MemPool.Accounts.new poolConfig) (replacedBy generous) := by
  have audited : thrifty.Audited poolConfig :=
    (MemPool.Accounts.audited_new poolConfig).call (.addTransaction (holding [purse]) 0 thrift)
  -- what is displaced is in the pool
  have only : ∀ h, thrifty.pool.Displaces generous h → h = thrift.data.hash := by
    rintro h ⟨r, conflict, held, -, path⟩
    rcases Relation.reflTransGen_iff_eq_or_transGen.mp path with rfl | path
    · exact only_thrift held
    · obtain ⟨_, -, last⟩ := Relation.TransGen.tail'_iff.mp path
      obtain ⟨tx, found⟩ := Option.ne_none_iff_exists'.mp
        ((audited.tracked.nodes h).mp last.target)
      exact only_thrift found
  refine ⟨?_, ?_, trivial⟩
  · rintro lookup now tx - - ⟨h, r, conflict, held, -⟩
    simp [MemPool.Accounts.new, MemPool.new, MemPool.find, TransactionStorage.find,
      TransactionStorage.get, TransactionStorage.empty] at held
  · rintro lookup now tx ⟨rfl, rfl, rfl⟩ - -
    refine ⟨by decide +kernel, by decide +kernel, fun h displaced => ?_, fun l distinct all => ?_⟩
    · rw [only h displaced]
      decide +kernel
    · have sub : l ⊆ [thrift.data.hash] := fun h mem =>
        List.mem_singleton.mpr (only h (all h mem))
      obtain ⟨l', perm, part⟩ := List.subperm_of_subset distinct sub
      have le := (part.map thrifty.pool.storage.recordedFee).sum_le_sum fun _ _ => Nat.zero_le _
      rw [(perm.map _).sum_eq] at le
      exact Nat.lt_of_le_of_lt le (by decide +kernel)

end Sample

open Sample in
theorem replacement_pays_sample : Throughout MemPool.Accounts.call
    MemPool.Accounts.PaysForEvicted (MemPool.Accounts.new poolConfig) (replacedBy generous) :=
  MemPool.replacement_pays_more poolConfig (by decide) poolConfig_required (replacedBy generous)
    generous_pays

end StryiChain
