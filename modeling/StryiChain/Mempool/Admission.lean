import StryiChain.Consensus.Threads
import StryiChain.Mempool.Indexes

/-!
# Admission and consensus validity

The pool adds up inputs with saturation and outputs with wrap-around, and does not look for an
input that is named twice; a block is checked with overflow checks and against repetition. What is
admitted and what may be mined agree where none of this matters.
-/

namespace StryiChain

section Admission

variable [Primitives]

open MempoolTxValidator

/-- What an input resolves to, where it resolves. -/
def poolView (storage : TransactionStorage) (external : Table OutPoint UTXO) : Coins := fun o =>
  (resolveInput storage external o).toOption

/-- A transaction passes the checks of the pool. -/
structure PoolAdmissible (storage : TransactionStorage) (external : Table OutPoint UTXO)
    (tx : Transaction) : Prop where
  kind : tx.data.kind = .payment
  signed : Primitives.recoverAuthor tx = some tx.author
  owned : Owned (poolView storage external) tx.author tx.spentOutpoints
  pays : tx.outputTotal % 2 ^ 64 ≤
    min ((poolView storage external).worthAll tx.spentOutpoints) (2 ^ 64 - 1)

variable {storage : TransactionStorage} {external : Table OutPoint UTXO} {tx : Transaction}

omit [Primitives] in
/-- The loop over the inputs: each resolves to an output of the author, and the sum saturates. -/
theorem scanInputs_eq_ok {hash : TransactionHash} {recovered : AccountAddress}
    {l : List (OutPoint × Nat)} {scan scan' : InputScan}
    (run : l.foldlM (scanInput storage external hash recovered) scan = .ok scan') :
    Owned (poolView storage external) recovered (l.map Prod.fst) ∧
      scan'.totalInputValue.toNat = min (scan.totalInputValue.toNat +
        (poolView storage external).worthAll (l.map Prod.fst)) (2 ^ 64 - 1) := by
  induction l generalizing scan with
  | nil =>
    simp only [List.foldlM_nil, pure_eq_ok] at run
    subst run
    have := scan.totalInputValue.toNat_lt
    exact ⟨by simp [Owned], by simp; omega⟩
  | cons input l ih =>
    rw [List.foldlM_cons, bind_eq_ok] at run
    obtain ⟨middle, first, rest⟩ := run
    simp only [scanInput, bind_eq_ok, failIf_eq_ok, pure_eq_ok, not_not] at first
    obtain ⟨utxo, resolves, -, owner, rfl⟩ := first
    have here : poolView storage external input.1 = some utxo := by
      rw [poolView, resolves]
      rfl
    obtain ⟨owned, total⟩ := ih rest
    refine ⟨fun o mem => ?_, ?_⟩
    · rcases List.mem_cons.mp mem with rfl | mem
      · exact ⟨utxo, here, owner⟩
      · exact owned o mem
    · rw [total, saturatingAdd_toNat, List.map_cons, Coins.worthAll_cons,
        Coins.worth_of_some here]
      omega

/-- An error that refuses the transaction, and does not ask for a replacement. -/
def Refusal (e : MempoolValidationError) : Prop := ∀ utxos, e ≠ .potentialRbf utxos

/-- The checks never report a replacement themselves. -/
theorem check_errors (lookup : UtxoLookup) (tx : Transaction) (storage : TransactionStorage) :
    ErrorsIn Refusal (check lookup tx storage) := by
  unfold check
  refine .failIf_bind (by simp [Refusal]) fun _ => ?_
  refine .okOr_bind (by simp [Refusal]) fun recovered _ => ?_
  refine .bind ?_ fun external _ => ?_
  · unfold externalUtxos
    split
    · exact .ok _
    · cases lookup (externalInputs tx storage) with
      | ok utxos => exact .ok _
      | error e => cases e <;> exact .error (by simp [Refusal])
  refine .bind (.foldlM (fun scan input _ => ?_) _) fun scan _ => ?_
  · unfold scanInput
    refine .bind ?_ fun utxo _ => .failIf_bind (by simp [Refusal]) fun _ => .ok _
    unfold resolveInput
    split
    · split
      · dsimp only
        split_ifs
        · exact .ok _
        · exact .error (by simp [Refusal])
      · exact .error (by simp [Refusal])
    · exact .okOr (by simp [Refusal])
  exact .failIf_bind (by simp [Refusal]) fun _ => .ok _

/-- What the checks of the pool establish. -/
theorem check_admissible {lookup : UtxoLookup} {scan : InputScan}
    (passed : check lookup tx storage = .ok scan) :
    ∃ external, externalUtxos lookup tx storage = .ok external ∧
      PoolAdmissible storage external tx := by
  simp only [check, bind_eq_ok, failIf_eq_ok, okOr_eq_ok, pure_eq_ok, not_not] at passed
  obtain ⟨-, kind, author, recovered, external, answer, total, scanned, -, enough, rfl⟩ := passed
  have named : tx.author = author := by
    rw [Transaction.author, if_pos kind, recovered, Option.getD_some]
  obtain ⟨owned, sum⟩ := scanInputs_eq_ok scanned
  rw [List.zipIdx_map_fst] at owned sum
  refine ⟨external, answer, kind, by rw [recovered, named], by rw [named]; exact owned, ?_⟩
  have outputs : (tx.data.outputs.map TransactionOut.value).map UInt64.toNat =
      tx.data.outputs.map fun output => output.value.toNat := List.map_map
  rw [UInt64.lt_iff_toNat_lt, wrappingSum_toNat, outputs, sum, UInt64.toNat_zero, Nat.zero_add]
    at enough
  rw [Transaction.outputTotal]
  omega

/-- What the pool admits has passed its checks. -/
theorem validate_admissible {lookup : UtxoLookup} {utxos : List UTXO}
    (passed : validate lookup tx storage = .ok utxos ∨
      validate lookup tx storage = .error (.potentialRbf utxos)) :
    ∃ external, externalUtxos lookup tx storage = .ok external ∧
      PoolAdmissible storage external tx := by
  cases checked : check lookup tx storage with
  | ok scan => exact check_admissible checked
  | error e =>
    unfold validate at passed
    rw [checked, bind_error] at passed
    rcases passed with passed | passed
    · cases passed
    · cases passed
      exact absurd rfl (check_errors lookup tx storage _ checked utxos)

omit [Primitives] in
/-- Inputs that the pool does not create resolve to the answer of the lookup. -/
theorem poolView_external {o : OutPoint} (outside : storage.getCreatingTx o = none) :
    poolView storage external o = external.read o := by
  rw [poolView, resolveInput, outside]
  cases external.read o <;> rfl

omit [Primitives] in
theorem resolved_empty (external : Table OutPoint UTXO) : resolved ∅ external = external.read := by
  funext o
  simp [resolved]

/-- Which payments pass alone. -/
theorem validatePaymentTx_iff (kind : tx.data.kind = .payment) :
    (∃ spent, validatePaymentTx ∅ external [] tx = .ok spent) ↔
      tx.spentOutpoints.Nodup ∧ TxOk external.read tx := by
  have inputs : tx.paymentInputs = tx.spentOutpoints := if_pos kind
  have pending : pendingInputs [TxThread.of tx] = tx.spentOutpoints := by
    simp [pendingInputs, TxThread.of, inputs]
  simp only [validatePaymentTx, bind_eq_ok, start_eq_ok, completeThread_eq_ok, resolved_empty]
  constructor
  · rintro ⟨spent, thread, ⟨start, rfl⟩, group, -⟩
    exact ⟨pending ▸ group.distinct, start, group.each _ (by simp)⟩
  · rintro ⟨distinct, start, ok⟩
    refine ⟨_, _, ⟨start, rfl⟩, ⟨by rw [pending]; exact distinct, by simp, ?_⟩, rfl⟩
    intro thread mem
    rw [List.mem_singleton] at mem
    exact mem ▸ ok

variable [Floats]

/-- A transaction that the pool admits without help of its own outputs is valid for a block
exactly when its inputs are distinct and its sums fit. -/
theorem admission_valid_iff (pool : MemPool) (lookup : UtxoLookup) (now : UInt64)
    (tx : Transaction) (utxos : Table OutPoint UTXO)
    (admitted : (pool.addTransaction lookup now tx).1 = .ok ())
    (outside : ∀ o ∈ tx.spentOutpoints, pool.storage.getCreatingTx o = none)
    (answer : externalUtxos lookup tx pool.storage = .ok utxos) :
    (∃ spent, validatePaymentTx ∅ utxos [] tx = .ok spent) ↔
      tx.spentOutpoints.Nodup ∧ Coins.worthAll utxos.read tx.spentOutpoints < 2 ^ 64 ∧
        tx.outputTotal < 2 ^ 64 := by
  rcases pool.addTransaction_cases lookup now tx with ⟨e, failed⟩ | ⟨_, -, passed, -⟩
  · rw [failed] at admitted
    cases admitted
  obtain ⟨external, same, admissible⟩ := validate_admissible passed
  rw [answer, Except.ok.injEq] at same
  subst same
  have view : ∀ o ∈ tx.spentOutpoints, poolView pool.storage utxos o = utxos.read o :=
    fun o mem => poolView_external (outside o mem)
  have worth : (poolView pool.storage utxos).worthAll tx.spentOutpoints =
      Coins.worthAll utxos.read tx.spentOutpoints := Coins.worthAll_congr view
  have inputs : tx.paymentInputs = tx.spentOutpoints := if_pos admissible.kind
  have pays := admissible.pays
  rw [worth] at pays
  rw [validatePaymentTx_iff admissible.kind]
  refine and_congr_right fun _ => ?_
  constructor
  · rintro ⟨-, -, fits, paid⟩
    simp only [TxThread.of, UInt64.toNat_zero, Nat.zero_add, inputs] at fits paid
    exact ⟨fits, (paid admissible.kind).1⟩
  · rintro ⟨fits, outputs⟩
    rw [Nat.mod_eq_of_lt outputs] at pays
    refine ⟨?_, ⟨?_, ?_, fun _ => ?_⟩⟩
    · simp [Startable, admissible.kind, admissible.signed]
    · intro o mem
      simp only [TxThread.of, inputs] at mem ⊢
      rw [← view o mem]
      exact admissible.owned o mem
    · simpa only [TxThread.of, UInt64.toNat_zero, Nat.zero_add, inputs] using fits
    · simp only [TxThread.of, UInt64.toNat_zero, Nat.zero_add, inputs]
      exact ⟨outputs, by omega⟩

end Admission

namespace Sample

/-- The account 7 names one coin twice, and pays as if it had two. -/
def twice : Transaction := payment 7 [(coin 1).1, (coin 1).1] [⟨2000, ⟨8⟩⟩]

/-- The account 7 spends a coin. -/
def once : Transaction := payment 7 [(coin 1).1] [⟨900, ⟨8⟩⟩]

/-- The pool that holds nothing, and knows of one coin, admits the transaction. -/
theorem admitted_of_isSome {tx : Transaction}
    (passes : (((MemPool.new poolConfig).addTransaction (holding [coin 1]) 0 tx).1.toOption.any
      fun _ => true) = true) :
    ((MemPool.new poolConfig).addTransaction (holding [coin 1]) 0 tx).1 = .ok () := by
  obtain ⟨⟨⟩, admitted, -⟩ := exists_ok_of_any passes
  exact admitted

end Sample

open Sample in
/-- The pool admits a payment that names one output twice. -/
theorem admission_accepts_repeated_input :
    ¬ ∀ (pool : MemPool) (lookup : UtxoLookup) (now : UInt64) (tx : Transaction)
      (utxos : Table OutPoint UTXO), (pool.addTransaction lookup now tx).1 = .ok () →
      (∀ o ∈ tx.spentOutpoints, pool.storage.getCreatingTx o = none) →
      MempoolTxValidator.externalUtxos lookup tx pool.storage = .ok utxos →
      ∃ spent, validatePaymentTx ∅ utxos [] tx = .ok spent := by
  intro all
  obtain ⟨utxos, answer, refused⟩ := exists_ok_of_any (show
    ((MempoolTxValidator.externalUtxos (holding [coin 1]) twice
      (MemPool.new poolConfig).storage).toOption.any fun utxos =>
        (validatePaymentTx ∅ utxos [] twice).toOption.isNone) = true by decide +kernel)
  obtain ⟨spent, passed⟩ := all (MemPool.new poolConfig) (holding [coin 1]) 0 twice utxos
    (admitted_of_isSome (by decide +kernel)) (by decide +kernel) answer
  rw [passed] at refused
  cases refused

open Sample in
theorem admission_valid_sample :
    ∃ utxos, MempoolTxValidator.externalUtxos (holding [coin 1]) once
        (MemPool.new poolConfig).storage = .ok utxos ∧
      ((∃ spent, validatePaymentTx ∅ utxos [] once = .ok spent) ↔
        once.spentOutpoints.Nodup ∧ Coins.worthAll utxos.read once.spentOutpoints < 2 ^ 64 ∧
          once.outputTotal < 2 ^ 64) := by
  obtain ⟨utxos, answer, -⟩ := exists_ok_of_any (show
    ((MempoolTxValidator.externalUtxos (holding [coin 1]) once
      (MemPool.new poolConfig).storage).toOption.any fun _ => true) = true by decide +kernel)
  exact ⟨utxos, answer, admission_valid_iff (MemPool.new poolConfig) (holding [coin 1]) 0 once utxos
    (admitted_of_isSome (by decide +kernel)) (by decide +kernel) answer⟩

end StryiChain
