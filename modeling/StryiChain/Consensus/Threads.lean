import StryiChain.Consensus.Validator
import StryiChain.Utxo.Coins

/-!
# Interleaved validation

The transactions of a group are validated in parallel and reserve their inputs in a shared set.
Whether all of them pass does not depend on whose turn it is: every step keeps the question
open, and a failing step answers it for good.
-/

namespace StryiChain

variable [Primitives]

/-- The value that the outputs of a transaction add up to. -/
def Transaction.outputTotal (tx : Transaction) : Nat :=
  (tx.data.outputs.map fun output => output.value.toNat).sum

/-- A transaction that starts without an error. -/
def Startable (tx : Transaction) : Prop :=
  match tx.data.kind with
  | .genesis => tx.data.inputs = [] ∧ tx.data.outputs ≠ []
  | .coinbase _ _ => tx.data.inputs = [] ∧ tx.data.outputs.length = 1
  | .payment => Primitives.recoverAuthor tx ≠ none

instance (tx : Transaction) : Decidable (Startable tx) := by
  unfold Startable
  split <;> infer_instance

/-- The owner that the inputs of a transaction must have. -/
def Transaction.author (tx : Transaction) : AccountAddress :=
  if tx.data.kind = .payment then (Primitives.recoverAuthor tx).getD .empty else .empty

/-- A transaction before its first input. -/
def TxThread.of (tx : Transaction) : TxThread := ⟨tx, tx.author, tx.paymentInputs, 0⟩

theorem start_eq_ok {tx : Transaction} {thread : TxThread} :
    TxThread.start tx = .ok thread ↔ Startable tx ∧ thread = TxThread.of tx := by
  unfold TxThread.start Startable TxThread.of Transaction.author Transaction.paymentInputs
  cases tx.data.kind with
  | genesis =>
    simp [bind_eq_ok, validateGenesisTx, eq_comm (a := thread)]
  | coinbase height parent =>
    simp [bind_eq_ok, validateCoinbaseTx, eq_comm (a := thread)]
  | payment =>
    cases Primitives.recoverAuthor tx with
    | none => simp
    | some author => simp [eq_comm]

theorem startAll_eq_ok {txs : List Transaction} {threads : List TxThread} :
    txs.mapM TxThread.start = .ok threads ↔
      (∀ tx ∈ txs, Startable tx) ∧ threads = txs.map TxThread.of := by
  induction txs generalizing threads with
  | nil => simp [eq_comm]
  | cons tx txs ih =>
    rw [List.mapM_cons]
    simp only [bind_eq_ok, start_eq_ok, ih, pure_eq_ok, List.mem_cons, forall_eq_or_imp,
      List.map_cons]
    constructor
    · rintro ⟨_, ⟨first, rfl⟩, _, ⟨others, rfl⟩, rfl⟩
      exact ⟨⟨first, others⟩, rfl⟩
    · rintro ⟨⟨first, others⟩, rfl⟩
      exact ⟨_, ⟨first, rfl⟩, _, ⟨others, rfl⟩, rfl⟩

section Steps

omit [Primitives]

variable {inBlock managed : Table OutPoint UTXO}

/-- What an outpoint resolves to. -/
def resolved (inBlock managed : Table OutPoint UTXO) : Coins := fun o =>
  (inBlock.read o).or (managed.read o)

/-- The inputs are there and belong to the author. -/
def Owned (view : Coins) (author : AccountAddress) (inputs : List OutPoint) : Prop :=
  ∀ o ∈ inputs, ∃ utxo, view o = some utxo ∧ utxo.owner = author

/-- The rest of a thread can be carried out, as far as it does not depend on the others. -/
structure ThreadOk (view : Coins) (thread : TxThread) : Prop where
  owned : Owned view thread.author thread.pending
  fits : thread.inSum.toNat + view.worthAll thread.pending < 2 ^ 64
  pays : thread.tx.data.kind = .payment →
    thread.tx.outputTotal < 2 ^ 64 ∧
      thread.tx.outputTotal ≤ thread.inSum.toNat + view.worthAll thread.pending

/-- The inputs that the threads have not looked at yet. -/
def pendingInputs (threads : List TxThread) : List OutPoint := threads.flatMap TxThread.pending

/-- All threads of a group can be carried out, and none reserves what another one needs. -/
structure GroupOk (view : Coins) (spent : List OutPoint) (threads : List TxThread) : Prop where
  distinct : (pendingInputs threads).Nodup
  free : ∀ o ∈ pendingInputs threads, o ∉ spent
  each : ∀ thread ∈ threads, ThreadOk view thread

theorem input_eq_ok {author : AccountAddress} {spent spent' : List OutPoint}
    {sum sum' : UInt64} {o : OutPoint} :
    TxThread.input inBlock managed author (spent, sum) o = .ok (spent', sum') ↔
      o ∉ spent ∧ (∃ utxo, resolved inBlock managed o = some utxo ∧ utxo.owner = author) ∧
        sum'.toNat = sum.toNat + (resolved inBlock managed).worth o ∧ spent' = o :: spent := by
  simp only [TxThread.input, bind_eq_ok, failIf_eq_ok, resolveUtxo, okOr_eq_ok, pure_eq_ok,
    Prod.mk.injEq, checkedAdd_eq_some, not_not]
  constructor
  · rintro ⟨-, free, utxo, found, -, owner, total, sum, rfl, rfl⟩
    exact ⟨free, ⟨utxo, found, owner⟩, by rw [Coins.worth_of_some found, sum], rfl⟩
  · rintro ⟨free, ⟨utxo, found, owner⟩, sum, rfl⟩
    rw [Coins.worth_of_some found] at sum
    exact ⟨(), free, utxo, found, (), owner, sum', sum, rfl, rfl⟩

/-- The inputs of one thread, without interruption. -/
theorem inputs_eq_ok {author : AccountAddress} {inputs spent spent' : List OutPoint}
    {sum sum' : UInt64} :
    inputs.foldlM (TxThread.input inBlock managed author) (spent, sum) = .ok (spent', sum') ↔
      inputs.Nodup ∧ (∀ o ∈ inputs, o ∉ spent) ∧
        Owned (resolved inBlock managed) author inputs ∧
        sum'.toNat = sum.toNat + (resolved inBlock managed).worthAll inputs ∧
        spent' = inputs.reverse ++ spent := by
  induction inputs generalizing spent sum with
  | nil =>
    simp only [List.foldlM_nil, pure_eq_ok, Prod.mk.injEq, List.nodup_nil, List.not_mem_nil,
      false_imp_iff, implies_true, true_and, Owned, Coins.worthAll_nil, Nat.add_zero,
      List.reverse_nil, List.nil_append]
    rw [← UInt64.toNat_inj]
    constructor
    · rintro ⟨rfl, same⟩
      exact ⟨same.symm, rfl⟩
    · rintro ⟨same, rfl⟩
      exact ⟨rfl, same.symm⟩
  | cons o inputs ih =>
    rw [List.foldlM_cons, bind_eq_ok]
    simp only [Prod.exists, input_eq_ok, ih]
    constructor
    · rintro ⟨_, middle, ⟨free, owned, sum, rfl⟩, distinct, later, rest, total, rfl⟩
      refine ⟨?_, ?_, ?_, ?_, by simp⟩
      · rw [List.nodup_cons]
        exact ⟨fun mem => later o mem (by simp), distinct⟩
      · intro x mem
        rcases List.mem_cons.mp mem with rfl | mem
        · exact free
        · exact fun old => later x mem (List.mem_cons_of_mem _ old)
      · intro x mem
        rcases List.mem_cons.mp mem with rfl | mem
        · exact owned
        · exact rest x mem
      · rw [total, sum, Coins.worthAll_cons]
        omega
    · rintro ⟨distinct, free, owned, total, rfl⟩
      rw [List.nodup_cons] at distinct
      rw [Coins.worthAll_cons] at total
      have bound := sum'.toNat_lt
      refine ⟨o :: spent,
        UInt64.ofNat (sum.toNat + (resolved inBlock managed).worth o), ?_, distinct.2, ?_,
        fun x mem => owned x (List.mem_cons_of_mem _ mem), ?_, by simp⟩
      · refine ⟨free o (by simp), owned o (by simp), ?_, rfl⟩
        exact toNat_ofNat_u64 (by omega)
      · intro x mem
        rw [List.mem_cons, not_or]
        exact ⟨fun same => distinct.1 (same ▸ mem), free x (List.mem_cons_of_mem _ mem)⟩
      · rw [toNat_ofNat_u64 (by omega), total]
        omega

theorem finish_eq_ok {thread : TxThread} :
    thread.finish = .ok () ↔ (thread.tx.data.kind = .payment →
      thread.tx.outputTotal < 2 ^ 64 ∧ thread.tx.outputTotal ≤ thread.inSum.toNat) := by
  have total : (List.map UInt64.toNat (thread.tx.data.outputs.map TransactionOut.value)).sum =
      thread.tx.outputTotal := by
    rw [List.map_map]
    rfl
  unfold TxThread.finish
  by_cases kind : thread.tx.data.kind = .payment
  · simp only [kind, ne_eq, not_true_eq_false, if_false, bind_eq_ok, okOr_eq_ok, failIf_eq_ok,
      checkedSum_eq_some, total, forall_const, UInt64.lt_iff_toNat_lt]
    constructor
    · rintro ⟨sum, eq, enough⟩
      have := sum.toNat_lt
      omega
    · rintro ⟨fits, enough⟩
      have eq := toNat_ofNat_u64 (n := thread.tx.outputTotal) (by omega)
      exact ⟨_, eq, by rw [eq]; omega⟩
  · simp [kind]

theorem completeThread_eq_ok {spent spent' : List OutPoint} {thread : TxThread} :
    completeThread inBlock managed spent thread = .ok spent' ↔
      GroupOk (resolved inBlock managed) spent [thread] ∧
        spent' = thread.pending.reverse ++ spent := by
  simp only [completeThread, bind_eq_ok, Prod.exists, inputs_eq_ok, pure_eq_ok]
  constructor
  · rintro ⟨_, total, ⟨distinct, free, owned, sum, rfl⟩, ⟨⟩, pays, rfl⟩
    refine ⟨⟨by simpa [pendingInputs] using distinct, by simpa [pendingInputs] using free, ?_⟩, rfl⟩
    intro other mem
    rw [List.mem_singleton] at mem
    subst mem
    have bound := total.toNat_lt
    refine ⟨owned, by omega, fun kind => ?_⟩
    rw [← sum]
    exact finish_eq_ok.mp pays kind
  · rintro ⟨⟨distinct, free, each⟩, rfl⟩
    obtain ⟨owned, fits, pays⟩ := each thread (by simp)
    have eq := toNat_ofNat_u64 fits
    refine ⟨_, _, ⟨by simpa [pendingInputs] using distinct, by simpa [pendingInputs] using free,
      owned, eq, rfl⟩, (), ?_, rfl⟩
    rw [finish_eq_ok]
    dsimp only
    rw [eq]
    exact pays

/-- A group splits into its first thread and the others. -/
theorem groupOk_cons {view : Coins} {spent : List OutPoint} {thread : TxThread}
    {threads : List TxThread} :
    GroupOk view spent (thread :: threads) ↔ GroupOk view spent [thread] ∧
      GroupOk view (thread.pending.reverse ++ spent) threads := by
  constructor
  · rintro ⟨distinct, free, each⟩
    simp only [pendingInputs, List.flatMap_cons, List.nodup_append] at distinct
    simp only [pendingInputs, List.flatMap_cons, List.mem_append] at free
    obtain ⟨own, others, apart⟩ := distinct
    refine ⟨⟨by simpa [pendingInputs] using own, fun o mem => free o (.inl ?_), ?_⟩,
      ⟨others, fun o mem => ?_, fun other mem => each other (List.mem_cons_of_mem _ mem)⟩⟩
    · simpa [pendingInputs] using mem
    · intro other mem
      rw [List.mem_singleton] at mem
      exact mem ▸ each thread (by simp)
    · rw [List.mem_append, List.mem_reverse, not_or]
      exact ⟨fun here => apart o here o mem rfl, free o (.inr mem)⟩
  · rintro ⟨⟨own, ownFree, ownOk⟩, ⟨others, free, each⟩⟩
    have pending : pendingInputs [thread] = thread.pending := by simp [pendingInputs]
    rw [pending] at own ownFree
    refine ⟨?_, fun o mem => ?_, fun other mem => ?_⟩
    · rw [pendingInputs, List.flatMap_cons, List.nodup_append]
      refine ⟨own, others, ?_⟩
      rintro o here _ there rfl
      exact free o there (by simp [here])
    · rw [pendingInputs, List.flatMap_cons, List.mem_append] at mem
      rcases mem with here | there
      · exact ownFree o here
      · exact fun old => free o there (List.mem_append_right _ old)
    · rcases List.mem_cons.mp mem with rfl | mem
      · exact ownOk other (by simp)
      · exact each other mem

/-- Completing the threads one after the other. -/
theorem completeAll_eq_ok {spent spent' : List OutPoint} {threads : List TxThread} :
    threads.foldlM (completeThread inBlock managed) spent = .ok spent' ↔
      GroupOk (resolved inBlock managed) spent threads ∧
        spent' = (pendingInputs threads).reverse ++ spent := by
  induction threads generalizing spent with
  | nil =>
    simp only [List.foldlM_nil, pure_eq_ok, pendingInputs, List.flatMap_nil, List.reverse_nil,
      List.nil_append]
    constructor
    · rintro rfl
      exact ⟨⟨by simp [pendingInputs], by simp [pendingInputs], by simp⟩, rfl⟩
    · exact fun h => h.2.symm
  | cons thread threads ih =>
    rw [List.foldlM_cons, bind_eq_ok, groupOk_cons]
    simp only [completeThread_eq_ok, ih]
    constructor
    · rintro ⟨_, ⟨first, rfl⟩, rest, rfl⟩
      exact ⟨⟨first, rest⟩, by simp [pendingInputs]⟩
    · rintro ⟨⟨first, rest⟩, rfl⟩
      exact ⟨_, ⟨first, rfl⟩, rest, by simp [pendingInputs]⟩

/-- A step of one thread moves the head of its inputs into the shared set. -/
theorem pendingInputs_step (before after : List TxThread) {thread next : TxThread} {o : OutPoint}
    (head : thread.pending = o :: next.pending) :
    (pendingInputs (before ++ thread :: after)).Perm
      (o :: pendingInputs (before ++ next :: after)) := by
  simp only [pendingInputs, List.flatMap_append, List.flatMap_cons, head, List.cons_append]
  exact List.perm_middle

/-- A successful step leaves open what was open. -/
theorem groupOk_step {view : Coins} {spent : List OutPoint} {before after : List TxThread}
    {thread next : TxThread} {o : OutPoint} (tx : next.tx = thread.tx)
    (author : next.author = thread.author) (head : thread.pending = o :: next.pending)
    (free : o ∉ spent) (owned : ∃ utxo, view o = some utxo ∧ utxo.owner = thread.author)
    (sum : next.inSum.toNat = thread.inSum.toNat + view.worth o) :
    GroupOk view spent (before ++ thread :: after) ↔
      GroupOk view (o :: spent) (before ++ next :: after) := by
  have perm := pendingInputs_step before after head
  have total : thread.inSum.toNat + view.worthAll thread.pending =
      next.inSum.toNat + view.worthAll next.pending := by
    rw [head, Coins.worthAll_cons, sum]
    omega
  have one : ThreadOk view thread ↔ ThreadOk view next := by
    constructor
    · rintro ⟨all, fits, pays⟩
      refine ⟨fun x mem => ?_, total ▸ fits, fun kind => ?_⟩
      · rw [author]
        exact all x (by rw [head]; exact List.mem_cons_of_mem _ mem)
      · rw [tx, ← total]
        exact pays (tx ▸ kind)
    · rintro ⟨all, fits, pays⟩
      refine ⟨fun x mem => ?_, total ▸ fits, fun kind => ?_⟩
      · rw [head] at mem
        rcases List.mem_cons.mp mem with rfl | mem
        · exact owned
        · rw [← author]
          exact all x mem
      · rw [← tx, total]
        exact pays (tx ▸ kind)
  have each : (∀ t ∈ before ++ thread :: after, ThreadOk view t) ↔
      ∀ t ∈ before ++ next :: after, ThreadOk view t := by
    simp only [List.mem_append, List.mem_cons, or_imp, forall_and, forall_eq, one]
  constructor
  · rintro ⟨distinct, unreserved, ok⟩
    rw [perm.nodup_iff, List.nodup_cons] at distinct
    refine ⟨distinct.2, fun x mem => ?_, each.mp ok⟩
    rw [List.mem_cons, not_or]
    exact ⟨fun same => distinct.1 (same ▸ mem),
      unreserved x (perm.mem_iff.mpr (List.mem_cons_of_mem _ mem))⟩
  · rintro ⟨distinct, unreserved, ok⟩
    refine ⟨?_, fun x mem => ?_, each.mpr ok⟩
    · rw [perm.nodup_iff, List.nodup_cons]
      exact ⟨fun mem => unreserved o mem (by simp), distinct⟩
    · rcases List.mem_cons.mp (perm.mem_iff.mp mem) with rfl | mem
      · exact free
      · exact fun old => unreserved x mem (List.mem_cons_of_mem _ old)

/-- The position of a running thread splits the group. -/
theorem exists_split {threads : List TxThread} {position : Nat} {thread : TxThread}
    (found : threads[position]? = some thread) :
    ∃ before after, threads = before ++ thread :: after ∧
      ∀ next, threads.set position next = before ++ next :: after := by
  obtain ⟨inside, here⟩ := List.getElem?_eq_some_iff.mp found
  refine ⟨threads.take position, threads.drop (position + 1), ?_, fun next => ?_⟩
  · rw [← here, List.getElem_cons_drop, List.take_append_drop]
  · rw [List.set_eq_take_append_cons_drop, if_pos inside]

/-- One turn: if it succeeds, the question stays what it was, and nothing gets lost between the
reserved and the pending inputs. -/
theorem stepThread_eq_ok {spent spent' : List OutPoint} {threads threads' : List TxThread}
    {position : Nat}
    (run : stepThread inBlock managed (spent, threads) position = .ok (spent', threads')) :
    (GroupOk (resolved inBlock managed) spent threads ↔
      GroupOk (resolved inBlock managed) spent' threads') ∧
    ∀ o, o ∈ spent ∨ o ∈ pendingInputs threads ↔ o ∈ spent' ∨ o ∈ pendingInputs threads' := by
  unfold stepThread at run
  dsimp only at run
  split at run
  · simp only [Except.ok.injEq, Prod.mk.injEq] at run
    obtain ⟨rfl, rfl⟩ := run
    exact ⟨Iff.rfl, fun _ => Iff.rfl⟩
  · rename_i thread found
    split at run
    · simp only [Except.ok.injEq, Prod.mk.injEq] at run
      obtain ⟨rfl, rfl⟩ := run
      exact ⟨Iff.rfl, fun _ => Iff.rfl⟩
    · rename_i o pending head
      simp only [bind_eq_ok, Prod.exists, input_eq_ok, pure_eq_ok, Prod.mk.injEq] at run
      obtain ⟨_, sum, ⟨free, owned, total, rfl⟩, rfl, rfl⟩ := run
      obtain ⟨before, after, rfl, set⟩ := exists_split found
      rw [set]
      have moved : thread.pending = o :: ({ thread with pending, inSum := sum } : TxThread).pending :=
        head
      have perm := pendingInputs_step before after moved
      refine ⟨groupOk_step rfl rfl head free owned total, fun x => ?_⟩
      rw [perm.mem_iff, List.mem_cons, List.mem_cons]
      tauto

/-- A turn that fails shows that the group cannot be carried out. -/
theorem stepThread_error {spent : List OutPoint} {threads : List TxThread} {position : Nat}
    {error : StryiCoreError}
    (run : stepThread inBlock managed (spent, threads) position = .error error) :
    ¬ GroupOk (resolved inBlock managed) spent threads := by
  rintro ⟨-, free, each⟩
  unfold stepThread at run
  dsimp only at run
  split at run
  · cases run
  · rename_i thread found
    split at run
    · cases run
    · rename_i o pending head
      have mem := List.mem_of_getElem? found
      obtain ⟨owned, fits, -⟩ := each thread mem
      have here : o ∈ thread.pending := by simp [head]
      rw [head, Coins.worthAll_cons] at fits
      have step : TxThread.input inBlock managed thread.author (spent, thread.inSum) o =
          .ok (o :: spent, UInt64.ofNat
            (thread.inSum.toNat + (resolved inBlock managed).worth o)) := by
        refine input_eq_ok.mpr ⟨free o ?_, owned o here, ?_, rfl⟩
        · exact List.mem_flatMap.mpr ⟨thread, mem, here⟩
        · exact toNat_ofNat_u64 (by omega)
      rw [step] at run
      cases run

/-- Any number of turns. -/
theorem schedule_eq_ok {schedule : List Nat} {spent spent' : List OutPoint}
    {threads threads' : List TxThread}
    (run : schedule.foldlM (stepThread inBlock managed) (spent, threads) =
      .ok (spent', threads')) :
    (GroupOk (resolved inBlock managed) spent threads ↔
      GroupOk (resolved inBlock managed) spent' threads') ∧
    ∀ o, o ∈ spent ∨ o ∈ pendingInputs threads ↔ o ∈ spent' ∨ o ∈ pendingInputs threads' := by
  induction schedule generalizing spent threads with
  | nil =>
    simp only [List.foldlM_nil, pure_eq_ok, Prod.mk.injEq] at run
    obtain ⟨rfl, rfl⟩ := run
    exact ⟨Iff.rfl, fun _ => Iff.rfl⟩
  | cons position schedule ih =>
    rw [List.foldlM_cons, bind_eq_ok] at run
    obtain ⟨⟨spent1, threads1⟩, one, rest⟩ := run
    obtain ⟨open1, kept1⟩ := stepThread_eq_ok one
    obtain ⟨openRest, keptRest⟩ := ih rest
    exact ⟨open1.trans openRest, fun o => (kept1 o).trans (keptRest o)⟩

theorem schedule_error {schedule : List Nat} {spent : List OutPoint} {threads : List TxThread}
    {error : StryiCoreError}
    (run : schedule.foldlM (stepThread inBlock managed) (spent, threads) = .error error) :
    ¬ GroupOk (resolved inBlock managed) spent threads := by
  induction schedule generalizing spent threads with
  | nil => cases run
  | cons position schedule ih =>
    rw [List.foldlM_cons, bind_eq_error] at run
    rcases run with failed | ⟨⟨spent1, threads1⟩, one, rest⟩
    · exact stepThread_error failed
    · rw [(stepThread_eq_ok one).1]
      exact ih rest

end Steps

/-- A transaction passes on its own. -/
def TxOk (view : Coins) (tx : Transaction) : Prop := Startable tx ∧ ThreadOk view (TxThread.of tx)

/-- The inputs of the payments of a list. -/
def paymentInputsOf (txs : List Transaction) : List OutPoint :=
  txs.flatMap Transaction.paymentInputs

omit [Primitives] in
theorem paymentInputsOf_cons (tx : Transaction) (txs : List Transaction) :
    paymentInputsOf (tx :: txs) = tx.paymentInputs ++ paymentInputsOf txs := List.flatMap_cons

theorem pendingInputs_of (txs : List Transaction) :
    pendingInputs (txs.map TxThread.of) = paymentInputsOf txs := by
  rw [pendingInputs, paymentInputsOf, List.flatMap_map]
  rfl

/-- Whether a group passes, whatever the order of its steps. -/
structure TxsOk (view : Coins) (spent : List OutPoint) (txs : List Transaction) : Prop where
  distinct : (paymentInputsOf txs).Nodup
  free : ∀ o ∈ paymentInputsOf txs, o ∉ spent
  each : ∀ tx ∈ txs, TxOk view tx

variable {inBlock managed : Table OutPoint UTXO}

theorem groupOk_of {view : Coins} {spent : List OutPoint} {txs : List Transaction} :
    (∀ tx ∈ txs, Startable tx) ∧ GroupOk view spent (txs.map TxThread.of) ↔
      TxsOk view spent txs := by
  constructor
  · rintro ⟨start, distinct, free, each⟩
    rw [pendingInputs_of] at distinct free
    exact ⟨distinct, free, fun tx mem => ⟨start tx mem, each _ (List.mem_map_of_mem mem)⟩⟩
  · rintro ⟨distinct, free, each⟩
    refine ⟨fun tx mem => (each tx mem).1, ?_, ?_, fun thread mem => ?_⟩
    · rwa [pendingInputs_of]
    · rwa [pendingInputs_of]
    · obtain ⟨tx, inside, rfl⟩ := List.mem_map.mp mem
      exact (each tx inside).2

/-- A group that passes reserves exactly the inputs of its payments. -/
theorem validateGroup_eq_ok {schedule : List Nat} {txs : List Transaction}
    {spent spent' : List OutPoint}
    (run : validateGroup inBlock managed schedule txs spent = .ok spent') :
    TxsOk (resolved inBlock managed) spent txs ∧
      ∀ o, o ∈ spent' ↔ o ∈ spent ∨ o ∈ paymentInputsOf txs := by
  simp only [validateGroup, bind_eq_ok, startAll_eq_ok, Prod.exists] at run
  obtain ⟨_, ⟨start, rfl⟩, spent1, threads1, turns, rest⟩ := run
  obtain ⟨same, kept⟩ := schedule_eq_ok turns
  obtain ⟨ok, rfl⟩ := completeAll_eq_ok.mp rest
  refine ⟨groupOk_of.mp ⟨start, same.mpr ok⟩, fun o => ?_⟩
  rw [← pendingInputs_of, kept, List.mem_append, List.mem_reverse, or_comm]

theorem validateGroup_ok (schedule : List Nat) {txs : List Transaction} {spent : List OutPoint}
    (ok : TxsOk (resolved inBlock managed) spent txs) :
    ∃ spent', validateGroup inBlock managed schedule txs spent = .ok spent' := by
  obtain ⟨start, group⟩ := groupOk_of.mpr ok
  have started := startAll_eq_ok.mpr ⟨start, rfl⟩
  cases turns : schedule.foldlM (stepThread inBlock managed) (spent, txs.map TxThread.of) with
  | error error => exact absurd group (schedule_error turns)
  | ok state =>
    obtain ⟨spent1, threads1⟩ := state
    have rest := completeAll_eq_ok.mpr ⟨(schedule_eq_ok turns).1.mp group, rfl⟩
    exact ⟨_, by simp only [validateGroup, started, bind_ok, turns, rest]; rfl⟩

/-- All groups pass when the transactions of all of them do, taken together. -/
theorem validateGroups_eq_ok {γ : Type} (schedule : γ → List Nat) {select : γ → List Transaction}
    {groups : List γ} {spent : List OutPoint} :
    (∃ spent', groups.foldlM (fun spent group =>
      validateGroup inBlock managed (schedule group) (select group) spent) spent = .ok spent') ↔
      TxsOk (resolved inBlock managed) spent (groups.flatMap select) := by
  induction groups generalizing spent with
  | nil =>
    refine ⟨fun _ => ⟨by simp [paymentInputsOf], by simp [paymentInputsOf], by simp⟩,
      fun _ => ⟨spent, rfl⟩⟩
  | cons group groups ih =>
    have flat : paymentInputsOf ((group :: groups).flatMap select) =
        paymentInputsOf (select group) ++ paymentInputsOf (groups.flatMap select) := by
      simp [paymentInputsOf]
    simp only [List.foldlM_cons, bind_eq_ok]
    constructor
    · rintro ⟨last, middle, first, rest⟩
      obtain ⟨ok, reserved⟩ := validateGroup_eq_ok first
      obtain ⟨distinct, free, each⟩ := ih.mp ⟨last, rest⟩
      refine ⟨?_, fun o mem => ?_, fun tx mem => ?_⟩
      · rw [flat, List.nodup_append]
        refine ⟨ok.distinct, distinct, ?_⟩
        rintro o here _ there rfl
        exact free o there ((reserved o).mpr (.inr here))
      · rw [flat, List.mem_append] at mem
        rcases mem with here | there
        · exact ok.free o here
        · exact fun old => free o there ((reserved o).mpr (.inl old))
      · rw [List.flatMap_cons, List.mem_append] at mem
        exact mem.elim (ok.each tx) (each tx)
    · rintro ⟨distinct, free, each⟩
      rw [flat, List.nodup_append] at distinct
      rw [flat] at free
      have head : TxsOk (resolved inBlock managed) spent (select group) :=
        ⟨distinct.1, fun o mem => free o (List.mem_append_left _ mem),
          fun tx mem => each tx (List.mem_append_left _ mem)⟩
      obtain ⟨middle, first⟩ := validateGroup_ok (schedule group) head
      obtain ⟨-, reserved⟩ := validateGroup_eq_ok first
      have tail : TxsOk (resolved inBlock managed) middle (groups.flatMap select) := by
        refine ⟨distinct.2.1, fun o mem => ?_, fun tx mem => each tx (List.mem_append_right _ mem)⟩
        rw [reserved, not_or]
        exact ⟨free o (List.mem_append_right _ mem), fun here => distinct.2.2 o here o mem rfl⟩
      obtain ⟨last, rest⟩ := ih.mpr tail
      exact ⟨last, middle, first, rest⟩

/-- The order of the transactions does not matter. -/
theorem TxsOk.perm {view : Coins} {spent : List OutPoint} {txs txs' : List Transaction}
    (perm : txs.Perm txs') (ok : TxsOk view spent txs) : TxsOk view spent txs' := by
  have inputs : (paymentInputsOf txs).Perm (paymentInputsOf txs') := perm.flatMap_right _
  exact ⟨inputs.nodup_iff.mp ok.distinct, fun o mem => ok.free o (inputs.mem_iff.mpr mem),
    fun tx mem => ok.each tx (perm.mem_iff.mpr mem)⟩

end StryiChain
