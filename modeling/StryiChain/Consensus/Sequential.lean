import StryiChain.Consensus.Groups
import StryiChain.Consensus.Threads
import StryiChain.Storage.Memory
import StryiChain.Utxo.Lawful

/-!
# Validation and the sequential reference

What `validate_transactions` accepts, as conditions on the block and the UTXO map before it, and
the plain checker that processes the transactions one after the other over an evolving map.
-/

namespace StryiChain

section Equivalence

variable [Primitives]

section Structure

/-- What `validate_block_structure` establishes for a block above genesis. -/
structure Structured (b : Block) : Prop where
  unique : b.data.transactions.Nodup
  composition : ∃ coinbase payments, b.data.transactions = coinbase :: payments ∧
    coinbase.data.kind = .coinbase b.header.height b.header.previousBlockHash ∧
    ∀ tx ∈ payments, tx.data.kind = .payment
  inputs : (paymentInputsOf b.data.transactions).Nodup

omit [Primitives] in
theorem checkFollowers_eq_ok {rest : List Transaction} (run : checkFollowers rest = .ok ()) :
    ∀ tx ∈ rest, tx.data.kind = .payment := by
  intro tx mem
  obtain ⟨i, at_i⟩ := List.mem_iff_getElem?.mp mem
  have passed := forM_eq_ok.mp run (tx, i) (List.mem_zipIdx_iff_getElem?.mpr at_i)
  dsimp only at passed
  split at passed
  · assumption
  · cases passed
  · cases passed

omit [Primitives] in
/-- The loop that looks for an input seen before. -/
theorem uniqueLoop_eq_ok {l seen seen' : List OutPoint}
    (run : l.foldlM (fun (seen : List OutPoint) outpoint => do
      failIf (outpoint ∈ seen) (StryiCoreError.txDoubleSpend outpoint.txid outpoint.vout)
      return outpoint :: seen) seen = .ok seen') :
    l.Nodup ∧ ∀ o ∈ l, o ∉ seen := by
  induction l generalizing seen with
  | nil => simp
  | cons o l ih =>
    simp only [List.foldlM_cons, bind_eq_ok, failIf_eq_ok, pure_eq_ok] at run
    obtain ⟨_, ⟨-, new, rfl⟩, rest⟩ := run
    obtain ⟨distinct, fresh⟩ := ih rest
    refine ⟨List.nodup_cons.mpr ⟨fun mem => fresh o mem (by simp), distinct⟩, fun x mem => ?_⟩
    rcases List.mem_cons.mp mem with rfl | mem
    · exact new
    · exact fun old => fresh x mem (List.mem_cons_of_mem _ old)

omit [Primitives] in
theorem validateBlockStructure_eq_ok {b : Block} (normal : b.header.isGenesis = false)
    (run : validateBlockStructure b = .ok ()) : Structured b := by
  simp only [validateBlockStructure, bind_eq_ok] at run
  obtain ⟨⟨⟩, unique, ⟨⟩, composed, ⟨⟩, inputs, context⟩ := run
  simp only [ensureUniqueTxs, failIf_eq_ok, not_not] at unique
  simp only [ensureUniqueInputs, bind_eq_ok] at inputs
  obtain ⟨seen, loop, -⟩ := inputs
  refine ⟨unique, ?_, (uniqueLoop_eq_ok loop).1⟩
  simp only [ensureTransactionComposition, normal, Bool.false_eq_true, if_false] at composed
  simp only [ensureCoinbaseContext, normal, Bool.false_eq_true, if_false] at context
  cases txs : b.data.transactions with
  | nil =>
    rw [txs] at composed
    cases composed
  | cons coinbase payments =>
    rw [txs] at composed context
    simp only [bind_eq_ok, failIf_eq_ok] at composed
    obtain ⟨⟨⟩, -, ⟨⟩, marked, followers⟩ := composed
    refine ⟨coinbase, payments, rfl, ?_, checkFollowers_eq_ok followers⟩
    simp only [List.head?_cons, Option.map_some] at context
    cases kind : coinbase.data.kind with
    | genesis => simp [kind, TransactionKind.isCoinbase] at marked
    | payment => simp [kind, TransactionKind.isCoinbase] at marked
    | coinbase height parent =>
      simp only [kind, failIf_eq_ok, not_or, not_not] at context
      rw [context.1, context.2]

omit [Primitives] in
theorem uniqueLoop_ok {l seen : List OutPoint} (distinct : l.Nodup) (fresh : ∀ o ∈ l, o ∉ seen) :
    ∃ seen', l.foldlM (fun (seen : List OutPoint) outpoint => do
      failIf (outpoint ∈ seen) (StryiCoreError.txDoubleSpend outpoint.txid outpoint.vout)
      return outpoint :: seen) seen = .ok seen' := by
  induction l generalizing seen with
  | nil => exact ⟨seen, rfl⟩
  | cons o l ih =>
    rw [List.nodup_cons] at distinct
    rw [List.foldlM_cons, failIf_of_not _ (fresh o List.mem_cons_self)]
    refine ih distinct.2 fun x mem => ?_
    rw [List.mem_cons, not_or]
    exact ⟨fun same => distinct.1 (same ▸ mem), fresh x (List.mem_cons_of_mem _ mem)⟩

omit [Primitives] in
/-- A coinbase and payments after it. -/
theorem ensureTransactionComposition_ok {b : Block} {coinbase : Transaction}
    {payments : List Transaction} (txs : b.data.transactions = coinbase :: payments)
    (marked : coinbase.data.kind.isCoinbase = true)
    (kinds : ∀ tx ∈ payments, tx.data.kind = .payment) :
    ensureTransactionComposition b = .ok () := by
  have followers : checkFollowers payments = .ok () := by
    refine forM_eq_ok.mpr fun entry mem => ?_
    have payment := kinds entry.1 (List.mem_of_getElem? (List.mem_zipIdx_iff_getElem?.mp mem))
    dsimp only
    rw [payment]
  have ungenesis : coinbase.data.kind ≠ .genesis := by
    intro kind
    rw [kind] at marked
    cases marked
  rw [ensureTransactionComposition, txs]
  split
  · rfl
  · simp [marked, ungenesis, followers]

omit [Primitives] in
/-- The coinbase names the height and the parent of the header. -/
theorem ensureCoinbaseContext_ok {b : Block} {coinbase : Transaction}
    {payments : List Transaction} (txs : b.data.transactions = coinbase :: payments)
    (kind : coinbase.data.kind = .coinbase b.header.height b.header.previousBlockHash) :
    ensureCoinbaseContext b = .ok () := by
  rw [ensureCoinbaseContext, txs]
  split
  · rfl
  · simp [kind]

omit [Primitives] in
/-- Nothing else is checked of the structure of a block above genesis. -/
theorem validateBlockStructure_ok {b : Block} (structured : Structured b) :
    validateBlockStructure b = .ok () := by
  obtain ⟨unique, ⟨coinbase, payments, txs, kind, kinds⟩, inputs⟩ := structured
  have fresh : ∀ o ∈ paymentInputsOf b.data.transactions, o ∉ ([] : List OutPoint) :=
    fun _ _ => List.not_mem_nil
  obtain ⟨seen, loop⟩ := uniqueLoop_ok inputs fresh
  have marked : coinbase.data.kind.isCoinbase = true := by rw [kind]; rfl
  simp only [validateBlockStructure, bind_eq_ok]
  refine ⟨(), failIf_of_not _ (not_not.mpr unique), (),
    ensureTransactionComposition_ok txs marked kinds, (), ?_, ensureCoinbaseContext_ok txs kind⟩
  rw [ensureUniqueInputs, bind_eq_ok]
  exact ⟨seen, loop, rfl⟩

end Structure

section Fees

/-- What a transaction leaves to the coinbase. -/
def Transaction.fee (view : Coins) (tx : Transaction) : Nat :=
  view.worthAll tx.paymentInputs - (if tx.data.kind = .payment then tx.outputTotal else 0)

/-- The fees of a list of transactions. -/
def totalFees (view : Coins) (txs : List Transaction) : Nat :=
  (txs.map (Transaction.fee view)).sum

/-- A payment whose fee can be computed. -/
structure FeeOk (view : Coins) (tx : Transaction) : Prop where
  present : ∀ o ∈ tx.spentOutpoints, view o ≠ none
  inputs : view.worthAll tx.spentOutpoints < 2 ^ 64
  outputs : tx.outputTotal ≤ view.worthAll tx.spentOutpoints

variable {inBlock managed : Table OutPoint UTXO}

omit [Primitives] in
theorem sumValues_eq_ok {inputs : List OutPoint} {sum sum' : UInt64} :
    inputs.foldlM (fun inputs outpoint => do
      let utxo ← resolveUtxo outpoint inBlock managed
      okOr (checkedAdd inputs utxo.value)
        (.consensusValidationFailed "Overflow while summing input values")) sum = .ok sum' ↔
      (∀ o ∈ inputs, resolved inBlock managed o ≠ none) ∧
        sum'.toNat = sum.toNat + (resolved inBlock managed).worthAll inputs := by
  induction inputs generalizing sum with
  | nil =>
    simp only [List.foldlM_nil, pure_eq_ok, List.not_mem_nil, false_imp_iff, implies_true,
      true_and, Coins.worthAll_nil, Nat.add_zero]
    rw [← UInt64.toNat_inj, eq_comm]
  | cons o inputs ih =>
    rw [List.foldlM_cons, bind_eq_ok]
    simp only [ih]
    simp only [bind_eq_ok, resolveUtxo, okOr_eq_ok, checkedAdd_eq_some]
    constructor
    · rintro ⟨middle, ⟨utxo, found, first⟩, rest, total⟩
      have found' : resolved inBlock managed o = some utxo := found
      refine ⟨fun x mem => ?_, ?_⟩
      · rcases List.mem_cons.mp mem with rfl | mem
        · simp [found']
        · exact rest x mem
      · rw [total, first, Coins.worthAll_cons, Coins.worth_of_some found']
        omega
    · rintro ⟨present, total⟩
      obtain ⟨utxo, found⟩ := Option.ne_none_iff_exists'.mp (present o (by simp))
      rw [Coins.worthAll_cons, Coins.worth_of_some found] at total
      have bound := sum'.toNat_lt
      have eq := toNat_ofNat_u64 (n := sum.toNat + utxo.value.toNat)
        (by omega)
      refine ⟨_, ⟨utxo, found, eq⟩, fun x mem => present x (List.mem_cons_of_mem _ mem), ?_⟩
      rw [eq, total]
      omega

omit [Primitives] in
theorem paymentFee_eq_ok {tx : Transaction} {fee : UInt64} :
    paymentFee inBlock managed tx = .ok fee ↔ FeeOk (resolved inBlock managed) tx ∧
      fee.toNat = (resolved inBlock managed).worthAll tx.spentOutpoints - tx.outputTotal := by
  have outputs : (List.map UInt64.toNat (tx.data.outputs.map TransactionOut.value)).sum =
      tx.outputTotal := by
    rw [List.map_map]
    rfl
  simp only [paymentFee, bind_eq_ok, sumValues_eq_ok, okOr_eq_ok, checkedSum_eq_some, outputs,
    checkedSub_eq_some, UInt64.toNat_zero, Nat.zero_add]
  constructor
  · rintro ⟨inSum, ⟨present, total⟩, outSum, out, enough, fee⟩
    have bound := inSum.toNat_lt
    exact ⟨⟨present, by omega, by omega⟩, by omega⟩
  · rintro ⟨⟨present, fits, enough⟩, fee⟩
    have eq := toNat_ofNat_u64
      (n := (resolved inBlock managed).worthAll tx.spentOutpoints) (by omega)
    have eq' := toNat_ofNat_u64 (n := tx.outputTotal) (by omega)
    exact ⟨_, ⟨present, eq⟩, _, eq', by omega, by omega⟩

omit [Primitives] in
/-- The accumulating loop of `calculate_total_fees`. -/
theorem feeLoop_eq_ok {txs : List Transaction} {total total' : UInt64} :
    txs.foldlM (fun total tx =>
      if tx.data.kind ≠ .payment then
        .ok total
      else do
        let fee ← paymentFee inBlock managed tx
        okOr (checkedAdd total fee)
          (.consensusValidationFailed "Overflow while accumulating total fees")) total =
        .ok total' ↔
      (∀ tx ∈ txs, tx.data.kind = .payment → FeeOk (resolved inBlock managed) tx) ∧
        total'.toNat = total.toNat + totalFees (resolved inBlock managed) txs := by
  induction txs generalizing total with
  | nil =>
    simp only [List.foldlM_nil, pure_eq_ok, List.not_mem_nil, false_imp_iff, implies_true,
      true_and, totalFees, List.map_nil, List.sum_nil, Nat.add_zero]
    rw [← UInt64.toNat_inj, eq_comm]
  | cons tx txs ih =>
    have split : totalFees (resolved inBlock managed) (tx :: txs) =
        tx.fee (resolved inBlock managed) + totalFees (resolved inBlock managed) txs := by
      simp [totalFees]
    rw [List.foldlM_cons, bind_eq_ok, split]
    by_cases kind : tx.data.kind = .payment
    · have fee : tx.fee (resolved inBlock managed) =
          (resolved inBlock managed).worthAll tx.spentOutpoints - tx.outputTotal := by
        simp [Transaction.fee, Transaction.paymentInputs, kind]
      simp only [kind, ne_eq, not_true_eq_false, if_false, bind_eq_ok, okOr_eq_ok,
        checkedAdd_eq_some, paymentFee_eq_ok, ih, List.mem_cons, forall_eq_or_imp,
        true_imp_iff, fee]
      constructor
      · rintro ⟨middle, ⟨value, ⟨ok, hvalue⟩, first⟩, rest, sum⟩
        exact ⟨⟨ok, rest⟩, by omega⟩
      · rintro ⟨⟨ok, rest⟩, sum⟩
        have bound := total'.toNat_lt
        have fits := ok.inputs
        have eq := toNat_ofNat_u64
          (n := (resolved inBlock managed).worthAll tx.spentOutpoints - tx.outputTotal)
          (by omega)
        have eq' := toNat_ofNat_u64
          (n := total.toNat +
            ((resolved inBlock managed).worthAll tx.spentOutpoints - tx.outputTotal))
          (by omega)
        exact ⟨_, ⟨_, ⟨ok, eq⟩, by rw [eq', eq]⟩, rest, by omega⟩
    · have fee : tx.fee (resolved inBlock managed) = 0 := by
        simp [Transaction.fee, Transaction.paymentInputs, kind]
      simp only [kind, ne_eq, not_false_eq_true, if_true, Except.ok.injEq, ih, List.mem_cons,
        forall_eq_or_imp, false_imp_iff, true_and, fee, Nat.zero_add, exists_eq_left']

end Fees

section Accepted

/-- The outputs of a list of transactions, as outpoints. -/
def createdBy (txs : List Transaction) : List OutPoint :=
  txs.flatMap fun tx => tx.createdUtxos.map Prod.fst

theorem createdBy_cons (tx : Transaction) (txs : List Transaction) :
    createdBy (tx :: txs) = tx.createdUtxos.map Prod.fst ++ createdBy txs := List.flatMap_cons

/-- The reward of the coinbase is covered. -/
structure RewardOk (rules : ConsensusConsts) (m : Coins) (b : Block) : Prop where
  fits : (rules.blockSubsidy b.header.height).toNat +
    totalFees m b.data.transactions < 2 ^ 64
  covered : ∃ coinbase output, b.data.transactions.head? = some coinbase ∧
    coinbase.data.outputs.head? = some output ∧ output.value.toNat ≤
      (rules.blockSubsidy b.header.height).toNat + totalFees m b.data.transactions

/-- What `validate_transactions` accepts: every input comes from the map before the block. -/
structure Accepted (rules : ConsensusConsts) (m : Coins) (b : Block) : Prop where
  outputs : (createdBy b.data.transactions).Nodup
  external : ∀ o ∈ paymentInputsOf b.data.transactions, o ∉ createdBy b.data.transactions
  inputs : (paymentInputsOf b.data.transactions).Nodup
  each : ∀ tx ∈ b.data.transactions, TxOk m tx
  reward : RewardOk rules m b

open DependencyGraph

omit [Primitives] in
theorem map_fst_positions (outpoints : Transaction → List OutPoint) (data : BlockData) :
    (positions outpoints data).map Prod.fst = data.transactions.flatMap outpoints := by
  conv_rhs => rw [← List.zipIdx_map_fst 0 data.transactions, List.flatMap_map]
  rw [positions, List.map_flatMap]
  refine List.flatMap_congr fun entry _ => ?_
  simp [Function.comp_def]

theorem created_eq (data : BlockData) : created data = createdBy data.transactions :=
  map_fst_positions _ _

omit [Primitives] in
theorem named_eq (data : BlockData) :
    named data = data.transactions.flatMap Transaction.spentOutpoints :=
  map_fst_positions _ _

/-- What a graph says once it has been built and its order checked. -/
structure Linked (data : BlockData) (graph : DependencyGraph) : Prop where
  outputs : (created data).Nodup
  inputs : (named data).Nodup
  external : ∀ o, o ∈ graph.externalInputs ↔ o ∈ named data ∧ o ∉ created data
  ordered : graph.Ordered
  count : graph.nodeCount = data.transactions.length

theorem graph_eq_ok {data : BlockData} {graph graph' : DependencyGraph}
    (built : build data = .ok graph) (checked : graph.validateOrder data = .ok graph') :
    Linked data graph' := by
  simp only [build, bind_eq_ok, pure_eq_ok] at built
  obtain ⟨index, indexed, rfl⟩ := built
  obtain ⟨distinct, creators⟩ := indexOutputs_eq_ok indexed
  obtain ⟨hindex, -, hcount, hexternal, hedges⟩ := foldl_link (inputs data)
    { outputIndex := index, spentOutputs := [], externalInputs := [], edges := []
      nodeCount := data.transactions.length }
  obtain ⟨named, -, order, frame⟩ := checkLoop_eq_ok checked
  have external := congrArg DependencyGraph.externalInputs frame
  have edges := congrArg DependencyGraph.edges frame
  have count := congrArg DependencyGraph.nodeCount frame
  dsimp only at external edges count hexternal hedges hcount
  refine ⟨distinct, named, fun o => ?_, fun edge mem => ?_, count.trans hcount⟩
  · rw [external, hexternal]
    have absent : index.read o = none ↔ o ∉ created data := by
      rw [created, List.mem_map, Option.eq_none_iff_forall_ne_some]
      constructor
      · rintro none ⟨⟨_, creator⟩, mem, rfl⟩
        exact none creator ((creators _ _).mpr mem)
      · rintro none creator found
        exact none ⟨(o, creator), (creators _ _).mp found, rfl⟩
    simp [DependencyGraph.named, absent]
  · rw [edges, hedges] at mem
    rcases mem with none | ⟨input, inside, creator, target⟩
    · cases none
    · rw [← target]
      rw [hindex] at order
      exact order input inside edge.1 creator

theorem graph_ok {data : BlockData} (outputs : (created data).Nodup) (inputs : (named data).Nodup)
    (apart : ∀ o ∈ named data, o ∉ created data) :
    ∃ graph graph', build data = .ok graph ∧ graph.validateOrder data = .ok graph' := by
  obtain ⟨index, indexed⟩ := indexOutputs_ok outputs
  obtain ⟨-, creators⟩ := indexOutputs_eq_ok indexed
  obtain ⟨hindex, hspent, -⟩ := foldl_link (DependencyGraph.inputs data)
    { outputIndex := index, spentOutputs := [], externalInputs := [], edges := []
      nodeCount := data.transactions.length }
  obtain ⟨graph', checked⟩ := checkLoop_ok ((DependencyGraph.inputs data).foldl link
    { outputIndex := index, spentOutputs := [], externalInputs := [], edges := []
      nodeCount := data.transactions.length }) inputs (by rw [hspent]; simp) (by
      rw [hindex]
      intro input mem creator found
      have here : input.1 ∈ created data :=
        List.mem_map.mpr ⟨_, (creators _ _).mp found, rfl⟩
      exact absurd here (apart input.1 (List.mem_map_of_mem mem)))
  exact ⟨_, graph', by rw [build, indexed]; rfl, checked⟩

variable {S : Type} [UtxoStorage S] {s : S} {m : Coins} {b : Block} {rules : ConsensusConsts}

omit [Primitives] in
/-- The prefetched entries are those of the map. -/
theorem fetchManaged_eq_ok (reads : Reads s m) {outpoints : List OutPoint}
    {managed : Table OutPoint UTXO} (run : fetchManaged outpoints s = .ok managed) :
    (∀ o ∈ outpoints, m o ≠ none) ∧
      resolved ∅ managed = fun o => if o ∈ outpoints then m o else none := by
  unfold fetchManaged at run
  split at run
  · rename_i empty
    rw [List.isEmpty_iff] at empty
    rw [Except.ok.injEq] at run
    subst empty run
    exact ⟨by simp, funext fun o => by simp [resolved]⟩
  · rw [mapError_eq_ok] at run
    by_cases present : ∀ o ∈ outpoints, m o ≠ none
    · obtain ⟨found, fetch, lookup⟩ := batchGetUtxos_ok reads present
      rw [fetch, Except.ok.injEq] at run
      subst run
      exact ⟨present, funext fun o => by simp [resolved, lookup]⟩
    · push Not at present
      obtain ⟨o, mem, absent⟩ := present
      obtain ⟨missing, -, -, fetch⟩ := batchGetUtxos_error reads mem absent
      rw [fetch] at run
      cases run

omit [Primitives] in
theorem fetchManaged_ok (reads : Reads s m) {outpoints : List OutPoint}
    (present : ∀ o ∈ outpoints, m o ≠ none) :
    ∃ managed, fetchManaged outpoints s = .ok managed := by
  unfold fetchManaged
  split
  · exact ⟨_, rfl⟩
  · obtain ⟨found, fetch, -⟩ := batchGetUtxos_ok reads present
    exact ⟨found, by rw [fetch, mapError_ok]⟩

omit [Primitives] in
/-- The groups select every transaction once. -/
theorem select_perm {data : BlockData} {graph : DependencyGraph} (linked : graph.Ordered)
    (count : graph.nodeCount = data.transactions.length) :
    (graph.getParallelExecutionGroups.zipIdx.flatMap fun group => data.select group.1).Perm
      data.transactions := by
  have flat : graph.getParallelExecutionGroups.flatMap data.select =
      graph.getParallelExecutionGroups.flatten.filterMap fun position =>
        data.transactions[position]? := by
    induction graph.getParallelExecutionGroups with
    | nil => rfl
    | cons group groups ih =>
      rw [List.flatMap_cons, List.flatten_cons, List.filterMap_append, ih]
      rfl
  rw [← List.flatMap_map, List.zipIdx_map_fst, flat]
  refine ((groups_perm linked).filterMap _).trans ?_
  rw [count, filterMap_range_getElem?]

omit [Primitives] in
theorem rewardRule_eq_ok {inBlock managed : Table OutPoint UTXO} :
    rewardRule inBlock managed b rules = .ok () ↔
      (∀ tx ∈ b.data.transactions, tx.data.kind = .payment →
        FeeOk (resolved inBlock managed) tx) ∧ RewardOk rules (resolved inBlock managed) b := by
  simp only [rewardRule, calculateTotalFees, bind_eq_ok, feeLoop_eq_ok, okOr_eq_ok,
    checkedAdd_eq_some, failIf_eq_ok, UInt64.toNat_zero, Nat.zero_add, Option.bind_eq_some_iff,
    UInt64.lt_iff_toNat_lt, not_lt]
  constructor
  · rintro ⟨fees, ⟨each, total⟩, reward, sum, output, ⟨coinbase, first, out⟩, enough⟩
    have bound := reward.toNat_lt
    exact ⟨each, by omega, coinbase, output, first, out, by omega⟩
  · rintro ⟨each, fits, coinbase, output, first, out, enough⟩
    have eq := toNat_ofNat_u64
      (n := totalFees (resolved inBlock managed) b.data.transactions) (by omega)
    have eq' := toNat_ofNat_u64 (n := (rules.blockSubsidy b.header.height).toNat +
      totalFees (resolved inBlock managed) b.data.transactions) (by omega)
    exact ⟨_, ⟨each, eq⟩, _, by rw [eq', eq], output, ⟨coinbase, first, out⟩, by rw [eq']; omega⟩

/-- A transaction that passes on a view passes on every view that agrees on its inputs. -/
theorem TxOk.congr {view view' : Coins} {tx : Transaction} (ok : TxOk view tx)
    (same : ∀ o ∈ tx.paymentInputs, view o = view' o) : TxOk view' tx := by
  obtain ⟨start, owned, fits, pays⟩ := ok
  have worth : view.worthAll tx.paymentInputs = view'.worthAll tx.paymentInputs :=
    Coins.worthAll_congr same
  refine ⟨start, fun o mem => ?_, ?_, fun kind => ?_⟩
  · rw [← same o mem]
    exact owned o mem
  · change _ + view'.worthAll tx.paymentInputs < _
    rw [← worth]
    exact fits
  · change _ ∧ _ ≤ _ + view'.worthAll tx.paymentInputs
    rw [← worth]
    exact pays kind

omit [Primitives] in
theorem totalFees_congr {view view' : Coins} {txs : List Transaction}
    (same : ∀ o ∈ paymentInputsOf txs, view o = view' o) :
    totalFees view txs = totalFees view' txs := by
  rw [totalFees, totalFees]
  refine congrArg List.sum (List.map_congr_left fun tx mem => ?_)
  rw [Transaction.fee, Transaction.fee, Coins.worthAll_congr fun o inside =>
    same o (List.mem_flatMap.mpr ⟨tx, mem, inside⟩)]

omit [Primitives] in
theorem RewardOk.congr {view view' : Coins} (ok : RewardOk rules view b)
    (same : ∀ o ∈ paymentInputsOf b.data.transactions, view o = view' o) :
    RewardOk rules view' b := by
  obtain ⟨fits, covered⟩ := ok
  rw [totalFees_congr same] at fits covered
  exact ⟨fits, covered⟩

/-- The fee of a payment that passes can be computed. -/
theorem TxOk.feeOk {view : Coins} {tx : Transaction} (ok : TxOk view tx)
    (kind : tx.data.kind = .payment) : FeeOk view tx := by
  have inputs : tx.paymentInputs = tx.spentOutpoints := if_pos kind
  obtain ⟨-, owned, fits, pays⟩ := ok
  have enough := (pays kind).2
  simp only [TxThread.of, inputs, UInt64.toNat_zero, Nat.zero_add] at owned fits enough
  refine ⟨fun o mem => ?_, fits, enough⟩
  obtain ⟨utxo, found, -⟩ := owned o mem
  simp [found]

/-- When every transaction passes, only payments have inputs. -/
theorem spent_eq_paymentInputs (structured : Structured b)
    (each : ∀ tx ∈ b.data.transactions, Startable tx) :
    named b.data = paymentInputsOf b.data.transactions := by
  rw [named_eq, paymentInputsOf]
  refine List.flatMap_congr fun tx mem => ?_
  obtain ⟨coinbase, payments, txs, kind, followers⟩ := structured.composition
  have start := each tx mem
  rw [txs] at mem
  rcases List.mem_cons.mp mem with rfl | mem
  · simp only [Startable, kind] at start
    simp [Transaction.spentOutpoints, Transaction.paymentInputs, start.1, kind]
  · simp [Transaction.paymentInputs, followers tx mem]

/-- `validate_transactions` accepts exactly the accepted blocks, under every schedule. -/
theorem validateTransactionsUnder_iff {schedule : Nat → List Nat} (reads : Reads s m)
    (normal : b.header.isGenesis = false) (structured : Structured b) :
    validateTransactionsUnder schedule b rules s = .ok () ↔ Accepted rules m b := by
  simp only [validateTransactionsUnder, buildDependencyContext, bind_eq_ok, Prod.exists,
    pure_eq_ok, Prod.mk.injEq, normal, Bool.false_eq_true, if_false]
  constructor
  · rintro ⟨graph, managed, ⟨built, build, checked, check, fetched, fetch, rfl, rfl⟩, spent, groups,
      reward⟩
    have linked := graph_eq_ok build check
    obtain ⟨present, view⟩ := fetchManaged_eq_ok reads fetch
    have all := ((validateGroups_eq_ok _).mp ⟨spent, groups⟩).perm
      (select_perm linked.ordered linked.count)
    have resolves : ∀ o ∈ paymentInputsOf b.data.transactions,
        o ∈ checked.externalInputs ∧ resolved ∅ fetched o = m o := by
      intro o mem
      obtain ⟨tx, inside, input⟩ := List.mem_flatMap.mp mem
      obtain ⟨utxo, found, -⟩ := (all.each tx inside).2.owned o input
      rw [view] at found ⊢
      dsimp only at found ⊢
      split at found
      · rename_i external
        rw [if_pos external]
        exact ⟨mem_iter.mp external, rfl⟩
      · cases found
    refine ⟨?_, fun o mem => ?_, all.distinct, fun tx mem => ?_, ?_⟩
    · rw [← created_eq]
      exact linked.outputs
    · rw [← created_eq]
      exact ((linked.external o).mp (resolves o mem).1).2
    · exact (all.each tx mem).congr fun o input =>
        (resolves o (List.mem_flatMap.mpr ⟨tx, mem, input⟩)).2
    · exact (rewardRule_eq_ok.mp reward).2.congr fun o mem => (resolves o mem).2
  · rintro ⟨outputs, external, inputs, each, reward⟩
    have named := spent_eq_paymentInputs structured fun tx mem => (each tx mem).1
    obtain ⟨graph, checked, build, check⟩ := graph_ok
      (by rwa [created_eq]) (by rwa [named]) (by rwa [named, created_eq])
    have linked := graph_eq_ok build check
    have present : ∀ o ∈ iter checked.externalInputs, m o ≠ none := by
      intro o mem
      have input := ((linked.external o).mp (mem_iter.mp mem)).1
      rw [named] at input
      obtain ⟨tx, inside, input⟩ := List.mem_flatMap.mp input
      obtain ⟨utxo, found, -⟩ := (each tx inside).2.owned o input
      simp [found]
    obtain ⟨managed, fetch⟩ := fetchManaged_ok reads present
    obtain ⟨-, view⟩ := fetchManaged_eq_ok reads fetch
    have resolves : ∀ o ∈ paymentInputsOf b.data.transactions, m o = resolved ∅ managed o := by
      intro o mem
      have outside : o ∈ iter checked.externalInputs := by
        rw [mem_iter, linked.external, named, created_eq]
        exact ⟨mem, external o mem⟩
      rw [view]
      exact (if_pos outside).symm
    have eachManaged : ∀ tx ∈ b.data.transactions, TxOk (resolved ∅ managed) tx := fun tx mem =>
      (each tx mem).congr fun o input => resolves o (List.mem_flatMap.mpr ⟨tx, mem, input⟩)
    have all : TxsOk (resolved ∅ managed) [] b.data.transactions :=
      ⟨inputs, by simp, eachManaged⟩
    obtain ⟨spent, groups⟩ := (validateGroups_eq_ok fun group : List Nat × Nat =>
      schedule group.2).mpr (all.perm (select_perm linked.ordered linked.count).symm)
    refine ⟨checked, managed, ⟨graph, build, checked, check, managed, fetch, rfl, rfl⟩, spent,
      groups, rewardRule_eq_ok.mpr ⟨fun tx mem kind => (eachManaged tx mem).feeOk kind,
        reward.congr resolves⟩⟩

end Accepted

section Sequential

/-- Where the sequential checker stands: the map, the outputs of the block so far and its fees. -/
structure SequentialState where
  coins : Coins
  created : List OutPoint
  fees : UInt64

/-- The inputs of a payment: present, owned by the author, and their sum. -/
def sequentialInputs (m : Coins) (author : AccountAddress) (inputs : List OutPoint) :
    Option UInt64 :=
  inputs.foldlM
    (fun sum o => do
      let utxo ← m o
      if utxo.owner = author then checkedAdd sum utxo.value else none)
    0

/-- Carries out a transaction, if its outputs are new within the block. -/
def SequentialState.record (state : SequentialState) (tx : Transaction) (fees : UInt64) :
    Option SequentialState :=
  let outputs := tx.createdUtxos.map Prod.fst
  if outputs.Nodup ∧ ∀ o ∈ outputs, o ∉ state.created then
    some ⟨state.coins.transact tx, outputs ++ state.created, fees⟩
  else
    none

/-- One transaction of a block above genesis. -/
def sequentialTransaction (state : SequentialState) (tx : Transaction) : Option SequentialState :=
  match tx.data.kind with
  | .genesis => none
  | .coinbase _ _ =>
      if tx.data.inputs = [] ∧ tx.data.outputs.length = 1 then state.record tx state.fees else none
  | .payment => do
      let author ← Primitives.recoverAuthor tx
      let inSum ← sequentialInputs state.coins author tx.spentOutpoints
      let outSum ← checkedSum (tx.data.outputs.map TransactionOut.value)
      let fee ← checkedSub inSum outSum
      let fees ← checkedAdd state.fees fee
      state.record tx fees

/-- The reward of the coinbase is at most the subsidy and the fees. -/
def sequentialReward (rules : ConsensusConsts) (b : Block) (fees : UInt64) : Option Unit := do
  let maxReward ← checkedAdd (rules.blockSubsidy b.header.height) fees
  let coinbase ← b.data.transactions.head?
  let output ← coinbase.data.outputs.head?
  if output.value ≤ maxReward then some () else none

/-- The sequential reference: the transactions in block order over an evolving map. -/
def sequentialCheck (rules : ConsensusConsts) (m : Coins) (b : Block) : Bool :=
  (do
    let state ← b.data.transactions.foldlM sequentialTransaction ⟨m, [], 0⟩
    sequentialReward rules b state.fees).isSome

variable {m : Coins} {b : Block} {rules : ConsensusConsts}

omit [Primitives] in
theorem sequentialInputs_loop {author : AccountAddress} {inputs : List OutPoint}
    {sum sum' : UInt64} :
    inputs.foldlM
      (fun sum o => do
        let utxo ← m o
        if utxo.owner = author then checkedAdd sum utxo.value else none) sum = some sum' ↔
      Owned m author inputs ∧ sum'.toNat = sum.toNat + m.worthAll inputs := by
  induction inputs generalizing sum with
  | nil =>
    simp only [List.foldlM_nil, Option.pure_def, Option.some.injEq, Owned, List.not_mem_nil,
      false_imp_iff, implies_true, true_and, Coins.worthAll_nil, Nat.add_zero]
    rw [← UInt64.toNat_inj, eq_comm]
  | cons o inputs ih =>
    rw [List.foldlM_cons]
    simp only [Option.bind_eq_bind, Option.bind_eq_some_iff] at ih ⊢
    simp only [ih]
    constructor
    · rintro ⟨middle, ⟨utxo, found, first⟩, rest, total⟩
      split at first
      · rename_i owner
        rw [checkedAdd_eq_some] at first
        refine ⟨fun x mem => ?_, ?_⟩
        · rcases List.mem_cons.mp mem with rfl | mem
          · exact ⟨utxo, found, owner⟩
          · exact rest x mem
        · rw [total, first, Coins.worthAll_cons, Coins.worth_of_some found]
          omega
      · cases first
    · rintro ⟨owned, total⟩
      obtain ⟨utxo, found, owner⟩ := owned o (by simp)
      rw [Coins.worthAll_cons, Coins.worth_of_some found] at total
      have bound := sum'.toNat_lt
      have eq := toNat_ofNat_u64 (n := sum.toNat + utxo.value.toNat)
        (by omega)
      refine ⟨_, ⟨utxo, found, by rw [if_pos owner, checkedAdd_eq_some, eq]⟩,
        fun x mem => owned x (List.mem_cons_of_mem _ mem), ?_⟩
      rw [eq, total]
      omega

omit [Primitives] in
theorem sequentialInputs_eq_some {author : AccountAddress} {inputs : List OutPoint}
    {sum : UInt64} : sequentialInputs m author inputs = some sum ↔
      Owned m author inputs ∧ sum.toNat = m.worthAll inputs := by
  rw [sequentialInputs, sequentialInputs_loop, UInt64.toNat_zero, Nat.zero_add]

theorem record_eq_some {state state' : SequentialState} {tx : Transaction} {fees : UInt64} :
    state.record tx fees = some state' ↔ (tx.createdUtxos.map Prod.fst).Nodup ∧
      (∀ o ∈ tx.createdUtxos.map Prod.fst, o ∉ state.created) ∧
      state' = ⟨state.coins.transact tx, tx.createdUtxos.map Prod.fst ++ state.created, fees⟩ := by
  unfold SequentialState.record
  dsimp only
  split
  · rename_i new
    rw [Option.some.injEq, eq_comm]
    exact ⟨fun eq => ⟨new.1, new.2, eq⟩, fun all => all.2.2⟩
  · rename_i clash
    simp only [reduceCtorEq, false_iff]
    exact fun all => clash ⟨all.1, all.2.1⟩

/-- One transaction of the sequential checker, as conditions on the map at that moment. -/
theorem sequentialTransaction_eq_some {state state' : SequentialState} {tx : Transaction}
    (kind : tx.data.kind ≠ .genesis) :
    sequentialTransaction state tx = some state' ↔
      TxOk state.coins tx ∧ (tx.createdUtxos.map Prod.fst).Nodup ∧
      (∀ o ∈ tx.createdUtxos.map Prod.fst, o ∉ state.created) ∧
      state'.coins = state.coins.transact tx ∧
      state'.created = tx.createdUtxos.map Prod.fst ++ state.created ∧
      state'.fees.toNat = state.fees.toNat + tx.fee state.coins := by
  unfold sequentialTransaction
  cases hkind : tx.data.kind with
  | genesis => exact absurd hkind kind
  | coinbase height parent =>
    have inputs : tx.paymentInputs = [] := by simp [Transaction.paymentInputs, hkind]
    have ok : TxOk state.coins tx ↔ tx.data.inputs = [] ∧ tx.data.outputs.length = 1 := by
      simp only [TxOk, Startable, hkind]
      refine ⟨fun h => h.1, fun h => ⟨h, ?_, ?_, fun pays => ?_⟩⟩
      · simp [TxThread.of, inputs, Owned]
      · simp [TxThread.of, inputs]
      · rw [TxThread.of] at pays
        rw [hkind] at pays
        cases pays
    have fee : tx.fee state.coins = 0 := by simp [Transaction.fee, inputs]
    rw [ok, fee]
    dsimp only
    split
    · rename_i shape
      rw [record_eq_some]
      constructor
      · rintro ⟨distinct, new, rfl⟩
        exact ⟨shape, distinct, new, rfl, rfl, rfl⟩
      · rintro ⟨-, distinct, new, coins, created, fees⟩
        refine ⟨distinct, new, ?_⟩
        cases state'
        simp only [Nat.add_zero, UInt64.toNat_inj] at coins created fees
        subst coins created fees
        rfl
    · rename_i shape
      simp [shape]
  | payment =>
    have inputs : tx.paymentInputs = tx.spentOutpoints := if_pos hkind
    have outputs : (List.map UInt64.toNat (tx.data.outputs.map TransactionOut.value)).sum =
        tx.outputTotal := by
      rw [List.map_map]
      rfl
    simp only [Option.bind_eq_bind, Option.bind_eq_some_iff, sequentialInputs_eq_some,
      checkedSum_eq_some, outputs, checkedSub_eq_some, checkedAdd_eq_some, record_eq_some,
      Transaction.fee, inputs, hkind, if_true]
    constructor
    · rintro ⟨author, recovered, inSum, ⟨owned, sum⟩, outSum, out, fee, ⟨enough, hfee⟩, fees, total,
        distinct, new, rfl⟩
      have bound := inSum.toNat_lt
      have bound' := outSum.toNat_lt
      have hauthor : tx.author = author := by simp [Transaction.author, hkind, recovered]
      refine ⟨⟨by simp [Startable, hkind, recovered], ?_, ?_, fun _ => ?_⟩, distinct, new, rfl, rfl,
        by dsimp only; omega⟩
      · simpa only [TxThread.of, inputs, hauthor] using owned
      · simp only [TxThread.of, inputs, UInt64.toNat_zero, Nat.zero_add]
        omega
      · simp only [TxThread.of, inputs, UInt64.toNat_zero, Nat.zero_add]
        omega
    · rintro ⟨⟨start, owned, fits, pays⟩, distinct, new, coins, created, fees⟩
      have pays := pays hkind
      simp only [TxThread.of, inputs, UInt64.toNat_zero, Nat.zero_add] at owned fits pays
      simp only [Startable, hkind] at start
      obtain ⟨author, recovered⟩ := Option.ne_none_iff_exists'.mp start
      have hauthor : tx.author = author := by simp [Transaction.author, hkind, recovered]
      rw [hauthor] at owned
      have eq := toNat_ofNat_u64 (n := state.coins.worthAll tx.spentOutpoints)
        (by omega)
      have eq' := toNat_ofNat_u64 (n := tx.outputTotal) (by omega)
      have eq'' := toNat_ofNat_u64
        (n := state.coins.worthAll tx.spentOutpoints - tx.outputTotal) (by omega)
      refine ⟨author, recovered, _, ⟨owned, eq⟩, _, eq', _, ⟨by omega, by rw [eq'', eq, eq']⟩,
        state'.fees, by omega, distinct, new, ?_⟩
      cases state'
      dsimp only at coins created
      subst coins created
      rfl

/-- What a transaction leaves alone. -/
theorem transact_of_notMem {tx : Transaction} {o : OutPoint} (input : o ∉ tx.paymentInputs)
    (output : o ∉ tx.createdUtxos.map Prod.fst) : m.transact tx o = m o := by
  rw [Coins.transact, putAll_of_notMem output, eraseAll_of_notMem input]

/-- The sequential run over transactions that spend nothing of each other: every transaction is
checked against the map before the first. -/
theorem sequentialRun_iff {txs : List Transaction} (state : SequentialState)
    (kinds : ∀ tx ∈ txs, tx.data.kind ≠ .genesis) (inputs : (paymentInputsOf txs).Nodup)
    (external : ∀ o ∈ paymentInputsOf txs, o ∉ createdBy txs)
    (agree : ∀ o ∈ paymentInputsOf txs, state.coins o = m o) (fees : UInt64) :
    (∃ state', txs.foldlM sequentialTransaction state = some state' ∧ state'.fees = fees) ↔
      (∀ tx ∈ txs, TxOk m tx) ∧ (createdBy txs).Nodup ∧
      (∀ o ∈ createdBy txs, o ∉ state.created) ∧
      fees.toNat = state.fees.toNat + totalFees m txs := by
  induction txs generalizing state with
  | nil =>
    simp only [List.foldlM_nil, Option.pure_def, Option.some.injEq, exists_eq_left', List.not_mem_nil,
      false_imp_iff, implies_true, createdBy, List.flatMap_nil, List.nodup_nil, true_and, totalFees,
      List.map_nil, List.sum_nil, Nat.add_zero]
    rw [← UInt64.toNat_inj, eq_comm]
  | cons tx txs ih =>
    have split := paymentInputsOf_cons tx txs
    have outs := createdBy_cons tx txs
    have sums : totalFees m (tx :: txs) = tx.fee m + totalFees m txs := by simp [totalFees]
    rw [split] at inputs external agree
    rw [outs] at external
    rw [List.nodup_append] at inputs
    have own : ∀ o ∈ tx.paymentInputs, state.coins o = m o :=
      fun o mem => agree o (List.mem_append_left _ mem)
    have first : TxOk state.coins tx ↔ TxOk m tx :=
      ⟨fun ok => ok.congr own, fun ok => ok.congr fun o mem => (own o mem).symm⟩
    have fee : tx.fee state.coins = tx.fee m := by
      rw [Transaction.fee, Transaction.fee, Coins.worthAll_congr own]
    have later : ∀ o ∈ paymentInputsOf txs, state.coins.transact tx o = m o := by
      intro o mem
      rw [transact_of_notMem, agree o (List.mem_append_right _ mem)]
      · exact fun here => inputs.2.2 o here o mem rfl
      · exact fun here => external o (List.mem_append_right _ mem) (List.mem_append_left _ here)
    have kindsRest : ∀ tx ∈ txs, tx.data.kind ≠ .genesis :=
      fun tx mem => kinds tx (List.mem_cons_of_mem _ mem)
    have externalRest : ∀ o ∈ paymentInputsOf txs, o ∉ createdBy txs := fun o mem here =>
      external o (List.mem_append_right _ mem) (List.mem_append_right _ here)
    rw [outs, sums]
    simp only [List.foldlM_cons, Option.bind_eq_bind, Option.bind_eq_some_iff]
    constructor
    · rintro ⟨last, ⟨next, one, rest⟩, rfl⟩
      obtain ⟨ok, distinct, new, coins, created, sum⟩ :=
        (sequentialTransaction_eq_some (kinds tx (by simp))).mp one
      obtain ⟨okRest, distinctRest, newRest, sumRest⟩ := (ih _ kindsRest inputs.2.1 externalRest
        (by rw [coins]; exact later)).mp ⟨last, rest, rfl⟩
      rw [created] at newRest
      refine ⟨fun t mem => ?_, ?_, fun o mem => ?_, by omega⟩
      · rcases List.mem_cons.mp mem with rfl | mem
        · exact first.mp ok
        · exact okRest t mem
      · rw [List.nodup_append]
        refine ⟨distinct, distinctRest, ?_⟩
        rintro o here _ there rfl
        exact newRest o there (List.mem_append_left _ here)
      · rcases List.mem_append.mp mem with here | there
        · exact new o here
        · exact fun old => newRest o there (List.mem_append_right _ old)
    · rintro ⟨ok, distinct, new, sum⟩
      rw [List.nodup_append] at distinct
      have bound := fees.toNat_lt
      have eq := toNat_ofNat_u64 (n := state.fees.toNat + tx.fee m)
        (by omega)
      have newRest : ∀ o ∈ createdBy txs, o ∉ tx.createdUtxos.map Prod.fst ++ state.created := by
        intro o mem
        rw [List.mem_append, not_or]
        exact ⟨fun here => distinct.2.2 o here o mem rfl, new o (List.mem_append_right _ mem)⟩
      obtain ⟨last, rest, hfees⟩ := (ih ⟨state.coins.transact tx,
        tx.createdUtxos.map Prod.fst ++ state.created,
        UInt64.ofNat (state.fees.toNat + tx.fee m)⟩ kindsRest inputs.2.1 externalRest later).mpr
        ⟨fun t mem => ok t (List.mem_cons_of_mem _ mem), distinct.2.1, newRest,
          by dsimp only; omega⟩
      refine ⟨last, ⟨_, ?_, rest⟩, hfees⟩
      rw [sequentialTransaction_eq_some (kinds tx (by simp))]
      exact ⟨first.mpr (ok tx (by simp)), distinct.1,
        fun o mem => new o (List.mem_append_left _ mem), rfl, rfl, by dsimp only; omega⟩

omit [Primitives] in
theorem sequentialReward_isSome {fees : UInt64} :
    sequentialReward rules b fees = some () ↔
      (rules.blockSubsidy b.header.height).toNat + fees.toNat < 2 ^ 64 ∧
      ∃ coinbase output, b.data.transactions.head? = some coinbase ∧
        coinbase.data.outputs.head? = some output ∧ output.value.toNat ≤
          (rules.blockSubsidy b.header.height).toNat + fees.toNat := by
  simp only [sequentialReward, Option.bind_eq_bind, Option.bind_eq_some_iff, checkedAdd_eq_some]
  constructor
  · rintro ⟨reward, sum, coinbase, first, output, out, covered⟩
    split at covered
    · rename_i enough
      rw [UInt64.le_iff_toNat_le] at enough
      have bound := reward.toNat_lt
      exact ⟨by omega, coinbase, output, first, out, by omega⟩
    · cases covered
  · rintro ⟨fits, coinbase, output, first, out, enough⟩
    have eq := toNat_ofNat_u64
      (n := (rules.blockSubsidy b.header.height).toNat + fees.toNat) (by omega)
    refine ⟨_, eq, coinbase, first, output, out, if_pos ?_⟩
    rw [UInt64.le_iff_toNat_le, eq]
    exact enough

/-- On blocks that spend nothing of their own the sequential reference accepts what validation
accepts. -/
theorem sequentialCheck_iff (structured : Structured b)
    (external : ∀ o ∈ paymentInputsOf b.data.transactions, o ∉ createdBy b.data.transactions) :
    sequentialCheck rules m b = true ↔ Accepted rules m b := by
  have kinds : ∀ tx ∈ b.data.transactions, tx.data.kind ≠ .genesis := by
    obtain ⟨coinbase, payments, txs, kind, followers⟩ := structured.composition
    intro tx mem
    rw [txs] at mem
    rcases List.mem_cons.mp mem with rfl | mem
    · simp [kind]
    · simp [followers tx mem]
  have run := fun fees : UInt64 => sequentialRun_iff (m := m) ⟨m, [], 0⟩
    kinds structured.inputs external (fun _ _ => rfl) fees
  simp only [UInt64.toNat_zero, Nat.zero_add, List.not_mem_nil, not_false_eq_true, implies_true,
    true_and] at run
  simp only [sequentialCheck, Option.isSome_iff_exists, Option.bind_eq_bind,
    Option.bind_eq_some_iff]
  constructor
  · rintro ⟨⟨⟩, state, ran, reward⟩
    obtain ⟨each, distinct, fees⟩ := (run state.fees).mp ⟨state, ran, rfl⟩
    obtain ⟨fits, covered⟩ := sequentialReward_isSome.mp reward
    rw [fees] at fits covered
    exact ⟨distinct, external, structured.inputs, each, fits, covered⟩
  · rintro ⟨distinct, -, -, each, fits, covered⟩
    have eq := toNat_ofNat_u64 (n := totalFees m b.data.transactions)
      (by omega)
    obtain ⟨state, ran, fees⟩ := (run _).mpr ⟨each, distinct, eq⟩
    refine ⟨(), state, ran, sequentialReward_isSome.mpr ?_⟩
    rw [fees, eq]
    exact ⟨fits, covered⟩

/-- Validation, under every schedule, agrees with the sequential reference exactly on the blocks
that spend none of their own outputs and on those the reference rejects: an output of the block
itself is never found, because nothing is ever put into the map of the block's own outputs. -/
theorem validateTransactions_agrees_iff {S : Type} [UtxoStorage S] {s : S} (reads : Reads s m)
    (normal : b.header.isGenesis = false) (structure' : validateBlockStructure b = .ok ()) :
    (∀ schedule, validateTransactionsUnder schedule b rules s = .ok () ↔
      sequentialCheck rules m b = true) ↔
    (∀ o ∈ paymentInputsOf b.data.transactions, o ∉ createdBy b.data.transactions) ∨
      sequentialCheck rules m b = false := by
  have structured := validateBlockStructure_eq_ok normal structure'
  constructor
  · intro agree
    by_cases accepts : sequentialCheck rules m b = true
    · have validated := (agree fun _ => []).mpr accepts
      exact .inl ((validateTransactionsUnder_iff reads normal structured).mp validated).external
    · exact .inr (by simpa using accepts)
  · rintro (external | rejects) schedule
    · rw [validateTransactionsUnder_iff reads normal structured,
        sequentialCheck_iff structured external]
    · rw [validateTransactionsUnder_iff reads normal structured, rejects]
      refine ⟨fun accepted => ?_, fun absurd => by cases absurd⟩
      rw [← sequentialCheck_iff structured accepted.external, rejects] at accepted
      exact accepted

end Sequential

end Equivalence

namespace Sample

/-- A storage that holds the allocation of the sample genesis. -/
def funds : MemoryView :=
  { MemoryView.default with
    utxos := Table.insertAll (genesis.data.transactions.flatMap Transaction.createdUtxos) ∅ }

/-- The account 7 pays its allocation to the account 8, which passes it on. -/
def earn : Transaction :=
  payment 7 ((genesis.data.transactions.flatMap Transaction.createdUtxos).map Prod.fst)
    [⟨1000, ⟨8⟩⟩]

def passOn : Transaction := payment 8 (earn.createdUtxos.map Prod.fst) [⟨1000, ⟨6⟩⟩]

end Sample

open Sample in
/-- A block that spends one of its own outputs: the reference accepts it, validation does not. -/
theorem validateTransactions_rejects_own_output :
    validateBlockStructure (above genesis 1 [earn, passOn]) = .ok () ∧
    ¬ ∀ schedule,
      validateTransactionsUnder schedule (above genesis 1 [earn, passOn]) consts funds = .ok () ↔
        sequentialCheck consts funds.utxos.read (above genesis 1 [earn, passOn]) = true := by
  have structured : (validateBlockStructure (above genesis 1 [earn, passOn])).toOption.any
      (fun _ => true) = true := by decide +kernel
  have accepted : sequentialCheck consts funds.utxos.read (above genesis 1 [earn, passOn]) = true := by
    decide +kernel
  have rejected : (validateTransactionsUnder (fun _ => []) (above genesis 1 [earn, passOn]) consts
      funds).toOption = none := by decide +kernel
  obtain ⟨⟨⟩, ok, -⟩ := exists_ok_of_any structured
  refine ⟨ok, fun agree => ?_⟩
  rw [(agree fun _ => []).mpr accepted] at rejected
  cases rejected

open Sample in
/-- A block that spends the allocation of genesis. -/
theorem validateTransactions_agrees_sample :
    validateBlockStructure (above genesis 1 [earn]) = .ok () ∧
    ((∀ schedule, validateTransactionsUnder schedule (above genesis 1 [earn]) consts funds = .ok () ↔
      sequentialCheck consts funds.utxos.read (above genesis 1 [earn]) = true) ↔
    (∀ o ∈ paymentInputsOf (above genesis 1 [earn]).data.transactions,
      o ∉ createdBy (above genesis 1 [earn]).data.transactions) ∨
      sequentialCheck consts funds.utxos.read (above genesis 1 [earn]) = false) := by
  have structured : (validateBlockStructure (above genesis 1 [earn])).toOption.any
      (fun _ => true) = true := by decide +kernel
  obtain ⟨⟨⟩, ok, -⟩ := exists_ok_of_any structured
  exact ⟨ok, validateTransactions_agrees_iff (fun _ => rfl) rfl ok⟩

end StryiChain
