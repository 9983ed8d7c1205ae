import Mathlib.Algebra.BigOperators.Intervals
import StryiChain.Chain.Storage
import StryiChain.Consensus.Sequential

/-!
# The ledger of validated blocks

A validated block spends nothing of its own. It therefore acts on the UTXO set as its
transactions do one after the other, and what it creates is covered by what it consumes and by
the subsidy.
-/

namespace StryiChain

variable [Primitives]

section Scan

omit [Primitives] in
/-- Inputs that the block has not created come from storage. -/
theorem scanInputs_eq {inputs : List OutPoint} {scan : BlockScan}
    (absent : ∀ o ∈ inputs, scan.createdUtxos.read o = none) :
    inputs.foldl BlockScan.input scan =
      { scan with externalInputs := scan.externalInputs ++ inputs } := by
  induction inputs generalizing scan with
  | nil => simp
  | cons o inputs ih =>
    have one : scan.input o = { scan with externalInputs := scan.externalInputs ++ [o] } := by
      simp [BlockScan.input, absent o (by simp)]
    have later : ∀ x ∈ inputs, (scan.input o).createdUtxos.read x = none := by
      rw [one]
      exact fun x mem => absent x (List.mem_cons_of_mem _ mem)
    rw [List.foldl_cons, ih later, one]
    simp

/-- The scan of transactions that spend nothing of each other. -/
theorem scan_eq {txs : List Transaction} (scan : BlockScan)
    (fresh : ∀ o ∈ paymentInputsOf txs, scan.createdUtxos.read o = none)
    (external : ∀ o ∈ paymentInputsOf txs, o ∉ createdBy txs) :
    txs.foldl BlockScan.transaction scan =
      ⟨scan.createdUtxos.insertAll (txs.flatMap Transaction.createdUtxos),
        scan.externalInputs ++ paymentInputsOf txs⟩ := by
  induction txs generalizing scan with
  | nil => simp [paymentInputsOf, Table.insertAll]
  | cons tx txs ih =>
    have split := paymentInputsOf_cons tx txs
    have outs := createdBy_cons tx txs
    rw [split] at fresh external ⊢
    rw [outs] at external
    have first : scan.transaction tx =
        ⟨scan.createdUtxos.insertAll tx.createdUtxos, scan.externalInputs ++ tx.paymentInputs⟩ := by
      rw [BlockScan.transaction,
        scanInputs_eq fun o mem => fresh o (List.mem_append_left _ mem)]
    rw [List.foldl_cons, first, ih]
    · simp [Table.insertAll, List.foldl_append]
    · intro o mem
      dsimp only
      rw [Table.read_insertAll, putAll_of_notMem]
      · exact fresh o (List.mem_append_right _ mem)
      · exact fun here => external o (List.mem_append_right _ mem) (List.mem_append_left _ here)
    · exact fun o mem here =>
        external o (List.mem_append_right _ mem) (List.mem_append_right _ here)

variable {b : Block}

/-- What a block that spends nothing of its own consumes and creates. -/
theorem scan_block
    (external : ∀ o ∈ paymentInputsOf b.data.transactions, o ∉ createdBy b.data.transactions) :
    b.external = paymentInputsOf b.data.transactions ∧
      b.created = Table.insertAll (b.data.transactions.flatMap Transaction.createdUtxos) ∅ := by
  have scan := scan_eq ⟨∅, []⟩ (fun o _ => Table.read_empty o) external
  constructor
  · rw [Block.external, BlockScan.ofBlock, scan, List.nil_append]
  · rw [Block.created, BlockScan.ofBlock, scan]

/-- The transactions of a list, one after the other, when none spends an output of another. -/
theorem transactAll {txs : List Transaction}
    (external : ∀ o ∈ paymentInputsOf txs, o ∉ createdBy txs) (m : Coins) :
    txs.foldl Coins.transact m =
      putAll (txs.flatMap Transaction.createdUtxos) (eraseAll (paymentInputsOf txs) m) := by
  induction txs generalizing m with
  | nil => simp [paymentInputsOf]
  | cons tx txs ih =>
    have split := paymentInputsOf_cons tx txs
    have outs := createdBy_cons tx txs
    rw [split, outs] at external
    rw [List.foldl_cons, ih fun o mem here =>
      external o (List.mem_append_right _ mem) (List.mem_append_right _ here), split,
      List.flatMap_cons, putAll_append]
    congr 1
    funext o
    -- The inputs of the later transactions are not among the outputs of the first.
    by_cases later : o ∈ paymentInputsOf txs
    · rw [eraseAll_of_mem later, putAll_of_notMem fun here =>
        external o (List.mem_append_right _ later) (List.mem_append_left _ here),
        eraseAll_of_mem (List.mem_append_right _ later)]
    · rw [eraseAll_of_notMem later, Coins.transact]
      refine putAll_congr ?_
      simp [eraseAll, later]

/-- A block that spends nothing of its own acts as its transactions do. -/
theorem apply_eq_transact
    (external : ∀ o ∈ paymentInputsOf b.data.transactions, o ∉ createdBy b.data.transactions)
    (m : Coins) : Coins.apply b m = b.data.transactions.foldl Coins.transact m := by
  obtain ⟨consumed, created⟩ := scan_block external
  funext o
  rw [Coins.apply_apply_eq, transactAll external, consumed, created, Table.read_insertAll,
    putAll_or]
  refine putAll_congr ?_
  simp

end Scan

section Admitted

/-- What is known of a block that has passed validation over the map `m`. -/
structure Admitted (rules : ConsensusConsts) (m : Coins) (b : Block) : Prop where
  structured : Structured b
  merkle : b.isMerkleRootValid = true
  accepted : Accepted rules m b

variable {rules : ConsensusConsts} {m m' : Coins} {b : Block}

theorem Accepted.present (accepted : Accepted rules m b) :
    ∀ o ∈ paymentInputsOf b.data.transactions, m o ≠ none := by
  intro o mem
  obtain ⟨tx, inside, input⟩ := List.mem_flatMap.mp mem
  obtain ⟨utxo, found, -⟩ := (accepted.each tx inside).2.owned o input
  simp [found]

theorem Accepted.applicable (accepted : Accepted rules m b) : Coins.Applicable b m := by
  rw [Coins.Applicable, (scan_block accepted.external).1]
  exact ⟨accepted.inputs, accepted.present⟩

/-- A block stays accepted when more is there to spend. -/
theorem Accepted.mono (below : Submap m m') (accepted : Accepted rules m b) :
    Accepted rules m' b := by
  have same : ∀ o ∈ paymentInputsOf b.data.transactions, m o = m' o := by
    intro o mem
    obtain ⟨utxo, found⟩ := Option.ne_none_iff_exists'.mp (accepted.present o mem)
    rw [found, below o utxo found]
  exact ⟨accepted.outputs, accepted.external, accepted.inputs, fun tx mem =>
    (accepted.each tx mem).congr fun o input => same o (List.mem_flatMap.mpr ⟨tx, mem, input⟩),
    accepted.reward.congr same⟩

theorem Admitted.mono (below : Submap m m') (admitted : Admitted rules m b) :
    Admitted rules m' b :=
  ⟨admitted.structured, admitted.merkle, admitted.accepted.mono below⟩

/-- Every block of the chain above genesis was admitted on the ledger below it. -/
def Admissible (rules : ConsensusConsts) (w : List Block) : Prop :=
  ∀ (p q : List Block) (b : Block), w = p ++ b :: q → p ≠ [] →
    Admitted rules (Coins.ledger p) b

theorem Admissible.singleton (g : Block) : Admissible rules [g] := by
  intro p q b eq ne
  have length := congrArg List.length eq
  have pos := List.length_pos_iff.mpr ne
  simp only [List.length_append, List.length_cons, List.length_nil] at length
  omega

theorem Admissible.left {p q : List Block} (admissible : Admissible rules (p ++ q)) :
    Admissible rules p := by
  rintro front back b rfl ne
  exact admissible front (back ++ q) b (by simp) ne

theorem Admissible.concat {w : List Block} (admissible : Admissible rules w)
    (admitted : Admitted rules (Coins.ledger w) b) : Admissible rules (w ++ [b]) := by
  intro p q a eq ne
  rcases List.eq_nil_or_concat q with rfl | ⟨front, last, rfl⟩
  · obtain ⟨rfl, same⟩ := List.append_inj' eq rfl
    obtain rfl : b = a := by simpa using same
    exact admitted
  · rw [List.concat_eq_append, ← List.cons_append, ← List.append_assoc] at eq
    obtain ⟨rfl, -⟩ := List.append_inj' eq rfl
    exact admissible _ _ _ rfl ne

/-- Admitted blocks can be applied one after the other. -/
theorem Admissible.applies {g : Block} {rest : List Block} (genesis : GenesisShape g)
    (admissible : Admissible rules (g :: rest)) :
    Coins.Applies (fun _ => none) (g :: rest) := by
  induction rest using List.reverseRecOn with
  | nil => exact ⟨genesis.applicable _, trivial⟩
  | append_singleton rest b ih =>
    rw [← List.cons_append] at admissible ⊢
    rw [Coins.applies_append]
    refine ⟨ih admissible.left, (admissible _ _ _ rfl (by simp)).accepted.applicable, trivial⟩

/-- The transaction of a genesis block has no inputs. -/
theorem GenesisShape.external {g : Block} (genesis : GenesisShape g) :
    ∀ o ∈ paymentInputsOf g.data.transactions, o ∉ createdBy g.data.transactions := by
  obtain ⟨tx, single, kind⟩ := genesis.transaction
  simp [paymentInputsOf, single, Transaction.paymentInputs, kind]

/-- The ledger of admitted blocks is what their transactions leave behind. -/
theorem Admissible.ledger_eq_replay {g : Block} {rest : List Block} (genesis : GenesisShape g)
    (admissible : Admissible rules (g :: rest)) :
    Coins.ledger (g :: rest) = Coins.replay (g :: rest) := by
  induction rest using List.reverseRecOn with
  | nil =>
    have external := genesis.external
    rw [Coins.replay, List.flatMap_singleton, ← apply_eq_transact external]
    rfl
  | append_singleton rest b ih =>
    rw [← List.cons_append] at admissible ⊢
    have admitted := admissible _ _ _ rfl (by simp)
    rw [Coins.ledger_concat, ih admissible.left, apply_eq_transact admitted.accepted.external,
      Coins.replay, Coins.replay, List.flatMap_append, List.foldl_append, List.flatMap_singleton]

end Admitted

section Supply

variable {rules : ConsensusConsts} {m : Coins} {b g : Block}

theorem createdUtxos_total (tx : Transaction) :
    (tx.createdUtxos.map fun entry => entry.2.value.toNat).sum = tx.outputTotal := by
  rw [Transaction.createdUtxos, List.map_map, Transaction.outputTotal]
  conv_rhs => rw [← List.zipIdx_map_fst 0 tx.data.outputs, List.map_map]
  rfl

theorem created_total_le (txs : List Transaction) :
    ((Table.insertAll (txs.flatMap Transaction.createdUtxos) ∅).toPairs.map fun entry =>
      entry.2.value.toNat).sum ≤ (txs.map Transaction.outputTotal).sum := by
  have total : ((txs.flatMap Transaction.createdUtxos).map fun entry =>
      entry.2.value.toNat).sum = (txs.map Transaction.outputTotal).sum := by
    induction txs with
    | nil => rfl
    | cons tx txs ih =>
      rw [List.flatMap_cons, List.map_append, List.sum_append, ih, createdUtxos_total,
        List.map_cons, List.sum_cons]
  have bound := Table.sum_insertAll_le (fun entry : OutPoint × UTXO => entry.2.value.toNat)
    (txs.flatMap Transaction.createdUtxos) ∅
  rw [total] at bound
  exact bound

/-- What the payments of a list consume is what they create and their fees. -/
theorem payments_balance {payments : List Transaction}
    (kinds : ∀ tx ∈ payments, tx.data.kind = .payment) (each : ∀ tx ∈ payments, TxOk m tx) :
    (payments.map Transaction.outputTotal).sum + totalFees m payments =
      m.worthAll (paymentInputsOf payments) := by
  induction payments with
  | nil => rfl
  | cons tx payments ih =>
    have rest := ih (fun t mem => kinds t (List.mem_cons_of_mem _ mem))
      fun t mem => each t (List.mem_cons_of_mem _ mem)
    have kind := kinds tx (by simp)
    have enough := ((each tx (by simp)).feeOk kind).outputs
    have fee : tx.fee m = m.worthAll tx.spentOutpoints - tx.outputTotal := by
      simp [Transaction.fee, Transaction.paymentInputs, kind]
    have inputs : paymentInputsOf (tx :: payments) =
        tx.spentOutpoints ++ paymentInputsOf payments := by
      simp [paymentInputsOf, Transaction.paymentInputs, kind]
    rw [inputs, Coins.worthAll_append, ← rest]
    simp only [totalFees, List.map_cons, List.sum_cons, fee]
    omega

/-- An admitted block creates at most the subsidy beyond what it consumes. -/
theorem Admitted.balance (admitted : Admitted rules m b) :
    (b.created.toPairs.map fun entry => entry.2.value.toNat).sum ≤
      (rules.blockSubsidy b.header.height).toNat + m.worthAll b.external := by
  obtain ⟨structured, -, accepted⟩ := admitted
  obtain ⟨consumed, created⟩ := scan_block accepted.external
  obtain ⟨coinbase, payments, txs, kind, followers⟩ := structured.composition
  obtain ⟨-, coinbase', output, first, out, covered⟩ := accepted.reward
  rw [created, consumed]
  refine (created_total_le _).trans ?_
  have each := accepted.each
  rw [txs] at first covered each ⊢
  rw [List.head?_cons, Option.some.injEq] at first
  subst first
  have start := (each coinbase (by simp)).1
  simp only [Startable, kind] at start
  have inputs : coinbase.paymentInputs = [] := by simp [Transaction.paymentInputs, kind]
  have total : coinbase.outputTotal = output.value.toNat := by
    obtain ⟨single, one⟩ := List.length_eq_one_iff.mp start.2
    rw [one, List.head?_cons, Option.some.injEq] at out
    subst out
    simp [Transaction.outputTotal, one]
  have fees : totalFees m (coinbase :: payments) = totalFees m payments := by
    simp [totalFees, Transaction.fee, inputs]
  have consumes : paymentInputsOf (coinbase :: payments) = paymentInputsOf payments := by
    simp [paymentInputsOf, inputs]
  have balance := payments_balance followers fun tx mem => each tx (List.mem_cons_of_mem _ mem)
  rw [fees] at covered
  rw [consumes, List.map_cons, List.sum_cons, total]
  omega

/-- The value that genesis allocates. -/
def allocations (g : Block) : Nat := (g.data.transactions.map Transaction.outputTotal).sum

/-- The allocations and the subsidies of the heights above genesis. -/
def supplyCap (rules : ConsensusConsts) (g : Block) (height : Nat) : Nat :=
  allocations g + ∑ h ∈ Finset.Icc 1 height, (rules.blockSubsidy (UInt64.ofNat h)).toNat

/-- The ledger of admitted blocks holds at most the allocations and the subsidies. -/
theorem Admissible.supply {rest : List Block} (genesis : GenesisShape g)
    (chain : IsChain (g :: rest)) (admissible : Admissible rules (g :: rest))
    (keys : Finset OutPoint) :
    ∑ o ∈ keys, (Coins.ledger (g :: rest)).worth o ≤ supplyCap rules g rest.length := by
  induction rest using List.reverseRecOn generalizing keys with
  | nil =>
    have external := genesis.external
    have created := (scan_block external).2
    have nothing : ∀ keys : Finset OutPoint,
        ∑ o ∈ keys, valueAt (fun u : UTXO => u.value.toNat) (fun _ => none) o ≤ 0 := by
      simp [valueAt]
    have balance := (created_total_le g.data.transactions).trans (Nat.le_add_right _
      (g.external.map (valueAt (fun u : UTXO => u.value.toNat) fun _ => none)).sum)
    rw [← created] at balance
    have bound := sum_update_le (fun u : UTXO => u.value.toNat) g.external g.created.toPairs
      (allocations g) (genesis.applicable fun _ => none).1 nothing balance keys
    rw [Nat.zero_add] at bound
    refine Nat.le_trans (Nat.le_of_eq ?_) (bound.trans (Nat.le_add_right _ _))
    rfl
  | append_singleton rest b ih =>
    rw [← List.cons_append] at chain admissible ⊢
    have below := ih (chain.left (by simp)) admissible.left
    have admitted := admissible _ _ _ rfl (by simp)
    have bound := sum_update_le (fun u : UTXO => u.value.toNat) b.external b.created.toPairs
      (rules.blockSubsidy b.header.height).toNat admitted.accepted.applicable.1 below admitted.balance keys
    have height : UInt64.ofNat (rest.length + 1) = b.header.height := by
      have at_top := chain.height_eq_length (q := [])
      rw [List.length_cons] at at_top
      rw [← at_top, UInt64.ofNat_toNat]
    have cap : supplyCap rules g (rest ++ [b]).length =
        supplyCap rules g rest.length + (rules.blockSubsidy b.header.height).toNat := by
      rw [supplyCap, supplyCap, List.length_append, List.length_singleton,
        Finset.sum_Icc_succ_top (by omega), height, Nat.add_assoc]
    rw [Coins.ledger_concat, cap]
    exact bound

end Supply

end StryiChain
