import Mathlib.Data.List.Sort
import StryiChain.Storage.Transition

/-!
# Making a genesis block (`block/mod.rs`, `storage/transition.rs`)

The balances of a new chain come from a hash map and are sorted before they are paid out, so that
everyone who starts from the same balances makes the same block. The block passes
`validate_genesis` exactly when the balances and the parameters are fit for a chain.
-/

namespace StryiChain

variable [Primitives]

/-- The order of the allocations: larger balances first, ties by the bytes of the address. -/
def allocationOrder (a b : AccountAddress × UInt64) : Bool :=
  decide (b.2 < a.2 ∨ a.2 = b.2 ∧ a.1.bytes ≤ b.1.bytes)

/-- The outputs of the genesis transaction. -/
def genesisOutputs (wantedBalances : Table AccountAddress UInt64) : List TransactionOut :=
  ((iter wantedBalances.toPairs).mergeSort allocationOrder).map fun (address, balance) =>
    ⟨balance, address⟩

/-- `Block::new_genesis` (`block/mod.rs:130-190`). -/
def Block.newGenesis (version : UInt16) (wantedBalances : Table AccountAddress UInt64)
    (genesisState : GenesisState) : Block :=
  let transaction : Transaction :=
    ⟨⟨version, .genesis, [], genesisOutputs wantedBalances⟩, ⟨0⟩⟩
  let merkleHash := computeMerkleRoot [transaction]
  ⟨⟨version, merkleHash, .empty, 0, 0, 0, 0, some genesisState⟩, ⟨[transaction]⟩⟩

section Order

omit [Primitives]

variable {a b c : AccountAddress × UInt64}

theorem allocationOrder_iff :
    allocationOrder a b = true ↔ b.2 < a.2 ∨ a.2 = b.2 ∧ a.1.bytes ≤ b.1.bytes := decide_eq_true_iff

theorem allocationOrder_total (a b : AccountAddress × UInt64) :
    (allocationOrder a b || allocationOrder b a) = true := by
  rw [Bool.or_eq_true, allocationOrder_iff, allocationOrder_iff]
  by_cases same : a.2 = b.2
  · rcases List.le_total a.1.bytes b.1.bytes with le | ge
    · exact .inl (.inr ⟨same, le⟩)
    · exact .inr (.inr ⟨same.symm, ge⟩)
  · rw [← UInt64.toNat_inj] at same
    rcases Nat.lt_or_gt_of_ne same with lt | gt
    · exact .inr (.inl (UInt64.lt_iff_toNat_lt.mpr lt))
    · exact .inl (.inl (UInt64.lt_iff_toNat_lt.mpr gt))

theorem allocationOrder_trans (a b c : AccountAddress × UInt64)
    (ab : allocationOrder a b = true) (bc : allocationOrder b c = true) :
    allocationOrder a c = true := by
  rw [allocationOrder_iff] at ab bc ⊢
  rcases ab with ab | ⟨same, ab⟩
  · rcases bc with bc | ⟨same', bc⟩
    · exact .inl (UInt64.lt_trans bc ab)
    · exact .inl (same' ▸ ab)
  · rcases bc with bc | ⟨same', bc⟩
    · exact .inl (same ▸ bc)
    · exact .inr ⟨same.trans same', List.le_trans ab bc⟩

theorem allocationOrder_antisymm (ab : allocationOrder a b = true)
    (ba : allocationOrder b a = true) : a = b := by
  rw [allocationOrder_iff, UInt64.lt_iff_toNat_lt] at ab ba
  rcases ab with ab | ⟨same, ab⟩
  · rcases ba with ba | ⟨same', -⟩
    · omega
    · rw [same'] at ab
      exact absurd ab (Nat.lt_irrefl _)
  · rcases ba with ba | ⟨-, ba⟩
    · rw [same] at ba
      exact absurd ba (Nat.lt_irrefl _)
    · exact Prod.ext (Hash.bytes_injective (List.le_antisymm ab ba)) same

/-- The order leaves no choice, so that the sorted list depends on the bindings alone. -/
theorem sorted_unique {l l' : List (AccountAddress × UInt64)} (same : l.Perm l') :
    l.mergeSort allocationOrder = l'.mergeSort allocationOrder := by
  apply List.Perm.eq_of_pairwise (fun a b _ _ ab ba => allocationOrder_antisymm ab ba)
  · exact List.pairwise_mergeSort allocationOrder_trans allocationOrder_total l
  · exact List.pairwise_mergeSort allocationOrder_trans allocationOrder_total l'
  · exact (List.mergeSort_perm l _).trans (same.trans (List.mergeSort_perm l' _).symm)

/-- Tables that read alike list the same bindings. -/
theorem toPairs_perm {K V : Type} [DecidableEq K] {t t' : Table K V} (same : t.read = t'.read) :
    t.toPairs.Perm t'.toPairs := by
  apply (List.perm_ext_iff_of_nodup t.nodup_toPairs_keys.of_map t'.nodup_toPairs_keys.of_map).mpr
  intro entry
  rw [Table.mem_toPairs, Table.mem_toPairs, same]

end Order

section Genesis

variable {version : UInt16} {wantedBalances wantedBalances' : Table AccountAddress UInt64}
  {genesisState : GenesisState} {block : Block}

/-- The outputs do not depend on the order in which a hash map lists the balances. -/
theorem genesisOutputs_congr (same : wantedBalances.read = wantedBalances'.read) :
    genesisOutputs wantedBalances = genesisOutputs wantedBalances' := by
  have order : (iter wantedBalances.toPairs).Perm (iter wantedBalances'.toPairs) :=
    (iter_perm _).trans ((toPairs_perm same).trans (iter_perm _).symm)
  rw [genesisOutputs, sorted_unique order, ← genesisOutputs]

theorem mem_genesisOutputs {output : TransactionOut} : output ∈ genesisOutputs wantedBalances ↔
    wantedBalances.read output.recipient = some output.value := by
  rw [genesisOutputs, List.mem_map]
  constructor
  · rintro ⟨⟨address, balance⟩, mem, rfl⟩
    exact Table.mem_toPairs.mp (mem_iter.mp (List.mem_mergeSort.mp mem))
  · intro bound
    exact ⟨(output.recipient, output.value),
      List.mem_mergeSort.mpr (mem_iter.mpr (Table.mem_toPairs.mpr bound)), rfl⟩

/-- Different balances lead to different outputs. -/
theorem genesisOutputs_inj : genesisOutputs wantedBalances = genesisOutputs wantedBalances' ↔
    wantedBalances.read = wantedBalances'.read := by
  constructor
  · intro same
    funext address
    apply Option.ext
    intro balance
    have paid : (⟨balance, address⟩ : TransactionOut) ∈ genesisOutputs wantedBalances ↔
        ⟨balance, address⟩ ∈ genesisOutputs wantedBalances' := by rw [same]
    rw [mem_genesisOutputs, mem_genesisOutputs] at paid
    exact paid
  · exact genesisOutputs_congr

/-- Every account is paid once. -/
theorem nodup_recipients (wantedBalances : Table AccountAddress UInt64) :
    ((genesisOutputs wantedBalances).map TransactionOut.recipient).Nodup := by
  have order : ((iter wantedBalances.toPairs).mergeSort allocationOrder).Perm
      wantedBalances.toPairs := (List.mergeSort_perm _ _).trans (iter_perm _)
  have recipients : (genesisOutputs wantedBalances).map TransactionOut.recipient =
      ((iter wantedBalances.toPairs).mergeSort allocationOrder).map Prod.fst := by
    rw [genesisOutputs, List.map_map]
    rfl
  rw [recipients, (order.map Prod.fst).nodup_iff]
  exact wantedBalances.nodup_toPairs_keys

omit [Primitives] in
/-- The loop over the allocations, with the recipients seen so far. -/
theorem allocationLoop_eq_ok {step : List AccountAddress → TransactionOut →
      Except StorageError (List AccountAddress)}
    (step_eq_ok : ∀ {recipients : List AccountAddress} {output : TransactionOut}
      {seen : List AccountAddress}, step recipients output = .ok seen ↔
        (output.value ≠ 0 ∧ output.recipient ∉ recipients) ∧
          output.recipient :: recipients = seen)
    (outputs : List TransactionOut) (recipients : List AccountAddress) :
    (∃ seen, outputs.foldlM step recipients = .ok seen) ↔
      (∀ output ∈ outputs, output.value ≠ 0 ∧ output.recipient ∉ recipients) ∧
        (outputs.map TransactionOut.recipient).Nodup := by
  induction outputs generalizing recipients with
  | nil => exact ⟨fun _ => ⟨by simp, List.nodup_nil⟩, fun _ => ⟨recipients, rfl⟩⟩
  | cons output outputs ih =>
    have first : (∃ seen, (output :: outputs).foldlM step recipients = .ok seen) ↔
        (output.value ≠ 0 ∧ output.recipient ∉ recipients) ∧
          ∃ seen, outputs.foldlM step (output.recipient :: recipients) = .ok seen := by
      simp only [List.foldlM_cons, bind_eq_ok, step_eq_ok]
      constructor
      · rintro ⟨seen, next, ⟨free, rfl⟩, rest⟩
        exact ⟨free, seen, rest⟩
      · rintro ⟨free, seen, rest⟩
        exact ⟨seen, _, ⟨free, rfl⟩, rest⟩
    rw [first, ih, List.forall_mem_cons, List.map_cons, List.nodup_cons]
    constructor
    · rintro ⟨here, later, distinct⟩
      refine ⟨⟨here, fun x mem => ?_⟩, ?_, distinct⟩
      · obtain ⟨positive, apart⟩ := later x mem
        exact ⟨positive, fun seen => apart (List.mem_cons_of_mem _ seen)⟩
      · intro paid
        obtain ⟨x, mem, same⟩ := List.mem_map.mp paid
        exact (later x mem).2 (same ▸ List.mem_cons_self)
    · rintro ⟨⟨here, later⟩, apart, distinct⟩
      refine ⟨here, fun x mem => ⟨(later x mem).1, ?_⟩, distinct⟩
      intro seen
      rcases List.mem_cons.mp seen with same | old
      · exact apart (same ▸ List.mem_map_of_mem mem)
      · exact (later x mem).2 old

omit [Primitives] in
theorem checkAllocations_eq_ok {outputs : List TransactionOut} :
    checkAllocations outputs = .ok () ↔
      (∀ output ∈ outputs, output.value ≠ 0) ∧
        (outputs.map TransactionOut.recipient).Nodup := by
  rw [checkAllocations]
  simp only [bind_eq_ok, pure_eq_ok, and_true]
  rw [allocationLoop_eq_ok]
  · simp
  · intro recipients output seen
    simp only [bind_eq_ok, failIf_eq_ok, pure_eq_ok, not_or]
    constructor
    · intro added
      cases added with
      | intro _ added => exact added
    · intro added
      exact ⟨(), added⟩

/-- The block is valid as a genesis block if and only if there is a balance, every balance is
positive and the proof-of-work parameters are valid. -/
theorem validateGenesis_newGenesis :
    validateGenesis (Block.newGenesis version wantedBalances genesisState) = .ok () ↔
      genesisState.consensusConsts.pow.validate = .ok () ∧
        (∃ address balance, wantedBalances.read address = some balance) ∧
          ∀ address balance, wantedBalances.read address = some balance → balance ≠ 0 := by
  have merkle : (Block.newGenesis version wantedBalances genesisState).isMerkleRootValid = true := by
    rw [Block.isMerkleRootValid, decide_eq_true_eq]
    rfl
  have shape : verifyGenesisWorkShape (Block.newGenesis version wantedBalances genesisState) =
      .ok () := by
    simp [verifyGenesisWorkShape, verifyGenesisHeaderWorkShape, Block.newGenesis]
  have paid : genesisOutputs wantedBalances ≠ [] ↔
      ∃ address balance, wantedBalances.read address = some balance := by
    constructor
    · intro ne
      obtain ⟨output, rest, cons⟩ := List.exists_cons_of_ne_nil ne
      exact ⟨_, _, mem_genesisOutputs.mp (cons ▸ List.mem_cons_self)⟩
    · rintro ⟨address, balance, bound⟩ none
      have mem : (⟨balance, address⟩ : TransactionOut) ∈ genesisOutputs wantedBalances :=
        mem_genesisOutputs.mpr bound
      rw [none] at mem
      cases mem
  rw [validateGenesis, shape, merkle]
  simp only [mapError_ok, bind_ok, Block.newGenesis, okOr_some, bind_eq_ok, mapError_eq_ok,
    failIf_eq_ok, checkAllocations_eq_ok, not_or, not_not, true_and, ← paid]
  constructor
  · rintro ⟨⟨⟩, valid, ⟨⟩, ne, positive, -⟩
    refine ⟨valid, ne, ?_⟩
    intro address balance bound
    exact positive ⟨balance, address⟩ (mem_genesisOutputs.mpr bound)
  · rintro ⟨valid, ne, positive⟩
    refine ⟨(), valid, (), ne, ?_, nodup_recipients wantedBalances⟩
    intro output mem
    exact positive output.recipient output.value (mem_genesisOutputs.mp mem)

/-- Whoever starts from the same version, balances and parameters makes the same block, and nobody
else does. -/
theorem Block.newGenesis_inj {version' : UInt16} {genesisState' : GenesisState} :
    Block.newGenesis version wantedBalances genesisState =
        Block.newGenesis version' wantedBalances' genesisState' ↔
      version = version' ∧ wantedBalances.read = wantedBalances'.read ∧
        genesisState = genesisState' := by
  constructor
  · intro same
    have outputs := congrArg (fun block : Block => block.data.transactions) same
    simp only [Block.newGenesis, List.cons.injEq, Transaction.mk.injEq, TransactionData.mk.injEq,
      and_true, true_and] at outputs
    have state := congrArg (fun block : Block => block.header.genesisState) same
    exact ⟨outputs.1, genesisOutputs_inj.mp outputs.2, Option.some.inj state⟩
  · rintro ⟨rfl, same, rfl⟩
    rw [Block.newGenesis, Block.newGenesis, genesisOutputs_congr same]

end Genesis

end StryiChain
