import StryiChain.Chain.Ledger
import StryiChain.Storage.MemoryLawful
import StryiChain.Utxo.Positions

/-!
# Processing a block transaction by transaction

The meaning of a block as a sequence: every input of a payment has to be present at its turn and
is deleted, then the outputs are inserted. `apply_block` collects first and writes in two
batches; over a map that holds none of the outputs of the block, both agree on every block.
-/

namespace StryiChain

section Sequence

variable [Primitives]

namespace Coins

/-- One input of a payment, which has to be present. -/
def consume (m : Coins) (o : OutPoint) : Option Coins :=
  if m o = none then none else some (Function.update m o none)

/-- One transaction at its turn. -/
def process (m : Coins) (tx : Transaction) : Option Coins := do
  let left ← tx.paymentInputs.foldlM consume m
  return putAll tx.createdUtxos left

/-- The transactions of a block in order over an evolving map. -/
def processBlock (block : Block) (m : Coins) : Option Coins :=
  block.data.transactions.foldlM process m

end Coins

/-- The map as a sequence of transactions sees it after a scan: what the block has created, over
what it has not taken. -/
def BlockScan.view (scan : BlockScan) (m : Coins) : Coins :=
  fun o => (scan.createdUtxos.read o).or (eraseAll scan.externalInputs m o)

/-- What the scan takes from the map can be taken. -/
def BlockScan.Takes (scan : BlockScan) (m : Coins) : Prop :=
  scan.externalInputs.Nodup ∧ ∀ o ∈ scan.externalInputs, m o ≠ none

/-- What the scan has created was not in the map. -/
def BlockScan.New (scan : BlockScan) (m : Coins) : Prop :=
  ∀ o, scan.createdUtxos.read o ≠ none → m o = none

open Coins

section Inputs

omit [Primitives]

variable {scan : BlockScan} {m : Coins} {o : OutPoint}

theorem consume_of_none (absent : m o = none) : consume m o = none := if_pos absent

theorem consume_of_some {u : UTXO} (present : m o = some u) :
    consume m o = some (Function.update m o none) := if_neg (by simp [present])

/-- An input that the block itself supplies. -/
theorem input_created {u : UTXO} (held : scan.createdUtxos.read o = some u) :
    scan.input o = { scan with createdUtxos := AList.erase o scan.createdUtxos } := by
  simp [BlockScan.input, held]

/-- An input that has to come from storage. -/
theorem input_external (absent : scan.createdUtxos.read o = none) :
    scan.input o = { scan with externalInputs := scan.externalInputs ++ [o] } := by
  simp [BlockScan.input, absent]

theorem prefix_inputs (ops : List OutPoint) (scan : BlockScan) :
    scan.externalInputs <+: (ops.foldl BlockScan.input scan).externalInputs := by
  induction ops generalizing scan with
  | nil => exact List.prefix_rfl
  | cons op ops ih =>
    refine List.IsPrefix.trans ?_ (ih (scan.input op))
    unfold BlockScan.input
    split
    · exact List.prefix_rfl
    · exact List.prefix_append _ _

/-- What cannot be taken stays so, however the scan goes on. -/
theorem BlockScan.Takes.mono {scan' : BlockScan}
    (pre : scan.externalInputs <+: scan'.externalInputs) (takes : scan'.Takes m) :
    scan.Takes m :=
  ⟨takes.1.sublist pre.sublist, fun o mem => takes.2 o (pre.subset mem)⟩

theorem new_input (new : scan.New m) (op : OutPoint) : (scan.input op).New m := by
  intro o held
  apply new o
  rw [read_input] at held
  by_cases same : o = op
  · simp [same] at held
  · rwa [Function.update_of_ne same] at held

theorem new_inputs (new : scan.New m) (ops : List OutPoint) :
    (ops.foldl BlockScan.input scan).New m := by
  induction ops generalizing scan with
  | nil => exact new
  | cons op ops ih => exact ih (new_input new op)

/-- One input: it is there exactly when the scan can go on, and its deletion is what the scan
sees. -/
theorem consume_view (new : scan.New m) (takes : scan.Takes m) (op : OutPoint) :
    ((scan.input op).Takes m ∧ consume (scan.view m) op = some ((scan.input op).view m)) ∨
      (¬ (scan.input op).Takes m ∧ consume (scan.view m) op = none) := by
  cases held : scan.createdUtxos.read op with
  | some u =>
    have seen : scan.view m op = some u := by simp [BlockScan.view, held]
    have absent : m op = none := new op (by simp [held])
    left
    rw [input_created held, consume_of_some seen]
    refine ⟨takes, congrArg some ?_⟩
    funext o
    by_cases same : o = op
    · subst same
      simp [BlockScan.view, Table.read_erase, eraseAll, absent]
    · simp [BlockScan.view, Table.read_erase, same]
  | none =>
    rw [input_external held]
    by_cases taken : op ∈ scan.externalInputs
    · right
      refine ⟨fun more => ?_, consume_of_none (by simp [BlockScan.view, held, eraseAll, taken])⟩
      exact List.nodup_append.mp more.1 |>.2.2 op taken op (by simp) rfl
    · have below : scan.view m op = m op := by
        simp [BlockScan.view, held, eraseAll_of_notMem taken]
      cases present : m op with
      | none =>
        right
        exact ⟨fun more => more.2 op (by simp) present, consume_of_none (below.trans present)⟩
      | some u =>
        left
        refine ⟨⟨?_, ?_⟩, ?_⟩
        · exact List.nodup_append.mpr ⟨takes.1, by simp, fun a mem b single same =>
            taken (by rw [List.mem_singleton.mp single] at same; exact same ▸ mem)⟩
        · intro o mem
          rcases List.mem_append.mp mem with old | last
          · exact takes.2 o old
          · simp [List.mem_singleton.mp last, present]
        · rw [consume_of_some (below.trans present)]
          refine congrArg some ?_
          funext o
          by_cases same : o = op
          · subst same
            simp [BlockScan.view, held, eraseAll]
          · simp [BlockScan.view, eraseAll, same]

/-- The inputs of a transaction, from the first to the last. -/
theorem consume_inputs (new : scan.New m) (takes : scan.Takes m) (ops : List OutPoint) :
    ((ops.foldl BlockScan.input scan).Takes m ∧
        ops.foldlM consume (scan.view m) = some ((ops.foldl BlockScan.input scan).view m)) ∨
      (¬ (ops.foldl BlockScan.input scan).Takes m ∧ ops.foldlM consume (scan.view m) = none) := by
  induction ops generalizing scan with
  | nil => exact .inl ⟨takes, rfl⟩
  | cons op ops ih =>
    rw [List.foldl_cons, List.foldlM_cons]
    rcases consume_view new takes op with ⟨next, step⟩ | ⟨stuck, step⟩
    · rw [step]
      exact ih (new_input new op) next
    · rw [step]
      exact .inr ⟨fun later => stuck (later.mono (prefix_inputs ops _)), rfl⟩

end Inputs

section Transactions

variable {scan : BlockScan} {m : Coins}

theorem prefix_transactions (txs : List Transaction) (scan : BlockScan) :
    scan.externalInputs <+: (txs.foldl BlockScan.transaction scan).externalInputs := by
  induction txs generalizing scan with
  | nil => exact List.prefix_rfl
  | cons tx txs ih =>
    exact (prefix_inputs tx.paymentInputs scan).trans (ih (scan.transaction tx))

theorem new_transaction {tx : Transaction} (new : scan.New m)
    (absent : ∀ o ∈ tx.outputKeys, m o = none) : (scan.transaction tx).New m := by
  intro o held
  rw [read_transaction, ne_eq, putAll_eq_none, not_and_or, not_not] at held
  rcases held with own | old
  · exact absent o own
  · rw [← read_inputs] at old
    exact new_inputs new _ o old

omit [Primitives] in
/-- The outputs of a transaction are inserted into what is seen. -/
theorem view_outputs (scan : BlockScan) (entries : List (OutPoint × UTXO)) (m : Coins) :
    BlockScan.view { scan with createdUtxos := scan.createdUtxos.insertAll entries } m =
      putAll entries (scan.view m) := by
  funext o
  simp only [BlockScan.view, Table.read_insertAll]
  exact putAll_or _ _ _ o

/-- The transactions of a block, from the first to the last. -/
theorem process_transactions (new : scan.New m) (takes : scan.Takes m) {txs : List Transaction}
    (absent : ∀ o ∈ createdBy txs, m o = none) :
    ((txs.foldl BlockScan.transaction scan).Takes m ∧
        txs.foldlM process (scan.view m) = some ((txs.foldl BlockScan.transaction scan).view m)) ∨
      (¬ (txs.foldl BlockScan.transaction scan).Takes m ∧
        txs.foldlM process (scan.view m) = none) := by
  induction txs generalizing scan with
  | nil => exact .inl ⟨takes, rfl⟩
  | cons tx txs ih =>
    have own : ∀ o ∈ tx.outputKeys, m o = none := fun o mem => absent o (by
      simp [createdBy_eq, mem])
    have later : ∀ o ∈ createdBy txs, m o = none := fun o mem => absent o (by
      simp only [createdBy_eq, List.flatMap_cons, List.mem_append]
      exact .inr mem)
    rw [List.foldl_cons, List.foldlM_cons, process]
    rcases consume_inputs new takes tx.paymentInputs with ⟨next, step⟩ | ⟨stuck, step⟩
    · rw [step]
      have after := ih (new_transaction new own) next later
      rw [BlockScan.transaction, view_outputs] at after
      exact after
    · rw [step]
      refine .inr ⟨fun all => stuck ?_, rfl⟩
      exact all.mono (prefix_transactions txs (scan.transaction tx))

/-- A block is processed exactly when it can be applied, with the same map. -/
theorem processBlock_eq {block : Block}
    (absent : ∀ o ∈ createdBy block.data.transactions, m o = none) :
    (Applicable block m ∧ processBlock block m = some (apply block m)) ∨
      (¬ Applicable block m ∧ processBlock block m = none) := by
  have start : BlockScan.view ⟨∅, []⟩ m = m := by
    funext o
    simp [BlockScan.view]
  have finish : (BlockScan.ofBlock block).view m = apply block m := by
    funext o
    exact (apply_apply_eq block m o).symm
  have new : BlockScan.New ⟨∅, []⟩ m := by simp [BlockScan.New]
  have takes : BlockScan.Takes ⟨∅, []⟩ m := by simp [BlockScan.Takes]
  have all := process_transactions new takes absent
  rw [start] at all
  rw [← finish]
  exact all

end Transactions

/-- `apply_block` against the block as a sequence of transactions, over any storage that behaves
as a map, such as the in-memory one in every state; and what validation accepts can be applied,
whatever it creates again. That the outputs of the block are distinct is not needed. -/
theorem applyBlock_sequential {S : Type} [UtxoWrite S] (laws : UtxoLaws S) {s : S}
    (sound : laws.Sound s) (block : Block) :
    ((∀ o ∈ createdBy block.data.transactions, laws.coins s o = none) → ∀ m' : Coins,
      (∃ undo s', applyBlock block s = .ok (undo, s') ∧ laws.coins s' = m') ↔
        processBlock block (laws.coins s) = some m') ∧
    (∀ rules : ConsensusConsts, block.header.isGenesis = false →
      validateBlockStructure block = .ok () → validateTransactions block rules s = .ok () →
      ∃ undo s', applyBlock block s = .ok (undo, s')) := by
  constructor
  · intro absent m'
    rcases processBlock_eq absent with ⟨applicable, processed⟩ | ⟨blocked, processed⟩
    · rw [processed, Option.some.injEq]
      obtain ⟨last, run, -, map, -⟩ := UtxoLaws.applyBlock_ok sound applicable
      constructor
      · rintro ⟨undo, s', again, rfl⟩
        rw [run, Except.ok.injEq, Prod.mk.injEq] at again
        rw [← again.2, map]
      · rintro rfl
        exact ⟨_, last, run, map⟩
    · rw [processed]
      obtain ⟨error, failed⟩ := UtxoLaws.applyBlock_error sound blocked
      constructor
      · rintro ⟨undo, s', run, -⟩
        rw [failed] at run
        cases run
      · intro impossible
        cases impossible
  · intro rules normal structured validated
    have accepted := (validateTransactionsUnder_iff (laws.reads sound) normal
      (validateBlockStructure_eq_ok normal structured)).mp validated
    obtain ⟨last, run, -⟩ := UtxoLaws.applyBlock_ok sound accepted.applicable
    exact ⟨_, last, run⟩

end Sequence

open Coins Sample in
/-- A block that spends one of its own outputs, and one that validation accepts. -/
theorem applyBlock_sequential_sample :
    (∀ m' : Coins, (∃ undo s', applyBlock (above genesis 1 [earn, passOn]) funds = .ok (undo, s') ∧
        s'.utxos.read = m') ↔
      processBlock (above genesis 1 [earn, passOn]) funds.utxos.read = some m') ∧
    ∃ undo s', applyBlock (above genesis 1 [earn]) funds = .ok (undo, s') := by
  have structured : (validateBlockStructure (above genesis 1 [earn])).toOption.any
      (fun _ => true) = true := by decide +kernel
  have validated : (validateTransactions (above genesis 1 [earn]) consts funds).toOption.any
      (fun _ => true) = true := by decide +kernel
  obtain ⟨⟨⟩, structure', -⟩ := exists_ok_of_any structured
  obtain ⟨⟨⟩, accepted, -⟩ := exists_ok_of_any validated
  constructor
  · exact (applyBlock_sequential MemoryView.utxoLaws trivial _).1 (by decide +kernel)
  · exact (applyBlock_sequential MemoryView.utxoLaws trivial _).2 consts rfl structure' accepted

end StryiChain
