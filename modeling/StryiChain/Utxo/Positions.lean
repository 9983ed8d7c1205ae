import StryiChain.Consensus.Sequential

/-!
# What the scan of a block collects

The two results of the scanning loop, told by the positions of the transactions: an output
remains when no payment after its last creation spends it, and an input is drawn from storage
when no output of the block is left for it.
-/

namespace StryiChain

variable [Primitives]

/-- The outpoints of a transaction's own outputs. -/
def Transaction.outputKeys (tx : Transaction) : List OutPoint := tx.createdUtxos.map Prod.fst

/-- The outpoint is created by one of the transactions and spent by no later one. -/
def Remains (txs : List Transaction) (o : OutPoint) : Prop :=
  ∃ before tx after, txs = before ++ tx :: after ∧ o ∈ tx.outputKeys ∧ o ∉ paymentInputsOf after

/-- A payment spends the outpoint when no output of the earlier transactions is left under it. -/
def Draws (txs : List Transaction) (o : OutPoint) : Prop :=
  ∃ before tx after, txs = before ++ tx :: after ∧ o ∈ tx.paymentInputs ∧
    (¬ Remains before o ∨ 1 < tx.paymentInputs.count o)

section Concat

variable {txs : List Transaction} {tx : Transaction} {o : OutPoint}

theorem createdBy_eq (txs : List Transaction) :
    createdBy txs = txs.flatMap Transaction.outputKeys := rfl

omit [Primitives] in
@[simp] theorem paymentInputsOf_concat (txs : List Transaction) (tx : Transaction) :
    paymentInputsOf (txs ++ [tx]) = paymentInputsOf txs ++ tx.paymentInputs := by
  simp [paymentInputsOf]

theorem not_remains_nil (o : OutPoint) : ¬ Remains [] o := by
  rintro ⟨before, tx, after, split, -⟩
  simp at split

theorem not_draws_nil (o : OutPoint) : ¬ Draws [] o := by
  rintro ⟨before, tx, after, split, -⟩
  simp at split

theorem remains_concat :
    Remains (txs ++ [tx]) o ↔ o ∈ tx.outputKeys ∨ (Remains txs o ∧ o ∉ tx.paymentInputs) := by
  constructor
  · rintro ⟨before, creator, after, split, created, unspent⟩
    rcases List.eq_nil_or_concat after with rfl | ⟨front, last, rfl⟩
    · obtain ⟨-, same⟩ := List.append_inj' split rfl
      rw [List.cons.injEq] at same
      exact .inl (same.1 ▸ created)
    · rw [List.concat_eq_append, ← List.cons_append, ← List.append_assoc] at split
      obtain ⟨rfl, same⟩ := List.append_inj' split rfl
      rw [List.cons.injEq] at same
      rw [List.concat_eq_append, paymentInputsOf_concat, List.mem_append, not_or, ← same.1] at unspent
      exact .inr ⟨⟨before, creator, front, rfl, created, unspent.1⟩, unspent.2⟩
  · rintro (created | ⟨⟨before, creator, after, rfl, created, unspent⟩, later⟩)
    · exact ⟨txs, tx, [], rfl, created, by simp [paymentInputsOf]⟩
    · refine ⟨before, creator, after ++ [tx], by simp, created, ?_⟩
      rw [paymentInputsOf_concat, List.mem_append, not_or]
      exact ⟨unspent, later⟩

theorem draws_concat :
    Draws (txs ++ [tx]) o ↔ Draws txs o ∨
      (o ∈ tx.paymentInputs ∧ (¬ Remains txs o ∨ 1 < tx.paymentInputs.count o)) := by
  constructor
  · rintro ⟨before, payer, after, split, input, missing⟩
    rcases List.eq_nil_or_concat after with rfl | ⟨front, last, rfl⟩
    · obtain ⟨rfl, same⟩ := List.append_inj' split rfl
      rw [List.cons.injEq] at same
      obtain ⟨rfl, -⟩ := same
      exact .inr ⟨input, missing⟩
    · rw [List.concat_eq_append, ← List.cons_append, ← List.append_assoc] at split
      obtain ⟨rfl, -⟩ := List.append_inj' split rfl
      exact .inl ⟨before, payer, front, rfl, input, missing⟩
  · rintro (⟨before, payer, after, rfl, input, missing⟩ | ⟨input, missing⟩)
    · exact ⟨before, payer, after ++ [tx], by simp, input, missing⟩
    · exact ⟨txs, tx, [], rfl, input, missing⟩

end Concat

section Inputs

omit [Primitives]

variable {scan : BlockScan} {ops : List OutPoint} {o : OutPoint}

/-- An input leaves nothing under its outpoint in the table of created outputs. -/
theorem read_input (scan : BlockScan) (op : OutPoint) :
    (scan.input op).createdUtxos.read = Function.update scan.createdUtxos.read op none := by
  unfold BlockScan.input
  split
  · exact Table.read_erase _ _
  · rename_i absent
    rw [Option.not_isSome_iff_eq_none] at absent
    rw [← absent, Function.update_eq_self]

theorem read_inputs (scan : BlockScan) (ops : List OutPoint) :
    (ops.foldl BlockScan.input scan).createdUtxos.read = eraseAll ops scan.createdUtxos.read := by
  induction ops generalizing scan with
  | nil => simp
  | cons op ops ih => rw [List.foldl_cons, ih, read_input, eraseAll_cons]

/-- An input is taken from storage when the block holds nothing for it, or when it is named
again. -/
theorem mem_inputs :
    o ∈ (ops.foldl BlockScan.input scan).externalInputs ↔ o ∈ scan.externalInputs ∨
      (o ∈ ops ∧ (scan.createdUtxos.read o = none ∨ 1 < ops.count o)) := by
  induction ops generalizing scan with
  | nil => simp
  | cons op ops ih =>
    rw [List.foldl_cons, ih, read_input]
    by_cases same : o = op
    · subst same
      have again : 0 < ops.count o ↔ o ∈ ops := List.count_pos_iff
      cases held : scan.createdUtxos.read o with
      | none => simp [BlockScan.input, held]
      | some utxo => simp [BlockScan.input, held, again]
    · have kept : o ∈ (scan.input op).externalInputs ↔ o ∈ scan.externalInputs := by
        unfold BlockScan.input
        split <;> simp [same]
      have other : op ≠ o := fun h => same h.symm
      simp [kept, same, List.count_cons_of_ne other]

end Inputs

theorem scan_concat (txs : List Transaction) (tx : Transaction) (scan : BlockScan) :
    (txs ++ [tx]).foldl BlockScan.transaction scan =
      (txs.foldl BlockScan.transaction scan).transaction tx := by
  rw [List.foldl_append, List.foldl_cons, List.foldl_nil]

theorem read_transaction (scan : BlockScan) (tx : Transaction) :
    (scan.transaction tx).createdUtxos.read =
      putAll tx.createdUtxos (eraseAll tx.paymentInputs scan.createdUtxos.read) := by
  rw [BlockScan.transaction, Table.read_insertAll, read_inputs]

/-- The table of created outputs holds what remains. -/
theorem scan_created (txs : List Transaction) (o : OutPoint) :
    (txs.foldl BlockScan.transaction ⟨∅, []⟩).createdUtxos.read o ≠ none ↔ Remains txs o := by
  induction txs using List.reverseRecOn with
  | nil => simp [not_remains_nil]
  | append_singleton txs tx ih =>
    rw [scan_concat, read_transaction, remains_concat, ← ih, ne_eq, putAll_eq_none, not_and_or,
      not_not]
    apply or_congr Iff.rfl
    by_cases spent : o ∈ tx.paymentInputs
    · simp [eraseAll_of_mem spent, spent]
    · simp [eraseAll_of_notMem spent, spent]

/-- The external inputs are what is drawn from storage. -/
theorem scan_external (txs : List Transaction) (o : OutPoint) :
    o ∈ (txs.foldl BlockScan.transaction ⟨∅, []⟩).externalInputs ↔ Draws txs o := by
  induction txs using List.reverseRecOn with
  | nil => simp [not_draws_nil]
  | append_singleton txs tx ih =>
    rw [scan_concat, draws_concat, ← ih, ← scan_created, not_not]
    exact mem_inputs

theorem mem_created_iff (block : Block) (o : OutPoint) :
    o ∈ block.created.keys ↔ Remains block.data.transactions o := by
  rw [Table.mem_keys_iff, ← Option.ne_none_iff_exists']
  exact scan_created _ o

theorem mem_external_iff (block : Block) (o : OutPoint) :
    o ∈ block.external ↔ Draws block.data.transactions o :=
  scan_external _ o

/-- What remains was created. -/
theorem Remains.created {txs : List Transaction} {o : OutPoint} (remains : Remains txs o) :
    o ∈ createdBy txs := by
  obtain ⟨before, tx, after, rfl, created, -⟩ := remains
  simp [createdBy_eq, created]

end StryiChain
