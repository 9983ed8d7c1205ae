import StryiChain.Chain.Run

/-!
# Who may spend

Blocks enter the canonical chain by an append, by the branch of a single block or with a whole
branch, and are checked against a storage or against an overlay. Whatever the way, every input of
a payment names an entry of the ledger below its block that belongs to the author of the payment,
and an outpoint that is spent twice was created again in between.
-/

namespace StryiChain

open LawfulStorage StryiConsensusEngine

section Spending

variable [Primitives]

/-- A payment of the block names the outpoint as an input. -/
def Spends (b : Block) (o : OutPoint) : Prop :=
  ∃ tx ∈ b.data.transactions, tx.data.kind = .payment ∧ o ∈ tx.spentOutpoints

/-- A transaction of the block has the outpoint as an output. -/
def Creates (b : Block) (o : OutPoint) : Prop :=
  ∃ tx ∈ b.data.transactions, o ∈ tx.createdUtxos.map Prod.fst

/-- What holds of the spends of a chain. -/
structure SpendsAuthorized (w : List Block) : Prop where
  owned : ∀ (h : Nat) (b : Block), w[h]? = some b → 0 < h → ∀ tx ∈ b.data.transactions, tx.data.kind = .payment →
    ∀ o ∈ tx.spentOutpoints, ∃ utxo, Coins.replay (w.take h) o = some utxo ∧
      Primitives.recoverAuthor tx = some utxo.owner
  distinct : ∀ (h : Nat) (b : Block), w[h]? = some b → 0 < h →
    (b.data.transactions.flatMap Transaction.spentOutpoints).Nodup
  recreated : ∀ (i j : Nat) (a b : Block) (o : OutPoint), i < j → w[i]? = some a → w[j]? = some b → Spends a o → Spends b o →
    ∃ (k : Nat) (between : Block), i < k ∧ k < j ∧ w[k]? = some between ∧ Creates between o

variable {rules : ConsensusConsts} {m : Coins} {b : Block} {tx : Transaction} {o : OutPoint}

omit [Primitives] in
theorem spends_iff : Spends b o ↔ o ∈ paymentInputsOf b.data.transactions := by
  rw [paymentInputsOf, List.mem_flatMap]
  constructor
  · rintro ⟨tx, mem, kind, input⟩
    exact ⟨tx, mem, by rw [Transaction.paymentInputs, if_pos kind]; exact input⟩
  · rintro ⟨tx, mem, input⟩
    rw [Transaction.paymentInputs] at input
    split at input
    · rename_i kind
      exact ⟨tx, mem, kind, input⟩
    · cases input

theorem creates_iff : Creates b o ↔ o ∈ createdBy b.data.transactions := by
  rw [createdBy, List.mem_flatMap]
  rfl

/-- The inputs of an accepted payment belong to its author. -/
theorem Accepted.owned (accepted : Accepted rules m b) (mem : tx ∈ b.data.transactions)
    (kind : tx.data.kind = .payment) (input : o ∈ tx.spentOutpoints) :
    ∃ utxo, m o = some utxo ∧ Primitives.recoverAuthor tx = some utxo.owner := by
  obtain ⟨startable, thread⟩ := accepted.each tx mem
  have pending : o ∈ (TxThread.of tx).pending := by
    rw [TxThread.of, Transaction.paymentInputs, if_pos kind]
    exact input
  obtain ⟨utxo, found, owner⟩ := thread.owned o pending
  refine ⟨utxo, found, ?_⟩
  simp only [Startable, kind] at startable
  obtain ⟨author, recovered⟩ := Option.ne_none_iff_exists'.mp startable
  simp only [TxThread.of, Transaction.author, kind, if_true, recovered, Option.getD_some] at owner
  rw [recovered, owner]

/-- Only payments have inputs in a block that was admitted. -/
theorem Admitted.spentOutpoints_eq (admitted : Admitted rules m b) :
    b.data.transactions.flatMap Transaction.spentOutpoints =
      paymentInputsOf b.data.transactions := by
  obtain ⟨coinbase, payments, txs, kind, kinds⟩ := admitted.structured.composition
  rw [paymentInputsOf]
  apply List.flatMap_congr
  intro tx mem
  rw [Transaction.paymentInputs]
  by_cases payment : tx.data.kind = .payment
  · rw [if_pos payment]
  · rw [if_neg payment, Transaction.spentOutpoints]
    have first : tx = coinbase := by
      rw [txs] at mem
      exact (List.mem_cons.mp mem).resolve_right fun inside => payment (kinds tx inside)
    have startable := (admitted.accepted.each tx mem).1
    simp only [Startable, first, kind] at startable
    rw [first, startable.1]
    rfl

/-- What an admitted block adds was created by one of its transactions. -/
theorem Admitted.creates (admitted : Admitted rules m b) (absent : m o = none)
    (present : Coins.apply b m o ≠ none) : Creates b o := by
  rw [creates_iff]
  by_contra outside
  apply present
  rw [apply_eq_transact admitted.accepted.external, transactAll admitted.accepted.external,
    putAll_of_notMem]
  · simp only [eraseAll, absent, ite_self]
  · rw [List.map_flatMap]
    exact outside

/-- What an admitted block spends is gone after it. -/
theorem Admitted.spent (admitted : Admitted rules m b) (spends : Spends b o) :
    Coins.apply b m o = none := by
  rw [spends_iff] at spends
  have external := admitted.accepted.external
  rw [apply_eq_transact external, transactAll external, putAll_of_notMem]
  · exact eraseAll_of_mem spends m
  · rw [List.map_flatMap]
    exact external o spends

/-- An entry that appears along admitted blocks was created by one of them. -/
theorem exists_creates {p bs : List Block} (admissible : Admissible rules (p ++ bs)) (ne : p ≠ [])
    (absent : Coins.ledger p o = none) (present : Coins.ledger (p ++ bs) o ≠ none) :
    ∃ (i : Nat) (b : Block), bs[i]? = some b ∧ Creates b o := by
  induction bs using List.reverseRecOn with
  | nil =>
    rw [List.append_nil] at present
    exact absurd absent present
  | append_singleton bs b ih =>
    rw [← List.append_assoc] at admissible present
    by_cases before : Coins.ledger (p ++ bs) o = none
    · have admitted := admissible (p ++ bs) [] b rfl (by simp [ne])
      rw [Coins.ledger_concat] at present
      exact ⟨bs.length, b, by simp, admitted.creates before present⟩
    · obtain ⟨i, a, at_i, creates⟩ := ih admissible.left before
      have inside := (List.getElem?_eq_some_iff.mp at_i).1
      exact ⟨i, a, by rw [List.getElem?_append_left inside, at_i], creates⟩

end Spending

section Chain

variable [Primitives] {DB : Type} [FullNodeStorage DB] [LawfulStorage DB]
  {engine : StryiConsensusEngine DB} {g : Block} {w : List Block}

/-- A block of the chain was admitted on the ledger below it. -/
theorem Invariant.admitted_at (inv : Invariant g engine w) {h : Nat} {b : Block}
    (at_h : w[h]? = some b) (pos : 0 < h) :
    Admitted engine.blockValidator.consensusConsts (Coins.ledger (w.take h)) b := by
  obtain ⟨inside, same⟩ := List.getElem?_eq_some_iff.mp at_h
  apply inv.admissible (w.take h) (w.drop (h + 1)) b
  · rw [← same, List.getElem_cons_drop, List.take_append_drop]
  · intro empty
    rcases List.take_eq_nil_iff.mp empty with zero | nil
    · omega
    · exact inv.canonical.chain.ne_nil nil

theorem Invariant.replay_take (inv : Invariant g engine w) {h : Nat} (pos : 0 < h) :
    Coins.ledger (w.take h) = Coins.replay (w.take h) := by
  obtain ⟨rest, first⟩ := inv.first
  have admissible : Admissible engine.blockValidator.consensusConsts (w.take h ++ w.drop h) := by
    rw [List.take_append_drop]
    exact inv.admissible
  obtain ⟨n, rfl⟩ : ∃ n, h = n + 1 := ⟨h - 1, by omega⟩
  have lower := admissible.left
  rw [first, List.take_succ_cons] at lower ⊢
  exact lower.ledger_eq_replay inv.genesis

/-- Genesis spends nothing. -/
theorem Invariant.spends_pos (inv : Invariant g engine w) {h : Nat} {b : Block} {o : OutPoint}
    (at_h : w[h]? = some b) (spends : Spends b o) : 0 < h := by
  apply Nat.pos_of_ne_zero
  intro zero
  obtain ⟨rest, first⟩ := inv.first
  obtain ⟨only, txs, genesis⟩ := inv.genesis.transaction
  rw [zero, first, List.getElem?_cons_zero, Option.some.injEq] at at_h
  obtain ⟨tx, mem, payment, -⟩ := spends
  rw [← at_h, txs, List.mem_singleton] at mem
  rw [mem, genesis] at payment
  cases payment

/-- The spends of the canonical chain are authorized. -/
theorem Invariant.spendsAuthorized (inv : Invariant g engine w) : SpendsAuthorized w := by
  refine ⟨?_, ?_, ?_⟩
  · intro h b at_h pos tx mem kind o input
    have admitted := inv.admitted_at at_h pos
    rw [inv.replay_take pos] at admitted
    exact admitted.accepted.owned mem kind input
  · intro h b at_h pos
    have admitted := inv.admitted_at at_h pos
    rw [admitted.spentOutpoints_eq]
    exact admitted.accepted.inputs
  · intro i j a b o before at_i at_j spends spends'
    have pos := inv.spends_pos at_i spends
    have gone : Coins.ledger (w.take (i + 1)) o = none := by
      obtain ⟨inside, same⟩ := List.getElem?_eq_some_iff.mp at_i
      rw [List.take_succ_eq_append_getElem inside, same, Coins.ledger_concat]
      exact (inv.admitted_at at_i pos).spent spends
    have present : Coins.ledger (w.take j) o ≠ none :=
      (inv.admitted_at at_j (by omega)).accepted.present o (spends_iff.mp spends')
    -- The blocks between the two spends, above the first of them.
    have middle : w.take j = w.take (i + 1) ++ (w.take j).drop (i + 1) := by
      have shorter : (w.take j).take (i + 1) = w.take (i + 1) := by
        rw [List.take_take, Nat.min_eq_left (by omega)]
      rw [← shorter, List.take_append_drop]
    have admissible : Admissible engine.blockValidator.consensusConsts
        (w.take (i + 1) ++ (w.take j).drop (i + 1)) := by
      rw [← middle]
      have whole := inv.admissible
      rw [← List.take_append_drop j w] at whole
      exact whole.left
    rw [middle] at present
    have ne : w.take (i + 1) ≠ [] := by
      intro empty
      rcases List.take_eq_nil_iff.mp empty with zero | nil
      · omega
      · exact inv.canonical.chain.ne_nil nil
    obtain ⟨n, between, at_n, creates⟩ := exists_creates admissible ne gone present
    rw [List.getElem?_drop] at at_n
    obtain ⟨below, -⟩ := List.getElem?_eq_some_iff.mp at_n
    rw [List.length_take] at below
    refine ⟨i + 1 + n, between, by omega, by omega, ?_, creates⟩
    rw [List.getElem?_take, if_pos (by omega)] at at_n
    exact at_n

variable {consensusConsts : ConsensusConsts} {blockValidator : BlockValidator}
  {chainMetadata : ChainMetadata}

/-- In every state of every run the spends of the canonical chain are authorized. -/
theorem spends_authorized
    (launched : launch consensusConsts blockValidator g chainMetadata = .ok engine)
    (deliveries : List Delivery) :
    SpendsAuthorized (canonicalBlocks (deliverAll engine deliveries).db) := by
  obtain ⟨w, inv⟩ := (Invariant.launched launched).1.run deliveries
  rw [canonicalBlocks_eq inv.canonical]
  exact inv.spendsAuthorized

end Chain

open Sample in
/-- The spends above a reorganization. -/
theorem spends_authorized_sample : ∃ engine, start = .ok engine ∧
    SpendsAuthorized
      (canonicalBlocks (deliverAll engine ([rival, other, next].map call)).db) := by
  obtain ⟨engine, started⟩ := start_ok
  exact ⟨engine, started, spends_authorized started ([rival, other, next].map call)⟩

end StryiChain
