import StryiChain.Chain.Run

/-!
# The stored UTXO map

The stored map is what the transactions of the canonical chain leave behind, as long as every
block that a reorganization detaches is fresh: an undo record does not remember what its block
overwrote, so that rewinding a block which has created an unspent output again deletes it.
-/

namespace StryiChain

open LawfulStorage StryiConsensusEngine

section Exact

variable [Primitives] {DB : Type} [FullNodeStorage DB]

/-- If the delivered block makes its branch the canonical one, then the canonical blocks above the
fork point have created nothing that was unspent below them. -/
def DetachesFresh (engine : StryiConsensusEngine DB) (delivery : Delivery) : Prop :=
  ∀ (lca : BlockHash) (p q : List Block), Overtakes engine delivery.nowSecs delivery.block lca →
    canonicalBlocks engine.db = p ++ q → p.getLast?.map Block.blockHash = some lca →
    Coins.FreshAbove p q

variable [LawfulStorage DB] {engine engine' : StryiConsensusEngine DB}
  {consensusConsts : ConsensusConsts} {blockValidator : BlockValidator} {g b : Block}
  {chainMetadata : ChainMetadata} {w w' : List Block} {delivery : Delivery}
  {deliveries : List Delivery}

/-- The chain may move without losing anything when what it leaves is fresh. -/
theorem Moves.exact (inv : Invariant g engine w)
    (moves : Moves engine delivery.nowSecs delivery.block w engine' w')
    (exact : (tables engine.db).utxo = Coins.ledger w) (fresh : DetachesFresh engine delivery) :
    (tables engine'.db).utxo = Coins.ledger w' := by
  cases moves with
  | stays same => rw [same, exact]
  | grows follows appended =>
    rw [appended, Coins.ledger_concat, ← exact]
    rfl
  | @switches p q bs lca overtakes below branch heavier room reorganized =>
    have canonical := inv.canonical
    have fresh' := fresh lca p q overtakes
      ((canonicalBlocks_eq canonical).trans branch.split) branch.ancestor
    have applies := canonical.applies
    rw [branch.split, Coins.applies_append] at applies
    rw [reorganized, Coins.ledger_append p, ← Coins.unwind_eq applies.2 fresh', ← branch.split,
      ← exact]
    rfl

/-- The stored map stays that of the canonical chain along a run that detaches fresh blocks
alone. -/
theorem Invariant.exact_run (inv : Invariant g engine w)
    (exact : (tables engine.db).utxo = Coins.ledger w)
    (fresh : Along DetachesFresh engine deliveries) :
    ∃ w', Invariant g (deliverAll engine deliveries) w' ∧
      (tables (deliverAll engine deliveries).db).utxo = Coins.ledger w' := by
  induction deliveries generalizing engine w with
  | nil => exact ⟨w, inv, exact⟩
  | cons delivery deliveries ih =>
    obtain ⟨w', inv', moves⟩ := inv.deliver delivery
    exact ih inv' (moves.exact inv exact fresh.1) fresh.2

/-- The stored map is what the transactions of the canonical blocks leave behind, in every state
of every run that detaches fresh blocks alone. -/
theorem utxos_of_canonical_chain
    (launched : launch consensusConsts blockValidator g chainMetadata = .ok engine)
    (fresh : Along DetachesFresh engine deliveries) (o : OutPoint) :
    getUtxo (deliverAll engine deliveries).db o =
      .ok (Coins.replay (canonicalBlocks (deliverAll engine deliveries).db) o) := by
  obtain ⟨inv, -, started⟩ := Invariant.launched launched
  obtain ⟨w, inv', exact⟩ := inv.exact_run (by rw [started]; rfl) fresh
  obtain ⟨rest, rfl⟩ := inv'.first
  rw [getUtxo_eq o inv'.canonical.sound, exact, canonicalBlocks_eq inv'.canonical,
    inv'.admissible.ledger_eq_replay inv'.genesis]

omit [LawfulStorage DB] in
/-- Blocks that are all fresh may be detached from anywhere. -/
theorem DetachesFresh.of_all {rest : List Block} (blocks : canonicalBlocks engine.db = g :: rest)
    (fresh : Coins.FreshAbove [g] rest) : DetachesFresh engine delivery := by
  intro lca p q _ split last
  exact fresh.split (blocks ▸ split) (by rintro rfl; simp at last)

end Exact

namespace Sample

/-- A payment of nothing from nothing, which can be repeated. -/
def gift : Transaction := payment 4 [] [⟨0, ⟨5⟩⟩]

/-- Two blocks that both contain the gift, and a longer branch above the first of them. -/
def given : Block := above genesis 1 [gift]

def again : Block := above given 2 [gift]

def rival2 : Block := above given 3 []

def rival3 : Block := above rival2 4 []

end Sample

open Sample in
/-- The branch that leaves the chain below a repeated gift takes the first gift with it, although
no two blocks and no two transactions share a hash. -/
theorem utxos_of_canonical_chain_repeated :
    ([genesis, given, again, rival2, rival3].map Block.blockHash).Nodup ∧
    ((([genesis, given, again, rival2, rival3].flatMap fun b => b.data.transactions).dedup).map
      fun tx => tx.data.hash).Nodup ∧
    ∃ engine, start = .ok engine ∧ ∃ o,
      getUtxo (deliverAll engine ([given, again, rival2, rival3].map call)).db o ≠
        .ok (Coins.replay
          (canonicalBlocks (deliverAll engine ([given, again, rival2, rival3].map call)).db) o) := by
  refine ⟨by decide +kernel, by decide +kernel, ?_⟩
  have lost : start.toOption.any (fun engine =>
      let db := (deliverAll engine ([given, again, rival2, rival3].map call)).db
      (getUtxo db ⟨gift.data.hash, 0⟩).toOption ≠
        some (Coins.replay (canonicalBlocks db) ⟨gift.data.hash, 0⟩)) = true := by decide +kernel
  obtain ⟨engine, started, differs⟩ := exists_ok_of_any lost
  refine ⟨engine, started, ⟨gift.data.hash, 0⟩, fun same => ?_⟩
  rw [decide_eq_true_eq] at differs
  exact differs (by rw [same]; rfl)

open Sample in
/-- A run through a reorganization that detaches a fresh block. -/
theorem utxos_of_canonical_chain_sample : ∃ engine, start = .ok engine ∧
    Along DetachesFresh engine ([rival, other, next].map call) ∧
    ∀ o, getUtxo (deliverAll engine ([rival, other, next].map call)).db o =
      .ok (Coins.replay
        (canonicalBlocks (deliverAll engine ([rival, other, next].map call)).db) o) := by
  obtain ⟨engine, started, reads⟩ := run_chains
  have fresh : Coins.FreshAbove [genesis] [rival] := by decide +kernel
  have along : Along DetachesFresh engine ([rival, other, next].map call) :=
    ⟨.of_all reads.1 trivial, .of_all reads.2.1 fresh, .of_all reads.2.2 fresh, trivial⟩
  exact ⟨engine, started, along, utxos_of_canonical_chain started along⟩

end StryiChain
