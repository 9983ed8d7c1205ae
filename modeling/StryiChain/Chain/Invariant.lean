import StryiChain.Chain.Fork
import StryiChain.Chain.Ledger
import StryiChain.Chain.Step

/-!
# The invariant of the engine

Storage and index hold one chain of admitted blocks, and every entry of the registry is a lighter
branch of it. Every step keeps this, whatever the blocks and the failures of the backend. The
stored UTXO map never holds anything that the ledger of the chain does not hold; it is the ledger
as long as only fresh blocks are detached.
-/

namespace StryiChain

open LawfulStorage StryiConsensusEngine

variable [Primitives]

section Validation

variable {S : Type} [BlockStorage S] [UtxoStorage S] {view : S} {m : Coins}
  {validator : BlockValidator} {nowSecs : UInt64} {b : Block}

/-- What validation establishes about a block above genesis. -/
theorem validate_eq_ok (reads : Reads view m) (normal : b.header.isGenesis = false)
    (run : validator.validate nowSecs b view = .ok ()) :
    b.Normal ∧ Admitted validator.consensusConsts m b := by
  simp only [BlockValidator.validate, bind_eq_ok] at run
  obtain ⟨⟨⟩, header, ⟨⟩, structure', transactions⟩ := run
  have structured := validateBlockStructure_eq_ok normal structure'
  have accepted := (validateTransactionsUnder_iff reads normal structured).mp transactions
  simp only [validateHeader, bind_eq_ok, normal, Bool.false_eq_true, if_false, verifyHeaderShape,
    verifyMerkleRoot, failIf_eq_ok, true_and, not_not] at header
  obtain ⟨⟨⟩, ⟨⟨⟩, -, threshold⟩, ⟨⟩, -, ⟨⟩, -, ⟨⟩, -, merkle⟩ := header
  refine ⟨⟨normal, threshold⟩, structured, ?_, accepted⟩
  rw [Block.isMerkleRootValid, decide_eq_true_eq]
  exact merkle.symm

end Validation

/-- Blocks that stand above `p`, where `p ++ q` is the canonical chain, and are none of its own. -/
structure Branch (rules : ConsensusConsts) (w p q bs : List Block) (lca : BlockHash) : Prop where
  split : w = p ++ q
  ancestor : p.getLast?.map Block.blockHash = some lca
  chain : IsChain (p ++ bs)
  apart : ∀ b ∈ bs, b.blockHash ∉ w.map Block.blockHash
  admissible : Admissible rules (p ++ bs)

/-- An entry of the registry: a branch that is not heavier than the canonical chain. -/
structure Branches (rules : ConsensusConsts) (w : List Block) (e : ForkEntry)
    (p q : List Block) : Prop extends Branch rules w p q e.blocks e.commonAncestor where
  tip : e.blocks.getLast?.map Block.blockHash = some e.tip
  work : e.cumulativeWork = chainWork (p ++ e.blocks)
  lighter : e.cumulativeWork ≤ chainWork w

/-- The registry holds branches of the chain, each under its tip, and no block twice. -/
structure RegistryOk (rules : ConsensusConsts) (w : List Block) (forks : ForkRegistry) : Prop where
  entry : ∀ {key : BlockHash} {e : ForkEntry}, forks.read key = some e →
    e.tip = key ∧ ∃ p q, Branches rules w e p q
  disjoint : ∀ {key key' : BlockHash} {e e' : ForkEntry} {b b' : Block},
    forks.read key = some e → forks.read key' = some e' → b ∈ e.blocks → b' ∈ e'.blocks →
    b.blockHash = b'.blockHash → key = key'

variable {DB : Type} [FullNodeStorage DB] [LawfulStorage DB]

/-- The invariant of the engine, with the canonical chain made explicit. -/
structure Invariant (g : Block) (engine : StryiConsensusEngine DB) (w : List Block) : Prop where
  canonical : Canonical engine.chainIndex engine.db w
  genesis : GenesisShape g
  first : ∃ rest, w = g :: rest
  admissible : Admissible engine.blockValidator.consensusConsts w
  registry : RegistryOk engine.blockValidator.consensusConsts w engine.forks

section Registry

omit [FullNodeStorage DB] [LawfulStorage DB]

variable {rules : ConsensusConsts} {w p q : List Block} {forks forks' : ForkRegistry}
  {e : ForkEntry} {b : Block}

theorem mem_all : e ∈ ForkRegistry.all forks ↔ ∃ key, forks.read key = some e := by
  rw [ForkRegistry.all, List.mem_map]
  constructor
  · rintro ⟨⟨key, _⟩, mem, rfl⟩
    rw [mem_iter, Table.mem_toPairs] at mem
    exact ⟨key, mem⟩
  · rintro ⟨key, found⟩
    exact ⟨(key, e), mem_iter.mpr (Table.mem_toPairs.mpr found), rfl⟩

theorem hasBlock_eq_false {hash : BlockHash} : ForkRegistry.hasBlock forks hash = false ↔
    ∀ {key : BlockHash} {e : ForkEntry}, forks.read key = some e →
      ∀ b ∈ e.blocks, b.blockHash ≠ hash := by
  rw [← Bool.not_eq_true, ForkRegistry.hasBlock]
  simp only [List.any_eq_true, mem_all, decide_eq_true_eq, not_exists, not_and]
  constructor
  · intro none key e found b mem
    exact none e ⟨key, found⟩ b mem
  · rintro none e ⟨key, found⟩ b mem
    exact none found b mem

theorem RegistryOk.empty : RegistryOk rules w ∅ :=
  ⟨fun found => by simp at found, fun found => by simp at found⟩

/-- Entries may leave the registry. -/
theorem RegistryOk.restrict (ok : RegistryOk rules w forks)
    (kept : ∀ {key : BlockHash} {e : ForkEntry}, forks'.read key = some e →
      forks.read key = some e) : RegistryOk rules w forks' :=
  ⟨fun found => ok.entry (kept found), fun found found' => ok.disjoint (kept found) (kept found')⟩

omit [Primitives] in
theorem read_remove {key other : BlockHash}
    (found : Table.read (ForkRegistry.remove forks key) other = some e) :
    other ≠ key ∧ forks.read other = some e := by
  change Table.read (AList.erase key forks) other = some e at found
  rw [Table.read_erase] at found
  by_cases same : other = key
  · subst same
    simp at found
  · rw [Function.update_of_ne same] at found
    exact ⟨same, found⟩

theorem RegistryOk.remove (ok : RegistryOk rules w forks) (key : BlockHash) :
    RegistryOk rules w (ForkRegistry.remove forks key) :=
  ok.restrict fun found => (read_remove found).2

omit [Primitives] in
theorem read_inserted_self (forks : ForkRegistry) (e : ForkEntry) :
    Table.read (ForkRegistry.insert forks e) e.tip = some e := by
  rw [ForkRegistry.insert, Table.read_insert, Function.update_self]

omit [Primitives] in
/-- After an insertion there is the new entry, and what was there before. -/
theorem read_inserted {key : BlockHash} {e' : ForkEntry}
    (found : Table.read (ForkRegistry.insert forks e) key = some e') :
    (key = e.tip ∧ e' = e) ∨ forks.read key = some e' := by
  by_cases same : key = e.tip
  · subst same
    rw [read_inserted_self, Option.some.injEq] at found
    exact .inl ⟨rfl, found.symm⟩
  · rw [ForkRegistry.insert, Table.read_insert, Function.update_of_ne same] at found
    exact .inr found

/-- A branch of unknown blocks enters the registry. -/
theorem RegistryOk.insert (ok : RegistryOk rules w forks) (branches : Branches rules w e p q)
    (new : ∀ {key : BlockHash} {e' : ForkEntry}, forks.read key = some e' →
      ∀ b ∈ e.blocks, ∀ b' ∈ e'.blocks, b.blockHash ≠ b'.blockHash) :
    RegistryOk rules w (ForkRegistry.insert forks e) := by
  refine ⟨fun found => ?_, fun found found' mem mem' same => ?_⟩
  · rcases read_inserted found with ⟨rfl, rfl⟩ | old
    · exact ⟨rfl, p, q, branches⟩
    · exact ok.entry old
  · rcases read_inserted found with ⟨rfl, rfl⟩ | old <;>
      rcases read_inserted found' with ⟨rfl, rfl⟩ | old'
    · rfl
    · exact absurd same (new old' _ mem _ mem')
    · exact absurd same.symm (new old _ mem' _ mem)
    · exact ok.disjoint old old' mem mem' same

/-- Whether the pruning loop drops an entry. -/
def Stale (index : ChainIndex) (e : ForkEntry) : Prop :=
  index.has e.commonAncestor = false ∨ e.blocks.any (fun block => index.has block.blockHash)

instance (index : ChainIndex) (e : ForkEntry) : Decidable (Stale index e) :=
  inferInstanceAs (Decidable (_ ∨ _))

/-- The pruning loop over a list of entries. -/
theorem pruneLoop_read {index : ChainIndex} (l : List ForkEntry) (forks : ForkRegistry)
    (key : BlockHash) :
    Table.read (l.foldl (fun forks entry =>
      if index.has entry.commonAncestor = false ∨
          entry.blocks.any (fun block => index.has block.blockHash) then
        ForkRegistry.remove forks entry.tip
      else
        forks) forks) key =
      if ∃ e ∈ l, Stale index e ∧ e.tip = key then none else forks.read key := by
  induction l generalizing forks with
  | nil => simp
  | cons e l ih =>
    rw [List.foldl_cons, ih]
    by_cases stale : Stale index e
    · rw [if_pos (show _ ∨ _ from stale), ForkRegistry.remove, Table.read_erase]
      by_cases same : key = e.tip
      · subst same
        simp [stale]
      · rw [Function.update_of_ne same]
        simp [Ne.symm same]
    · rw [if_neg (show ¬ (_ ∨ _) from stale)]
      simp [stale]

/-- The entries that survive a reorganization. -/
theorem pruneForks_read {index : ChainIndex} (keyed : ∀ {key : BlockHash} {e : ForkEntry},
      forks.read key = some e → e.tip = key) {key : BlockHash} :
    (pruneForks index forks).read key = some e ↔ forks.read key = some e ∧ ¬ Stale index e := by
  rw [pruneForks, pruneLoop_read]
  constructor
  · intro found
    split at found
    · cases found
    · rename_i none
      refine ⟨found, fun stale => none ⟨e, mem_all.mpr ⟨key, found⟩, stale, keyed found⟩⟩
  · rintro ⟨found, live⟩
    rw [if_neg, found]
    rintro ⟨e', mem, stale, same⟩
    obtain ⟨key', found'⟩ := mem_all.mp mem
    rw [← keyed found', same] at found'
    rw [found, Option.some.injEq] at found'
    exact live (found' ▸ stale)

end Registry

section Branch

omit [FullNodeStorage DB] [LawfulStorage DB]

variable {rules : ConsensusConsts} {w p q bs : List Block} {forks : ForkRegistry}
  {e : ForkEntry} {a b : Block}

/-- A hash of the chain splits it. -/
theorem exists_below {hash : BlockHash} (mem : hash ∈ w.map Block.blockHash) :
    ∃ p q a, w = p ++ q ∧ p.getLast? = some a ∧ a.blockHash = hash := by
  obtain ⟨a, ha, rfl⟩ := List.mem_map.mp mem
  obtain ⟨front, back, rfl⟩ := List.append_of_mem ha
  exact ⟨front ++ [a], back, a, by simp, by simp, rfl⟩

/-- Two parts of a chain that end in the same block are the same. -/
theorem IsChain.split_unique {p' q' : List Block} (chain : IsChain (p ++ q))
    (same : p ++ q = p' ++ q') {a' : Block} (last : p.getLast? = some a)
    (last' : p'.getLast? = some a') (hash : a.blockHash = a'.blockHash) : p = p' ∧ q = q' := by
  have at_a : (p ++ q)[p.length - 1]? = some a := getElem?_append_last last
  have at_a' : (p ++ q)[p'.length - 1]? = some a' := by
    rw [same, getElem?_append_last last']
  have position := chain.position at_a at_a' hash
  have pos := length_pos_of_last last
  have pos' := length_pos_of_last last'
  exact List.append_inj same (by omega)

theorem Branch.ne_nil {lca : BlockHash} (branch : Branch rules w p q bs lca) : p ≠ [] := by
  rintro rfl
  have ancestor := branch.ancestor
  simp at ancestor

/-- The empty branch above a block of the chain. -/
theorem Branch.nil {lca : BlockHash} (chain : IsChain (p ++ q))
    (ancestor : p.getLast?.map Block.blockHash = some lca)
    (admissible : Admissible rules (p ++ q)) : Branch rules (p ++ q) p q [] lca := by
  have ne : p ≠ [] := by
    rintro rfl
    simp at ancestor
  have admissible' := admissible.left
  have chain' := chain.left ne
  rw [← List.append_nil p] at admissible' chain'
  exact ⟨rfl, ancestor, chain', by simp, admissible'⟩

/-- A branch grows by an admitted block that is unknown so far. -/
theorem Branch.concat {lca : BlockHash} (branch : Branch rules w p q bs lca)
    (links : Links (p ++ bs) b) (new : b.blockHash ∉ w.map Block.blockHash)
    (newer : ∀ a ∈ bs, a.blockHash ≠ b.blockHash)
    (admitted : Admitted rules (Coins.ledger (p ++ bs)) b) :
    Branch rules w p q (bs ++ [b]) lca := by
  obtain ⟨rfl, ancestor, chain, apart, admissible⟩ := branch
  have fresh : b.blockHash ∉ (p ++ bs).map Block.blockHash := by
    rw [List.map_append, List.mem_append, not_or]
    rw [List.map_append, List.mem_append, not_or] at new
    refine ⟨new.1, fun mem => ?_⟩
    obtain ⟨a, inside, same⟩ := List.mem_map.mp mem
    exact newer a inside same
  have chain' := chain.links links fresh
  have admissible' := admissible.concat admitted
  rw [List.append_assoc] at chain' admissible'
  refine ⟨rfl, ancestor, chain', fun a mem => ?_, admissible'⟩
  rcases List.mem_append.mp mem with old | last
  · exact apart a old
  · rw [List.mem_singleton.mp last]
    exact new

theorem Branches.blocks_ne_nil (branches : Branches rules w e p q) : e.blocks ≠ [] := by
  intro none
  have tip := branches.tip
  simp [none] at tip

/-- A branch stays one when the chain grows by another block. -/
theorem Branches.append (branches : Branches rules w e p q)
    (new : ∀ a ∈ e.blocks, a.blockHash ≠ b.blockHash) :
    Branches rules (w ++ [b]) e p (q ++ [b]) := by
  obtain ⟨⟨rfl, ancestor, chain, apart, admissible⟩, tip, work, lighter⟩ := branches
  refine ⟨⟨by simp, ancestor, chain, fun a mem inside => ?_, admissible⟩, tip, work, ?_⟩
  · rw [List.map_append, List.mem_append] at inside
    rcases inside with old | here
    · exact apart a mem old
    · exact new a mem (by simpa using here)
  · rw [chainWork_append (p ++ q)]
    omega

/-- A branch stays one when the chain is reorganized above or at its fork point, and none of its
blocks has become canonical. -/
theorem Branches.reorganize {p' q' : List Block} (branches : Branches rules (p ++ q) e p' q')
    (chain : IsChain (p ++ q))
    (apartNew : ∀ b ∈ bs, b.blockHash ∉ (p ++ q).map Block.blockHash)
    (ancestor : e.commonAncestor ∈ (p ++ bs).map Block.blockHash)
    (apart : ∀ b ∈ e.blocks, b.blockHash ∉ (p ++ bs).map Block.blockHash)
    (heavier : chainWork (p ++ q) ≤ chainWork (p ++ bs)) :
    ∃ q'', Branches rules (p ++ bs) e p' q'' := by
  obtain ⟨⟨split, last', chain', -, admissible⟩, tip, work, lighter⟩ := branches
  obtain ⟨a', hlast, hash⟩ := Option.map_eq_some_iff.mp last'
  -- The fork point lies in the part that was kept: the new blocks are none of the old chain.
  have inside : e.commonAncestor ∈ p.map Block.blockHash := by
    rw [List.map_append, List.mem_append] at ancestor
    refine ancestor.resolve_right fun new => ?_
    obtain ⟨b, mem, same⟩ := List.mem_map.mp new
    refine apartNew b mem ?_
    rw [same, ← hash, split]
    exact List.mem_map_of_mem (List.mem_append_left _ (List.mem_of_getLast? hlast))
  obtain ⟨front, back, a, rfl, hlast', hash'⟩ := exists_below inside
  rw [List.append_assoc] at chain split
  obtain ⟨rfl, -⟩ := chain.split_unique split hlast' hlast (hash'.trans hash.symm)
  exact ⟨back ++ bs, ⟨by simp, last', chain', apart, admissible⟩, tip, work,
    lighter.trans heavier⟩

end Branch

end StryiChain
