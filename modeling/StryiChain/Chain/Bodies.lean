import StryiChain.Chain.Total
import StryiChain.Core.Layout
import StryiChain.Core.Merkle
import StryiChain.Storage.RocksLawful

/-!
# Blocks are named by their hashes (`block/mod.rs:207-226`, `stryi_storage/src/write.rs:92-98`)

A header commits to a list of transactions through its Merkle root, and the block hash commits to
the header. What the commitments rest on is stated for the lists and the headers that occur; then
two checked blocks with one hash are equal, and a storage never finds another body under the hash
of a checked block.
-/

namespace StryiChain

section Bodies

variable [Primitives]

/-- What the Merkle roots of some lists of transactions rest on: the byte strings hashed for them
neither collide nor have the zero digest, and the encoding of a transaction tells it apart and is
never as long as two digests. -/
structure Binding (T : List Transaction → Prop) : Prop where
  free : Set.InjOn Primitives.blake3
    {x | ∃ txs, T txs ∧ x ∈ MerkleTree.hashed (txs.map Primitives.encodeTransaction)}
  nonzero : ∀ txs, T txs → ∀ x ∈ MerkleTree.hashed (txs.map Primitives.encodeTransaction),
    Primitives.blake3 x ≠ 0
  encoded : Set.InjOn Primitives.encodeTransaction {tx | ∃ txs, T txs ∧ tx ∈ txs}
  sizes : ∀ txs, T txs → ∀ tx ∈ txs, (Primitives.encodeTransaction tx).length ≠ 64

/-- What the hashes of the normal blocks of a set rest on. -/
structure HeadersBind (U : Block → Prop) : Prop where
  free : Set.InjOn Primitives.blockDigest
    {x | ∃ b, U b ∧ b.header.isGenesis = false ∧ x = b.header.toHashBytes}
  nonzero : ∀ b, U b → b.header.isGenesis = false →
    Primitives.blockDigest b.header.toHashBytes ≠ 0

variable {T : List Transaction → Prop} {U : Block → Prop} {A B : List Transaction} {a b : Block}

namespace Binding

open MerkleTree

theorem leaf_mem (A : List Transaction) {tx : Transaction} (mem : tx ∈ A) :
    Primitives.encodeTransaction tx ∈ hashed (A.map Primitives.encodeTransaction) :=
  leaf_mem_hashed (List.mem_map_of_mem mem)

/-- The digest of a transaction, as a leaf. -/
def leaf (tx : Transaction) : MerkleHash := ⟨Primitives.blake3 (Primitives.encodeTransaction tx)⟩

theorem leafHashes_eq (A : List Transaction) :
    leafHashes (A.map Primitives.encodeTransaction) = A.map leaf := by
  rw [leafHashes, List.map_map]
  rfl

/-- Leaves tell the transactions apart. -/
theorem injOn_leaf (binding : Binding T) : Set.InjOn leaf {tx | ∃ txs, T txs ∧ tx ∈ txs} := by
  intro tx inside tx' inside' same
  obtain ⟨txs, held, mem⟩ := inside
  obtain ⟨txs', held', mem'⟩ := inside'
  have digests : Primitives.blake3 (Primitives.encodeTransaction tx) =
      Primitives.blake3 (Primitives.encodeTransaction tx') := congrArg Hash.data same
  exact binding.encoded ⟨txs, held, mem⟩ ⟨txs', held', mem'⟩
    (binding.free ⟨txs, held, leaf_mem txs mem⟩ ⟨txs', held', leaf_mem txs' mem'⟩ digests)

/-- The root of some transactions is the one of their tree, and not the empty digest. -/
theorem exists_root (binding : Binding T) (held : T A) (ne : A ≠ []) :
    ∃ root, (new (A.map Primitives.encodeTransaction)).root = some root ∧
      computeMerkleRoot A = root ∧ root ≠ .empty := by
  have encoded : A.map Primitives.encodeTransaction ≠ [] := by simpa using ne
  obtain ⟨x, mem, found⟩ := exists_root_hashed encoded
  refine ⟨_, found, by rw [computeMerkleRoot, found]; rfl, fun empty => ?_⟩
  exact binding.nonzero A held x mem (congrArg Hash.data empty)

/-- The pairs combined for the lists that occur bind their nodes. -/
theorem injOn_combined (binding : Binding T) (held : T A) (held' : T B) :
    Set.InjOn (fun p : MerkleHash × MerkleHash => combineHashes p.1 p.2)
      {p | Merkle.Combined combineHashes (A.map leaf) p ∨
        Merkle.Combined combineHashes (B.map leaf) p} := by
  refine (injOn_combineHashes binding.free).mono ?_
  intro p used
  rcases used with left | right
  · exact ⟨A, held, nodeBytes_mem_hashed (by rwa [leafHashes_eq])⟩
  · exact ⟨B, held', nodeBytes_mem_hashed (by rwa [leafHashes_eq])⟩

/-- No transaction of one list is a node of another. -/
theorem leaf_ne_combined (binding : Binding T) (held : T A) (held' : T B) {tx : Transaction}
    (mem : tx ∈ A) {p : MerkleHash × MerkleHash}
    (combined : Merkle.Combined combineHashes (B.map leaf) p) :
    leaf tx ≠ combineHashes p.1 p.2 :=
  leaf_ne_node binding.free ⟨A, held, leaf_mem A mem⟩
    ⟨B, held', nodeBytes_mem_hashed (by rwa [leafHashes_eq])⟩ (binding.sizes A held tx mem)

/-- The Merkle root names a list of transactions without repetitions. -/
theorem computeMerkleRoot_injective (binding : Binding T) (held : T A) (held' : T B)
    (distinct : A.Nodup) (distinct' : B.Nodup) (same : computeMerkleRoot A = computeMerkleRoot B) :
    A = B := by
  by_cases ne : A = []
  · by_cases ne' : B = []
    · rw [ne, ne']
    · obtain ⟨root, -, computed, positive⟩ := binding.exists_root held' ne'
      rw [computed, ne] at same
      exact absurd same.symm positive
  by_cases ne' : B = []
  · obtain ⟨root, -, computed, positive⟩ := binding.exists_root held ne
    rw [computed, ne'] at same
    exact absurd same positive
  obtain ⟨root, found, computed, -⟩ := binding.exists_root held ne
  obtain ⟨root', found', computed', -⟩ := binding.exists_root held' ne'
  obtain rfl : root = root' := by rw [← computed, same, computed']
  have reached := (level_of_root found).2
  have reached' := (level_of_root found').2
  rw [leafHashes_eq] at reached reached'
  have inA : ∀ tx ∈ A, ∃ txs, T txs ∧ tx ∈ txs := fun tx mem => ⟨A, held, mem⟩
  have inB : ∀ tx ∈ B, ∃ txs, T txs ∧ tx ∈ txs := fun tx mem => ⟨B, held', mem⟩
  have injective := binding.injOn_leaf
  have leaves : A.map leaf = B.map leaf := by
    refine Merkle.leaves_eq_of_root (binding.injOn_combined held held') ?_ ?_ ?_ ?_ ?_ reached reached'
    · intro d mem p used
      rcases mem with mem | mem <;> obtain ⟨tx, stored, rfl⟩ := List.mem_map.mp mem <;>
        rcases used with used | used
      · exact binding.leaf_ne_combined held held stored used
      · exact binding.leaf_ne_combined held held' stored used
      · exact binding.leaf_ne_combined held' held stored used
      · exact binding.leaf_ne_combined held' held' stored used
    · exact distinct.map_on fun x mem y mem' => injective (inA x mem) (inA y mem')
    · exact distinct'.map_on fun x mem y mem' => injective (inB x mem) (inB y mem')
    · exact fun none => ne (List.map_eq_nil_iff.mp none)
    · exact fun none => ne' (List.map_eq_nil_iff.mp none)
  exact Merkle.eq_of_map_eq injective inA inB leaves

end Binding

/-- The block hash names the header of a normal block. -/
theorem HeadersBind.header_eq (headers : HeadersBind U) (inside : U a) (inside' : U b)
    (normal : a.header.isGenesis = false) (normal' : b.header.isGenesis = false)
    (same : a.blockHash = b.blockHash) : a.header = b.header := by
  rw [Block.blockHash, Block.blockHash, if_neg (by simp [normal]), if_neg (by simp [normal'])] at same
  have digests : Primitives.blockDigest a.header.toHashBytes =
      Primitives.blockDigest b.header.toHashBytes := congrArg Hash.data same
  exact BlockHeader.toHashBytes_injective normal normal'
    (headers.free ⟨a, inside, normal, rfl⟩ ⟨b, inside', normal', rfl⟩ digests)

theorem HeadersBind.blockHash_ne_empty (headers : HeadersBind U) (inside : U b)
    (normal : b.header.isGenesis = false) : b.blockHash ≠ .empty := by
  rw [Block.blockHash, if_neg (by simp [normal])]
  exact fun empty => headers.nonzero b inside normal (congrArg Hash.data empty)

/-- A normal block of the set that passes `verify_merkle_root` and `ensure_unique_txs`. -/
def Checked (U : Block → Prop) (b : Block) : Prop :=
  U b ∧ b.header.isGenesis = false ∧ verifyMerkleRoot b = .ok () ∧ ensureUniqueTxs b = .ok ()

theorem checked_iff_vetted : Checked U b ↔ Vetted U b := by
  rw [Checked, verifyMerkleRoot, failIf_eq_ok, not_not, ensureUniqueTxs, failIf_eq_ok, not_not]
  constructor
  · intro checked
    exact ⟨checked.1, checked.2.1, decide_eq_true checked.2.2.1.symm, checked.2.2.2⟩
  · intro vetted
    exact ⟨vetted.inside, vetted.normal, (of_decide_eq_true vetted.merkle).symm, vetted.unique⟩

/-- The checked blocks of a set are told apart by their hashes. -/
theorem Binding.collisionFree (binding : Binding T) (lists : ∀ b, U b → T b.data.transactions)
    (headers : HeadersBind U) : CollisionFree U := by
  intro a b vetted vetted' same
  have header : a.header = b.header :=
    headers.header_eq vetted.inside vetted'.inside vetted.normal vetted'.normal same
  have root : computeMerkleRoot a.data.transactions = a.header.merkleRootHash :=
    of_decide_eq_true vetted.merkle
  have root' : computeMerkleRoot b.data.transactions = b.header.merkleRootHash :=
    of_decide_eq_true vetted'.merkle
  have transactions : a.data.transactions = b.data.transactions :=
    binding.computeMerkleRoot_injective (lists a vetted.inside) (lists b vetted'.inside)
      vetted.unique vetted'.unique (by rw [root, root', header])
  obtain ⟨header₁, ⟨txs₁⟩⟩ := a
  obtain ⟨header₂, ⟨txs₂⟩⟩ := b
  dsimp only at header transactions
  rw [header, transactions]

namespace RocksView

/-- One call of `StorageWrite`, where the blocks that are written meet a condition. -/
inductive Writes (V : Block → Prop) (view view' : RocksView) : Prop
  | putBlock (block : Block) (index : BlockIndexData) (written : V block)
      (run : view.putBlock block index = .ok view')
  | removeCanonicalBlock (block : Block) (run : view.removeCanonicalBlock block = .ok view')
  | batchPutUtxos (utxos : List (OutPoint × UTXO)) (run : view.batchPutUtxos utxos = .ok view')
  | batchRemoveUtxos (outpoints : List OutPoint)
      (run : view.batchRemoveUtxos outpoints = .ok view')
  | putBlockUndo (hash : BlockHash) (undo : BlockUndo)
      (run : StorageWrite.putBlockUndo view hash undo = .ok view')
  | putChainState (state : ChainState) (run : StorageWrite.putChainState view state = .ok view')
  | putMetadata (metadata : ChainMetadata)
      (run : StorageWrite.putMetadata view metadata = .ok view')

/-- The views that calls of `StorageWrite` lead to from a new database. -/
abbrev Written (V : Block → Prop) : RocksView → Prop := Relation.ReflTransGen (Writes V) empty

variable {V : Block → Prop} {view view' : RocksView}

omit [Primitives] in
theorem putUtxo_blocks {state state' : RocksView × Memberships} {entry : OutPoint × UTXO}
    (run : putUtxo state entry = .ok state') : state'.1.blocks = state.1.blocks := by
  simp only [putUtxo, bind_eq_ok, pure_eq_ok] at run
  obtain ⟨-, -, -, -, -, -, rfl⟩ := run
  rfl

omit [Primitives] in
theorem removeUtxo_blocks {state state' : RocksView × Memberships} {outpoint : OutPoint}
    (run : removeUtxo state outpoint = .ok state') : state'.1.blocks = state.1.blocks := by
  simp only [removeUtxo, bind_eq_ok, pure_eq_ok] at run
  obtain ⟨-, -, -, -, -, -, rfl⟩ := run
  rfl

/-- Only `put_block` touches the bodies. -/
theorem Writes.blocks (writes : Writes V view view') :
    view'.blocks = view.blocks ∨
      ∃ block, V block ∧ view'.blocks = AList.insert block.blockHash block view.blocks := by
  cases writes with
  | putBlock block index written run =>
    refine .inr ⟨block, written, ?_⟩
    rw [putBlock_stored run]
    rfl
  | removeCanonicalBlock block run =>
    simp only [RocksView.removeCanonicalBlock, bind_eq_ok] at run
    obtain ⟨-, -, loop⟩ := run
    obtain ⟨locators, rfl, -⟩ := removeLocators_eq_ok loop
    exact .inl rfl
  | batchPutUtxos utxos run =>
    simp only [RocksView.batchPutUtxos, bind_eq_ok, pure_eq_ok] at run
    obtain ⟨state, loop, rfl⟩ := run
    exact .inl (foldlM_invariant (fun state => state.1.blocks = view.blocks)
      (fun _ same _ _ _ step => (putUtxo_blocks step).trans same) rfl loop)
  | batchRemoveUtxos outpoints run =>
    simp only [RocksView.batchRemoveUtxos, bind_eq_ok, pure_eq_ok] at run
    obtain ⟨state, loop, rfl⟩ := run
    exact .inl (foldlM_invariant (fun state => state.1.blocks = view.blocks)
      (fun _ same _ _ _ step => (removeUtxo_blocks step).trans same) rfl loop)
  | putBlockUndo hash undo run => exact .inl (Except.ok.inj run ▸ rfl)
  | putChainState state run => exact .inl (Except.ok.inj run ▸ rfl)
  | putMetadata metadata run => exact .inl (Except.ok.inj run ▸ rfl)

/-- Every body is stored under its hash and meets the condition. -/
theorem Written.bodies (reached : Written V view) {hash : BlockHash} {body : Block}
    (found : view.blocks.read hash = some body) : body.blockHash = hash ∧ V body := by
  induction reached generalizing hash body with
  | refl => cases found
  | tail _ writes ih =>
    rcases writes.blocks with same | ⟨block, written, same⟩
    · rw [same] at found
      exact ih found
    · rw [same, Table.read_insert] at found
      by_cases here : hash = block.blockHash
      · rw [here, Function.update_self, Option.some.injEq] at found
        rw [← found, here]
        exact ⟨rfl, written⟩
      · rw [Function.update_of_ne here] at found
        exact ih found

/-- Under the hash of a checked block, a storage of checked blocks above genesis holds nothing
else. -/
theorem Written.body_eq (free : CollisionFree U) (headers : HeadersBind U)
    (reached : Written (fun b => b.header.isGenesis = true ∨ Vetted U b) view)
    (vetted : Vetted U b) {saved : Block} (found : view.blocks.read b.blockHash = some saved) :
    saved = b := by
  obtain ⟨own, genesis | checked⟩ := reached.bodies found
  · rw [Block.blockHash, if_pos genesis] at own
    exact absurd own.symm (headers.blockHash_ne_empty vetted.inside vetted.normal)
  · exact free saved b checked vetted own

/-- The check of `put_block` on the body passes. -/
theorem Written.getBlockByHash_eq (free : CollisionFree U) (headers : HeadersBind U)
    (reached : Written (fun b => b.header.isGenesis = true ∨ Vetted U b) view)
    (vetted : Vetted U b) :
    view.getBlockByHash b.blockHash = .ok (view.blocks.read b.blockHash) ∧
      (view.blocks.read b.blockHash).any (fun saved => saved ≠ b) = false := by
  rw [RocksView.getBlockByHash]
  cases found : view.blocks.read b.blockHash with
  | none => exact ⟨rfl, rfl⟩
  | some saved =>
    obtain rfl := reached.body_eq free headers vetted found
    have shape : verifyGenesisWorkShape saved = .ok () :=
      verifyGenesisHeaderWorkShape_of_normal vetted.normal
    simp [shape]

omit [Primitives] in
/-- The error about another body is told apart from the one about the index. -/
theorem differentBodies_ne (hash hash' : String) :
    "Branch work index for block " ++ hash ++ " changed" ≠
      "Different block bodies share hash " ++ hash' := by
  intro same
  have first := congrArg (fun text => text.toList.head?) same
  simp at first

/-- The error about another body is not returned. -/
theorem Written.putBlock_ne (free : CollisionFree U) (headers : HeadersBind U)
    (reached : Written (fun b => b.header.isGenesis = true ∨ Vetted U b) view)
    (vetted : Vetted U b) (index : BlockIndexData) :
    view.putBlock b index ≠
      .error (.corruption s!"Different block bodies share hash {b.blockHash}") := by
  obtain ⟨read, passes⟩ := reached.getBlockByHash_eq free headers vetted
  have others : ErrorsIn
      (fun error => error ≠ .corruption s!"Different block bodies share hash {b.blockHash}")
      (view.putBlock b index) := by
    rw [putBlock, read, bind_ok, failIf_of_not _ (by rw [passes]; simp), bind_ok]
    refine .failIf_bind ?_ fun _ => .failIf_bind (by simp) fun _ => ?_
    · rw [ne_eq, StorageError.corruption.injEq]
      exact differentBodies_ne _ _
    · refine .foldlM (fun state entry _ => ?_) _
      exact .failIf_bind (by simp) fun _ => .ok _
  exact fun failed => others _ failed rfl

end RocksView

/-- For all lists of transactions and blocks whose digests do not collide: the Merkle root names a
list without repetitions, two checked normal blocks with one hash are equal, and on a storage
written with checked blocks above genesis `put_block` never finds another body under the hash of a
checked block. -/
theorem merkle_root_binds {T : List Transaction → Prop} (binding : Binding T) :
    (∀ A B : List Transaction, T A → T B → A.Nodup → B.Nodup →
      computeMerkleRoot A = computeMerkleRoot B → A = B) ∧
    ∀ U : Block → Prop, (∀ b, U b → T b.data.transactions) → HeadersBind U →
      (∀ a b : Block, Checked U a → Checked U b → a.blockHash = b.blockHash → a = b) ∧
      ∀ (view : RocksView) (b : Block) (index : BlockIndexData),
        RocksView.Written (fun b => b.header.isGenesis = true ∨ Checked U b) view →
        Checked U b → view.putBlock b index ≠
          .error (.corruption s!"Different block bodies share hash {b.blockHash}") := by
  refine ⟨fun A B held held' => binding.computeMerkleRoot_injective held held', ?_⟩
  intro U lists headers
  have free := binding.collisionFree lists headers
  simp only [checked_iff_vetted]
  exact ⟨free, fun view b index reached vetted => reached.putBlock_ne free headers vetted index⟩

/-- The condition for the lists of a list, where it can be decided. -/
theorem Binding.of_lists {lists : List (List Transaction)}
    (free : ∀ x ∈ lists.flatMap fun txs => MerkleTree.hashed (txs.map Primitives.encodeTransaction),
      ∀ y ∈ lists.flatMap fun txs => MerkleTree.hashed (txs.map Primitives.encodeTransaction),
        Primitives.blake3 x = Primitives.blake3 y → x = y)
    (nonzero : ∀ x ∈ lists.flatMap fun txs =>
      MerkleTree.hashed (txs.map Primitives.encodeTransaction), Primitives.blake3 x ≠ 0)
    (encoded : ∀ tx ∈ lists.flatten, ∀ tx' ∈ lists.flatten,
      Primitives.encodeTransaction tx = Primitives.encodeTransaction tx' → tx = tx')
    (sizes : ∀ tx ∈ lists.flatten, (Primitives.encodeTransaction tx).length ≠ 64) :
    Binding (· ∈ lists) where
  free _ mem _ mem' := free _ (List.mem_flatMap.mpr mem) _ (List.mem_flatMap.mpr mem')
  nonzero txs mem x inside := nonzero x (List.mem_flatMap.mpr ⟨txs, mem, inside⟩)
  encoded _ mem _ mem' := encoded _ (List.mem_flatten.mpr mem) _ (List.mem_flatten.mpr mem')
  sizes txs mem tx inside := sizes tx (List.mem_flatten.mpr ⟨txs, mem, inside⟩)

end Bodies

namespace Sample

/-- A genesis block with another allocation. -/
def otherGenesis : Block :=
  let transactions : List Transaction := [⟨⟨1, .genesis, [], [⟨2000, ⟨7⟩⟩]⟩, ⟨0⟩⟩]
  ⟨{ genesis.header with merkleRootHash := computeMerkleRoot transactions }, ⟨transactions⟩⟩

/-- Two blocks above genesis, one with a payment. -/
def plainBlock : Block := above genesis 1 []
def payingBlock : Block :=
  above genesis 2 [payment 7 [⟨(genesis.data.transactions.map fun tx => tx.data.hash).headD .empty, 0⟩]
    [⟨900, ⟨8⟩⟩]]

end Sample

open Sample in
/-- The block hash of genesis is the same for every genesis block, whatever it holds. -/
theorem merkle_root_binds_genesis : ∃ a b : Block,
    Binding (· ∈ [a.data.transactions, b.data.transactions]) ∧
    Set.InjOn Primitives.blockDigest {x | ∃ c, c ∈ [a, b] ∧ x = c.header.toHashBytes} ∧
    a.blockHash = b.blockHash ∧ verifyMerkleRoot a = .ok () ∧ verifyMerkleRoot b = .ok () ∧
    ensureUniqueTxs a = .ok () ∧ ensureUniqueTxs b = .ok () ∧ a ≠ b := by
  refine ⟨genesis, otherGenesis, ?_, ?_, by decide +kernel, by decide +kernel,
    by decide +kernel, by decide +kernel, by decide +kernel, by decide +kernel⟩
  · exact .of_lists (by decide +kernel) (by decide +kernel) (by decide +kernel) (by decide +kernel)
  · have distinct : ∀ c ∈ [genesis, otherGenesis], ∀ d ∈ [genesis, otherGenesis],
        Primitives.blockDigest c.header.toHashBytes = Primitives.blockDigest d.header.toHashBytes →
          c.header.toHashBytes = d.header.toHashBytes := by decide +kernel
    intro x inside y inside' same
    obtain ⟨c, mem, rfl⟩ := inside
    obtain ⟨d, mem', rfl⟩ := inside'
    exact distinct c mem d mem' same

open Sample in
/-- Two blocks above genesis, on a new database. -/
theorem merkle_root_binds_sample :
    (computeMerkleRoot plainBlock.data.transactions =
        computeMerkleRoot payingBlock.data.transactions →
      plainBlock.data.transactions = payingBlock.data.transactions) ∧
    (plainBlock.blockHash = payingBlock.blockHash → plainBlock = payingBlock) ∧
    RocksView.empty.putBlock plainBlock (BlockIndexData.of plainBlock 1) ≠
      .error (.corruption s!"Different block bodies share hash {plainBlock.blockHash}") := by
  have binding : Binding (· ∈ [plainBlock.data.transactions, payingBlock.data.transactions]) :=
    .of_lists (by decide +kernel) (by decide +kernel) (by decide +kernel) (by decide +kernel)
  have distinct : ∀ c ∈ [plainBlock, payingBlock], ∀ d ∈ [plainBlock, payingBlock],
      Primitives.blockDigest c.header.toHashBytes = Primitives.blockDigest d.header.toHashBytes →
        c.header.toHashBytes = d.header.toHashBytes := by decide +kernel
  have headers : HeadersBind (· ∈ [plainBlock, payingBlock]) := by
    constructor
    · intro x inside y inside' same
      obtain ⟨c, mem, -, rfl⟩ := inside
      obtain ⟨d, mem', -, rfl⟩ := inside'
      exact distinct c mem d mem' same
    · have nonzero : ∀ b ∈ [plainBlock, payingBlock],
          Primitives.blockDigest b.header.toHashBytes ≠ 0 := by decide +kernel
      exact fun b mem _ => nonzero b mem
  have checked : ∀ b ∈ [plainBlock, payingBlock], b.header.isGenesis = false ∧
      verifyMerkleRoot b = .ok () ∧ ensureUniqueTxs b = .ok () := by decide +kernel
  have lists : ∀ b ∈ [plainBlock, payingBlock],
      b.data.transactions ∈ [plainBlock.data.transactions, payingBlock.data.transactions] := by
    decide +kernel
  have plain : Checked (· ∈ [plainBlock, payingBlock]) plainBlock :=
    ⟨List.mem_cons_self, checked _ List.mem_cons_self⟩
  have paying : Checked (· ∈ [plainBlock, payingBlock]) payingBlock :=
    ⟨List.mem_cons_of_mem _ List.mem_cons_self, checked _ (List.mem_cons_of_mem _ List.mem_cons_self)⟩
  obtain ⟨root, blocks⟩ := merkle_root_binds binding
  obtain ⟨hash, store⟩ := blocks _ lists headers
  have nodup : plainBlock.data.transactions.Nodup ∧ payingBlock.data.transactions.Nodup := by
    decide +kernel
  exact ⟨root _ _ (lists _ plain.1) (lists _ paying.1) nodup.1 nodup.2, hash _ _ plain paying,
    store _ _ _ .refl plain⟩

end StryiChain
