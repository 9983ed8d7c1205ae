import StryiChain.Storage.Lawful
import StryiChain.Storage.Memory

/-!
# The in-memory backend satisfies the storage laws
-/

namespace StryiChain

variable [Primitives]

namespace MemoryView

/-- The lookup functions of the hash maps. -/
def tables (view : MemoryView) : Tables where
  utxo := view.utxos.read
  block := view.blocks.read
  height := view.heights.read
  index := view.indexes.read
  transaction := view.transactions.read
  undo := view.undos.read
  state := view.state
  metadata := view.metadata

theorem getTransaction_located {view : MemoryView} {txid : TransactionHash}
    {location : TransactionIndexData} {tx : Transaction} (wellFormed : view.tables.WellFormed)
    (locator : view.transactions.read txid = some location)
    (located : view.tables.Located txid location tx) :
    view.getTransaction txid = .ok (some ⟨tx, location⟩) := by
  obtain ⟨block, body, height, found, hash⟩ := located
  have own : block.blockHash = location.blockHash := wellFormed.body body
  change view.blocks.read location.blockHash = some block at body
  simp [getTransaction, locator, body, found, own, height, hash, Option.filter]

omit [Primitives] in
theorem batchRemoveUtxos_eq {view : MemoryView} {outpoints : List OutPoint}
    (present : ∀ o ∈ outpoints, view.utxos.read o ≠ none) :
    view.batchRemoveUtxos outpoints =
      .ok { view with utxos := view.utxos.removeAll outpoints } := by
  have checked : outpoints.forM (fun outpoint =>
      failIf (view.utxos.read outpoint = none) (StorageError.utxoNotFound outpoint)) = .ok () :=
    forM_eq_ok.mpr fun o ho => failIf_of_not _ (present o ho)
  simp [batchRemoveUtxos, checked]

omit [Primitives] in
theorem batchRemoveUtxos_absent {view : MemoryView} {outpoints : List OutPoint} {o : OutPoint}
    (mem : o ∈ outpoints) (absent : view.utxos.read o = none) :
    ∃ error, view.batchRemoveUtxos outpoints = .error error := by
  unfold batchRemoveUtxos
  cases checked : outpoints.forM (fun outpoint =>
      failIf (view.utxos.read outpoint = none) (StorageError.utxoNotFound outpoint)) with
  | error error => exact ⟨error, rfl⟩
  | ok _ =>
    have := forM_eq_ok.mp checked o mem
    simp [absent] at this

omit [Primitives] in
/-- A hash map takes every entry, in every state. -/
def utxoLaws : UtxoLaws MemoryView where
  Sound _ := True
  coins view := view.utxos.read
  Rest := MemoryView
  rest view := { view with utxos := ∅ }
  Fits _ := True
  fits_keyed _ := trivial
  fits_stored _ _ := trivial
  getUtxo_eq _ _ := rfl
  batchPutUtxos_ok _ _ := ⟨_, rfl, trivial, Table.read_insertAll _ _, rfl⟩
  batchRemoveUtxos_ok _ _ present :=
    ⟨_, batchRemoveUtxos_eq present, trivial, Table.read_removeAll _ _, rfl⟩
  batchRemoveUtxos_error _ mem absent := batchRemoveUtxos_absent mem absent

/-- The locator of one transaction, when its position fits. -/
def setLocator (block : Block) (view : MemoryView) (entry : Transaction × Nat) : MemoryView :=
  { view with
    transactions := AList.insert entry.1.data.hash
      ⟨block.blockHash, block.header.height, UInt32.ofNat entry.2⟩ view.transactions }

theorem tables_setLocators (block : Block) (entries : List (Transaction × Nat))
    (view : MemoryView) :
    (entries.foldl (setLocator block) view).tables =
      { view.tables with
        transaction := putAll
          (entries.map fun entry =>
            (entry.1.data.hash, ⟨block.blockHash, block.header.height, UInt32.ofNat entry.2⟩))
          view.tables.transaction } := by
  induction entries generalizing view with
  | nil => rfl
  | cons entry entries ih =>
    rw [List.foldl_cons, ih, List.map_cons, putAll_cons]
    simp only [setLocator, tables, Table.read_insert]

theorem putLocators_ok (view : MemoryView) {block : Block}
    (fits : block.data.transactions.length ≤ 2 ^ 32) :
    ∃ view', view.putLocators block = .ok view' ∧
      view'.tables =
        { view.tables with transaction := putAll block.locators view.tables.transaction } := by
  refine ⟨_, foldlM_eq_foldl (g := setLocator block) ?_ view, tables_setLocators _ _ _⟩
  intro s entry mem
  have position := (List.mem_zipIdx' mem).1
  have inside : ¬ 2 ^ 32 ≤ entry.2 := by omega
  simp only [putLocator, failIf_of_not _ inside]
  rfl

theorem putLocators_error (view : MemoryView) {block : Block}
    (long : 2 ^ 32 < block.data.transactions.length) :
    ∃ error, view.putLocators block = .error error := by
  have mem : (block.data.transactions[2 ^ 32], 2 ^ 32) ∈ block.data.transactions.zipIdx :=
    List.mk_mem_zipIdx_iff_getElem?.mpr (by rw [List.getElem?_eq_getElem long])
  refine foldlM_error mem (fun s => ⟨.invalidTransition "Transaction index overflow", ?_⟩) view
  simp [putLocator, failIf]

theorem putBlock_tables {view view' : MemoryView} {block : Block} {index : BlockIndexData}
    (run : view.putBlock block index = .ok view') :
    view'.tables = view.tables.putBlock block index := by
  change MemoryView.putLocators _ block = .ok view' at run
  by_cases fits : block.data.transactions.length ≤ 2 ^ 32
  · obtain ⟨written, locators, written_tables⟩ := putLocators_ok _ fits
    have same : written = view' := Except.ok.inj (locators.symm.trans run)
    subst same
    rw [written_tables]
    simp only [tables, Tables.putBlock, Table.read_insert]
  · obtain ⟨error, failed⟩ := putLocators_error _ (not_le.mp fits)
    exact absurd (failed.symm.trans run) (by simp)

theorem read_removeLocator (hash : BlockHash) (t : Table TransactionHash TransactionIndexData)
    (tx : Transaction) :
    (removeLocator hash t tx).read = unlocate hash [tx.data.hash] t.read := by
  funext txid
  by_cases own : (t.read tx.data.hash).any fun index => index.blockHash = hash
  · simp only [removeLocator, own, if_true, Table.read_erase]
    by_cases same : txid = tx.data.hash
    · subst same
      simp [unlocate, own]
    · simp [unlocate, same]
  · simp only [removeLocator, own, Bool.false_eq_true, if_false]
    by_cases same : txid = tx.data.hash
    · subst same
      simp [unlocate, own]
    · simp [unlocate, same]

theorem read_removeLocators (hash : BlockHash) (txs : List Transaction)
    (t : Table TransactionHash TransactionIndexData) :
    (txs.foldl (removeLocator hash) t).read =
      unlocate hash (txs.map fun tx => tx.data.hash) t.read := by
  induction txs generalizing t with
  | nil =>
    funext txid
    simp [unlocate]
  | cons tx txs ih => rw [List.foldl_cons, ih, read_removeLocator, List.map_cons, ← unlocate_cons]

theorem removeCanonicalBlock_eq {view view' : MemoryView} {block : Block} :
    view.removeCanonicalBlock block = .ok view' ↔
      view.heights.read block.header.height = some block.blockHash ∧
        view' = { view with
          heights := AList.erase block.header.height view.heights
          transactions := block.data.transactions.foldl (removeLocator block.blockHash)
            view.transactions } := by
  unfold removeCanonicalBlock
  rw [bind_eq_ok]
  constructor
  · rintro ⟨u, canonical, rest⟩
    rw [failIf_eq_ok, not_not] at canonical
    exact ⟨canonical, ((pure_eq_ok _ _).mp rest).symm⟩
  · rintro ⟨canonical, rfl⟩
    exact ⟨(), by simp [canonical], rfl⟩

end MemoryView

open MemoryView in
instance : LawfulStorage MemoryView where
  Sound view := view.tables.WellFormed
  tables := MemoryView.tables
  wellFormed sound := sound
  initial_sound := Tables.wellFormed_empty
  initial_tables := rfl
  getUtxo_eq _ _ := rfl
  getBlockHashByHeight_eq _ _ := rfl
  getBlockByHash_eq _ _ := rfl
  getBlockByHeight_none {s height} _ none := by
    change s.heights.read height = Option.none at none
    simp [getBlockByHeight, BlockStorage.getBlockByHeight, MemoryView.getBlockByHeight, none]
  getBlockByHeight_some {s height hash block} _ mapped body _ := by
    change s.heights.read height = some hash at mapped
    change s.blocks.read hash = some block at body
    simp [getBlockByHeight, BlockStorage.getBlockByHeight, MemoryView.getBlockByHeight, mapped,
      body]
  getBlockHeaderByHash_eq _ _ := rfl
  getBlockIndex_eq _ _ := rfl
  getTransaction_none {s txid} _ none := by
    change s.transactions.read txid = Option.none at none
    simp [getTransaction, BlockStorage.getTransaction, MemoryView.getTransaction, none]
  getTransaction_some sound locator located := getTransaction_located sound locator located
  chainState_eq _ := rfl
  metadata_eq _ := rfl
  getBlockUndo_eq _ _ := rfl
  batchPutUtxos_ok {s entries} sound keyed := by
    refine ⟨_, rfl, ⟨?_, sound.body, sound.shape⟩, ?_⟩
    · intro o u present
      change (s.utxos.insertAll entries).read o = some u at present
      rw [Table.read_insertAll] at present
      rcases putAll_eq_some present with mem | ⟨-, old⟩
      · exact keyed _ mem
      · exact sound.keyed o u old
    · simp only [MemoryView.tables, Table.read_insertAll]
  batchRemoveUtxos_ok {s outpoints} sound _ present := by
    refine ⟨_, batchRemoveUtxos_eq present, ⟨?_, sound.body, sound.shape⟩, ?_⟩
    · intro o u still
      change (s.utxos.removeAll outpoints).read o = some u at still
      rw [Table.read_removeAll] at still
      by_cases gone : o ∈ outpoints
      · simp [eraseAll_of_mem gone] at still
      · exact sound.keyed o u (by rwa [eraseAll_of_notMem gone] at still)
    · simp only [MemoryView.tables, Table.read_removeAll]
  batchRemoveUtxos_error _ mem absent := batchRemoveUtxos_absent mem absent
  putBlock_eq_ok {s s' block index} sound shape run := by
    have written := putBlock_tables run
    refine ⟨?_, written⟩
    rw [written]
    exact Tables.WellFormed.putBlock sound shape
  putBlock_ok {s block index} _ accepts := by
    obtain ⟨s', run, -⟩ := putLocators_ok _ accepts.fits
    exact ⟨s', run⟩
  putBlock_error _ long := putLocators_error _ long
  removeCanonicalBlock_eq_ok {s s' block} sound run := by
    obtain ⟨-, rfl⟩ := removeCanonicalBlock_eq.mp run
    refine ⟨⟨sound.keyed, sound.body, sound.shape⟩, ?_⟩
    simp only [MemoryView.tables, Tables.removeBlock, Table.read_erase, read_removeLocators]
    rfl
  removeCanonicalBlock_ok _ _ _ canonical :=
    ⟨_, removeCanonicalBlock_eq.mpr ⟨canonical, rfl⟩⟩
  putBlockUndo_ok hash undo sound :=
    ⟨_, rfl, ⟨sound.keyed, sound.body, sound.shape⟩, by
      simp only [MemoryView.tables, Table.read_insert]⟩
  putChainState_ok _ sound := ⟨_, rfl, ⟨sound.keyed, sound.body, sound.shape⟩, rfl⟩
  putMetadata_ok _ sound := ⟨_, rfl, ⟨sound.keyed, sound.body, sound.shape⟩, rfl⟩

end StryiChain
