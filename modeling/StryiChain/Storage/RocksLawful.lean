import StryiChain.Storage.Lawful
import StryiChain.Storage.Rocks

/-!
# The RocksDB backend satisfies the storage laws

The invariant of the tables is that `addresses` lists, for each owner, exactly the outpoints of
the UTXOs with that owner. A batch write keeps the changed sets aside until its end, so its loops
maintain the same statement about the sets kept aside over the stored ones.
-/

namespace StryiChain

variable [Primitives]

namespace RocksView

/-- The lookup functions of the column families. -/
def tables (view : RocksView) : Tables where
  utxo := view.utxo.read
  block := view.blocks.read
  height := view.heights.read
  index := view.blockIndexes.read
  transaction := view.transactionIndexes.read
  undo := view.undo.read
  state := view.stats
  metadata := view.metadata

/-- The owner of an outpoint is `address`. -/
def Owns (view : RocksView) (address : AccountAddress) (o : OutPoint) : Prop :=
  ∃ utxo, view.utxo.read o = some utxo ∧ utxo.owner = address

/-- The invariant of the column families. -/
structure Sound (view : RocksView) : Prop where
  wellFormed : view.tables.WellFormed
  addresses : ∀ address o, o ∈ view.members address ↔ view.Owns address o

/-- The sets kept aside by a batch write are those of the current UTXOs. -/
def Mirrors (view : RocksView) (memberships : Memberships) : Prop :=
  ∀ address o, o ∈ memberships.entry view address ↔ view.Owns address o

section UtxoLoops

omit [Primitives]

section Memberships

variable {view : RocksView} {memberships : Memberships} {address : AccountAddress}

theorem entry_insert (memberships : Memberships) (view : RocksView) (address : AccountAddress)
    (membership : List OutPoint) (other : AccountAddress) :
    Memberships.entry (AList.insert address membership memberships) view other =
      if other = address then membership else memberships.entry view other := by
  unfold Memberships.entry
  rw [Table.read_insert]
  by_cases same : other = address
  · simp [same]
  · simp [same]

theorem mem_entry_join (memberships : Memberships) (view : RocksView) (address : AccountAddress)
    (outpoint : OutPoint) (other : AccountAddress) (o : OutPoint) :
    o ∈ (memberships.join view address outpoint).entry view other ↔
      o ∈ memberships.entry view other ∨ (other = address ∧ o = outpoint) := by
  unfold Memberships.join
  rw [entry_insert]
  by_cases same : other = address
  · subst same
    simp [or_comm]
  · simp [same]

theorem leave_ok {outpoint : OutPoint} (member : outpoint ∈ memberships.entry view address) :
    ∃ left, memberships.leave view address outpoint = .ok left ∧
      ∀ other o, o ∈ left.entry view other ↔
        o ∈ memberships.entry view other ∧ ¬ (other = address ∧ o = outpoint) := by
  refine ⟨_, by simp [Memberships.leave, member]; rfl, fun other o => ?_⟩
  rw [entry_insert]
  by_cases same : other = address
  · subst same
    simp
  · simp [same]

/-- The sets kept aside depend on the stored sets only through `addresses`. -/
theorem entry_setUtxo (memberships : Memberships) (view : RocksView)
    (utxo : Table OutPoint UTXO) (address : AccountAddress) :
    memberships.entry { view with utxo } address = memberships.entry view address := rfl

end Memberships

theorem getUtxo_ok {view : RocksView} (keyed : view.tables.utxo.WellKeyed) (o : OutPoint) :
    view.getUtxo o = .ok (view.utxo.read o) := by
  have agrees : ¬ ((view.utxo.read o).any fun utxo =>
      utxo.txid ≠ o.txid ∨ utxo.vout ≠ o.vout) := by
    cases present : view.utxo.read o with
    | none => simp
    | some utxo =>
      have own : utxo.txid = o.txid ∧ utxo.vout = o.vout := keyed o utxo present
      simp [own]
  rw [getUtxo, failIf_of_not _ agrees]
  rfl

/-- One entry of a batch is written, and its outpoint moves to its new owner. -/
theorem putUtxo_ok {view : RocksView} {memberships : Memberships} {entry : OutPoint × UTXO}
    (keyed : view.tables.utxo.WellKeyed) (entryKeyed : Keyed entry)
    (mirrors : view.Mirrors memberships) :
    ∃ next, putUtxo (view, memberships) entry =
        .ok ({ view with utxo := AList.insert entry.1 entry.2 view.utxo }, next) ∧
      Mirrors { view with utxo := AList.insert entry.1 entry.2 view.utxo } next := by
  obtain ⟨outpoint, utxo⟩ := entry
  have agrees : ¬ (utxo.txid ≠ outpoint.txid ∨ utxo.vout ≠ outpoint.vout) := by
    rw [not_or, not_not, not_not]
    exact entryKeyed
  -- All that matters of the sets after the previous owner has given the outpoint up.
  suffices ∃ left : Memberships,
      memberships.moveOut view outpoint utxo.owner (view.utxo.read outpoint) = .ok left ∧
      ∀ address o, (o ∈ left.entry view address ∨ (address = utxo.owner ∧ o = outpoint)) ↔
        ((o ≠ outpoint ∧ view.Owns address o) ∨ (address = utxo.owner ∧ o = outpoint)) by
    obtain ⟨left, run, members⟩ := this
    refine ⟨left.join view utxo.owner outpoint, ?_, ?_⟩
    · simp only [putUtxo, failIf_of_not _ agrees, getUtxo_ok keyed, bind_ok, run]
      rfl
    · intro address o
      rw [entry_setUtxo, mem_entry_join, members]
      unfold Owns
      rw [Table.read_insert]
      by_cases same : o = outpoint
      · subst same
        simp [eq_comm]
      · simp [same]
  cases previous : view.utxo.read outpoint with
  | none =>
    refine ⟨memberships, rfl, fun address o => ?_⟩
    rw [mirrors]
    by_cases same : o = outpoint
    · subst same
      simp [Owns, previous]
    · simp [same]
  | some old =>
    by_cases moved : old.owner ≠ utxo.owner
    · have member : outpoint ∈ memberships.entry view old.owner :=
        (mirrors _ _).mpr ⟨old, previous, rfl⟩
      obtain ⟨left, run, members⟩ := leave_ok member
      refine ⟨left, by simp only [Memberships.moveOut, if_pos moved, run], ?_⟩
      intro address o
      rw [members, mirrors]
      by_cases same : o = outpoint
      · subst same
        simp [Owns, previous, eq_comm]
      · simp [same]
    · refine ⟨memberships, by simp only [Memberships.moveOut, if_neg moved], fun address o => ?_⟩
      rw [mirrors]
      rw [not_not] at moved
      by_cases same : o = outpoint
      · subst same
        simp [Owns, previous, moved, eq_comm]
      · simp [same]

/-- One outpoint of a batch is removed from the UTXOs and from its owner. -/
theorem removeUtxo_ok {view : RocksView} {memberships : Memberships} {outpoint : OutPoint}
    (keyed : view.tables.utxo.WellKeyed) (present : view.utxo.read outpoint ≠ none)
    (mirrors : view.Mirrors memberships) :
    ∃ next, removeUtxo (view, memberships) outpoint =
        .ok ({ view with utxo := AList.erase outpoint view.utxo }, next) ∧
      Mirrors { view with utxo := AList.erase outpoint view.utxo } next := by
  obtain ⟨utxo, found⟩ := Option.ne_none_iff_exists'.mp present
  have member : outpoint ∈ memberships.entry view utxo.owner :=
    (mirrors _ _).mpr ⟨utxo, found, rfl⟩
  obtain ⟨left, run, members⟩ := leave_ok member
  refine ⟨left, ?_, fun address o => ?_⟩
  · simp only [removeUtxo, getUtxo_ok keyed, found, okOr_some, bind_ok, run]
    rfl
  · rw [entry_setUtxo, members, mirrors]
    unfold Owns
    rw [Table.read_erase]
    by_cases same : o = outpoint
    · subst same
      simp [found, eq_comm]
    · simp [same]

theorem removeUtxo_absent {view : RocksView} (memberships : Memberships) {outpoint : OutPoint}
    (absent : view.utxo.read outpoint = none) :
    ∃ error, removeUtxo (view, memberships) outpoint = .error error := by
  refine ⟨.utxoNotFound outpoint, ?_⟩
  simp [removeUtxo, getUtxo, absent]

theorem wellKeyed_insert {view : RocksView} {entry : OutPoint × UTXO}
    (keyed : view.tables.utxo.WellKeyed) (entryKeyed : Keyed entry) :
    Coins.WellKeyed (Table.read (AList.insert entry.1 entry.2 view.utxo)) := by
  intro o u present
  rw [Table.read_insert] at present
  by_cases same : o = entry.1
  · subst same
    rw [Function.update_self, Option.some.injEq] at present
    exact present ▸ entryKeyed
  · exact keyed o u (by rwa [Function.update_of_ne same] at present)

theorem wellKeyed_erase {view : RocksView} {outpoint : OutPoint}
    (keyed : view.tables.utxo.WellKeyed) :
    Coins.WellKeyed (Table.read (AList.erase outpoint view.utxo)) := by
  intro o u present
  rw [Table.read_erase] at present
  by_cases same : o = outpoint
  · subst same
    simp at present
  · exact keyed o u (by rwa [Function.update_of_ne same] at present)

theorem putUtxos_ok {view : RocksView} {memberships : Memberships}
    {entries : List (OutPoint × UTXO)} (keyed : view.tables.utxo.WellKeyed)
    (entriesKeyed : ∀ entry ∈ entries, Keyed entry) (mirrors : view.Mirrors memberships) :
    ∃ next, entries.foldlM putUtxo (view, memberships) =
        .ok ({ view with utxo := view.utxo.insertAll entries }, next) ∧
      Mirrors { view with utxo := view.utxo.insertAll entries } next := by
  induction entries generalizing view memberships with
  | nil => exact ⟨memberships, rfl, mirrors⟩
  | cons entry entries ih =>
    have entryKeyed := entriesKeyed entry (by simp)
    obtain ⟨middle, first, mirrorsMiddle⟩ := putUtxo_ok keyed entryKeyed mirrors
    have restKeyed : ∀ e ∈ entries, Keyed e :=
      fun e he => entriesKeyed e (List.mem_cons_of_mem _ he)
    have keyedMiddle : Coins.WellKeyed (tables { view with
        utxo := AList.insert entry.1 entry.2 view.utxo }).utxo := wellKeyed_insert keyed entryKeyed
    obtain ⟨next, rest, mirrorsNext⟩ := ih keyedMiddle restKeyed mirrorsMiddle
    refine ⟨next, ?_, mirrorsNext⟩
    rw [List.foldlM_cons, first, bind_ok, rest]
    rfl

theorem removeUtxos_ok {view : RocksView} {memberships : Memberships} {outpoints : List OutPoint}
    (keyed : view.tables.utxo.WellKeyed) (distinct : outpoints.Nodup)
    (present : ∀ o ∈ outpoints, view.utxo.read o ≠ none) (mirrors : view.Mirrors memberships) :
    ∃ next, outpoints.foldlM removeUtxo (view, memberships) =
        .ok ({ view with utxo := view.utxo.removeAll outpoints }, next) ∧
      Mirrors { view with utxo := view.utxo.removeAll outpoints } next := by
  induction outpoints generalizing view memberships with
  | nil => exact ⟨memberships, rfl, mirrors⟩
  | cons o os ih =>
    rw [List.nodup_cons] at distinct
    obtain ⟨middle, first, mirrorsMiddle⟩ := removeUtxo_ok keyed (present o (by simp)) mirrors
    have presentMiddle : ∀ other ∈ os, Table.read (AList.erase o view.utxo) other ≠ none := by
      intro other mem
      have differs : other ≠ o := fun same => distinct.1 (same ▸ mem)
      rw [Table.read_erase, Function.update_of_ne differs]
      exact present other (List.mem_cons_of_mem _ mem)
    have keyedMiddle : Coins.WellKeyed (tables { view with
        utxo := AList.erase o view.utxo }).utxo := wellKeyed_erase keyed
    obtain ⟨next, rest, mirrorsNext⟩ := ih keyedMiddle distinct.2 presentMiddle mirrorsMiddle
    refine ⟨next, ?_, mirrorsNext⟩
    rw [List.foldlM_cons, first, bind_ok, rest]
    rfl

theorem removeUtxos_absent {view : RocksView} (memberships : Memberships)
    {outpoints : List OutPoint} {o : OutPoint} (mem : o ∈ outpoints)
    (absent : view.utxo.read o = none) :
    ∃ error, outpoints.foldlM removeUtxo (view, memberships) = .error error := by
  induction outpoints generalizing view memberships with
  | nil => cases mem
  | cons first rest ih =>
    rw [List.foldlM_cons]
    cases run : removeUtxo (view, memberships) first with
    | error error => exact ⟨error, rfl⟩
    | ok state =>
      rcases List.mem_cons.mp mem with rfl | later
      · obtain ⟨error, failed⟩ := removeUtxo_absent memberships absent
        rw [failed] at run
        cases run
      · obtain ⟨next, memberships'⟩ := state
        refine ih _ later ?_
        simp only [removeUtxo, bind_eq_ok, pure_eq_ok, Prod.mk.injEq] at run
        obtain ⟨-, -, -, -, -, -, rfl, -⟩ := run
        rw [Table.read_erase]
        by_cases same : o = first
        · subst same
          simp
        · rwa [Function.update_of_ne same]

end UtxoLoops

/-- Storing the sets kept aside makes them the stored ones. -/
theorem members_putMemberships (view : RocksView) (memberships : Memberships)
    (address : AccountAddress) :
    (view.putMemberships memberships).members address = memberships.entry view address := by
  have stored : (view.putMemberships memberships).addresses.read =
      putAll memberships.toPairs view.addresses.read := by
    simp only [putMemberships, Table.read_insertAll]
    exact (putAll_perm (iter_perm _).symm (Table.nodup_toPairs_keys _) _).symm
  rw [members, stored, Table.putAll_toPairs]
  unfold Memberships.entry members
  cases memberships.read address <;> simp

/-- The invariant of the two families that a UTXO write touches. -/
structure Indexed (view : RocksView) : Prop where
  keyed : Coins.WellKeyed view.utxo.read
  addresses : ∀ address o, o ∈ view.members address ↔ view.Owns address o

theorem indexed_putMemberships {view : RocksView} {memberships : Memberships}
    (keyed : Coins.WellKeyed view.utxo.read) (mirrors : view.Mirrors memberships) :
    (view.putMemberships memberships).Indexed := by
  refine ⟨keyed, fun address o => ?_⟩
  rw [members_putMemberships]
  exact mirrors address o

/-- A batch of keyed entries is written as a map takes it, and the index follows. -/
theorem batchPutUtxos_indexed {view : RocksView} {entries : List (OutPoint × UTXO)}
    (indexed : view.Indexed) (entriesKeyed : ∀ entry ∈ entries, Keyed entry) :
    ∃ addresses, view.batchPutUtxos entries =
        .ok { view with utxo := view.utxo.insertAll entries, addresses } ∧
      Indexed { view with utxo := view.utxo.insertAll entries, addresses } := by
  have start : view.Mirrors ∅ := indexed.addresses
  obtain ⟨next, run, mirrors⟩ := putUtxos_ok indexed.keyed entriesKeyed start
  refine ⟨_, by rw [batchPutUtxos, run]; rfl, indexed_putMemberships ?_ mirrors⟩
  intro o u present
  rw [Table.read_insertAll] at present
  rcases putAll_eq_some present with mem | ⟨-, old⟩
  · exact entriesKeyed _ mem
  · exact indexed.keyed o u old

/-- A batch of distinct stored outpoints is deleted, and the index follows. -/
theorem batchRemoveUtxos_indexed {view : RocksView} {outpoints : List OutPoint}
    (indexed : view.Indexed) (distinct : outpoints.Nodup)
    (present : ∀ o ∈ outpoints, view.utxo.read o ≠ none) :
    ∃ addresses, view.batchRemoveUtxos outpoints =
        .ok { view with utxo := view.utxo.removeAll outpoints, addresses } ∧
      Indexed { view with utxo := view.utxo.removeAll outpoints, addresses } := by
  have start : view.Mirrors ∅ := indexed.addresses
  obtain ⟨next, run, mirrors⟩ := removeUtxos_ok indexed.keyed distinct present start
  refine ⟨_, by rw [batchRemoveUtxos, run]; rfl, indexed_putMemberships ?_ mirrors⟩
  intro o u still
  rw [Table.read_removeAll] at still
  by_cases gone : o ∈ outpoints
  · simp [eraseAll_of_mem gone] at still
  · exact indexed.keyed o u (by rwa [eraseAll_of_notMem gone] at still)

theorem Sound.indexed {view : RocksView} (sound : view.Sound) : view.Indexed :=
  ⟨sound.wellFormed.keyed, sound.addresses⟩

theorem batchPutUtxos_sound {view : RocksView} {entries : List (OutPoint × UTXO)}
    (sound : view.Sound) (entriesKeyed : ∀ entry ∈ entries, Keyed entry) :
    ∃ view', view.batchPutUtxos entries = .ok view' ∧ view'.Sound ∧
      view'.tables = { view.tables with utxo := putAll entries view.tables.utxo } := by
  obtain ⟨addresses, run, keyed, members⟩ := batchPutUtxos_indexed sound.indexed entriesKeyed
  refine ⟨_, run, ⟨⟨keyed, sound.wellFormed.body, sound.wellFormed.shape⟩, members⟩, ?_⟩
  simp only [tables, Table.read_insertAll]

theorem batchRemoveUtxos_sound {view : RocksView} {outpoints : List OutPoint}
    (sound : view.Sound) (distinct : outpoints.Nodup)
    (present : ∀ o ∈ outpoints, view.utxo.read o ≠ none) :
    ∃ view', view.batchRemoveUtxos outpoints = .ok view' ∧ view'.Sound ∧
      view'.tables = { view.tables with utxo := eraseAll outpoints view.tables.utxo } := by
  obtain ⟨addresses, run, keyed, members⟩ :=
    batchRemoveUtxos_indexed sound.indexed distinct present
  refine ⟨_, run, ⟨⟨keyed, sound.wellFormed.body, sound.wellFormed.shape⟩, members⟩, ?_⟩
  simp only [tables, Table.read_removeAll]

section Blocks

variable {view view' : RocksView} {block : Block}

theorem getBlockByHash_ok (wellFormed : view.tables.WellFormed) (hash : BlockHash) :
    view.getBlockByHash hash = .ok (view.blocks.read hash) := by
  unfold getBlockByHash
  cases body : view.blocks.read hash with
  | none => rfl
  | some block =>
    have own : block.blockHash = hash := wellFormed.body body
    have shape : verifyGenesisWorkShape block = .ok () := wellFormed.shape body
    simp [shape, own]

theorem getTransaction_located {txid : TransactionHash} {location : TransactionIndexData}
    {tx : Transaction} (wellFormed : view.tables.WellFormed)
    (locator : view.transactionIndexes.read txid = some location)
    (located : view.tables.Located txid location tx) :
    view.getTransaction txid = .ok (some ⟨tx, location⟩) := by
  obtain ⟨block, body, height, found, hash⟩ := located
  change view.blocks.read location.blockHash = some block at body
  simp [getTransaction, locator, getBlockByHash_ok wellFormed, body, height, found, hash,
    Option.filter]

/-- The locator of one transaction, when its position fits. -/
def setLocator (block : Block) (view : RocksView) (entry : Transaction × Nat) : RocksView :=
  { view with
    transactionIndexes := AList.insert entry.1.data.hash
      ⟨block.blockHash, block.header.height, UInt32.ofNat entry.2⟩ view.transactionIndexes }

/-- Locators are the only thing the loop of `put_block` touches. -/
theorem setLocators_eq (block : Block) (entries : List (Transaction × Nat)) (view : RocksView) :
    entries.foldl (setLocator block) view =
      { view with
        transactionIndexes := view.transactionIndexes.insertAll
          (entries.map fun entry =>
            (entry.1.data.hash,
              ⟨block.blockHash, block.header.height, UInt32.ofNat entry.2⟩)) } := by
  induction entries generalizing view with
  | nil => rfl
  | cons entry entries ih =>
    rw [List.foldl_cons, ih]
    rfl

theorem putLocators_ok (view : RocksView)
    (fits : block.data.transactions.length ≤ 2 ^ 32) :
    view.putLocators block =
      .ok { view with
        transactionIndexes := view.transactionIndexes.insertAll block.locators } := by
  rw [putLocators, foldlM_eq_foldl (g := setLocator block), setLocators_eq]
  · rfl
  · intro s entry mem
    have position := (List.mem_zipIdx' mem).1
    have inside : ¬ 2 ^ 32 ≤ entry.2 := by omega
    simp only [putLocator, failIf_of_not _ inside]
    rfl

theorem putLocators_error (view : RocksView)
    (long : 2 ^ 32 < block.data.transactions.length) :
    ∃ error, view.putLocators block = .error error := by
  have mem : (block.data.transactions[2 ^ 32], 2 ^ 32) ∈ block.data.transactions.zipIdx :=
    List.mk_mem_zipIdx_iff_getElem?.mpr (by rw [List.getElem?_eq_getElem long])
  refine foldlM_error mem (fun s => ⟨.invalidTransition "Transaction index exceeds u32", ?_⟩) view
  simp [putLocator, failIf]

/-- `put_block` once its checks have passed. -/
def stored (view : RocksView) (block : Block) (index : BlockIndexData) : RocksView :=
  { view with
    blocks := AList.insert block.blockHash block view.blocks
    blockIndexes := AList.insert block.blockHash index view.blockIndexes
    heights := AList.insert block.header.height block.blockHash view.heights
    transactionIndexes := view.transactionIndexes.insertAll block.locators }

theorem tables_stored (view : RocksView) (block : Block) (index : BlockIndexData) :
    (view.stored block index).tables = view.tables.putBlock block index := by
  simp only [stored, tables, Tables.putBlock, Table.read_insert, Table.read_insertAll]

theorem putBlock_stored {index : BlockIndexData} (run : view.putBlock block index = .ok view') :
    view' = view.stored block index := by
  simp only [putBlock, bind_eq_ok] at run
  obtain ⟨-, -, -, -, -, -, -, -, written⟩ := run
  by_cases fits : block.data.transactions.length ≤ 2 ^ 32
  · rw [putLocators_ok _ fits, Except.ok.injEq] at written
    exact written.symm
  · obtain ⟨error, failed⟩ := putLocators_error _ (not_le.mp fits)
    exact absurd (failed.symm.trans written) (by simp)

theorem putBlock_accepted {index : BlockIndexData} (wellFormed : view.tables.WellFormed)
    (accepts : view.tables.Accepts block index) :
    view.putBlock block index = .ok (view.stored block index) := by
  have body : ¬ ((view.blocks.read block.blockHash).any fun saved => saved ≠ block) := by
    cases h : view.blocks.read block.blockHash with
    | none => simp
    | some saved => simp [accepts.body saved h]
  have work : ¬ ((view.blockIndexes.read block.blockHash).any fun saved => saved ≠ index) := by
    cases h : view.blockIndexes.read block.blockHash with
    | none => simp
    | some saved => simp [accepts.index saved h]
  have height : ¬ ((view.heights.read block.header.height).any fun saved =>
      saved ≠ block.blockHash) := by
    cases h : view.heights.read block.header.height with
    | none => simp
    | some saved => simp [accepts.height saved h]
  simp only [putBlock, getBlockByHash_ok wellFormed, bind_ok, failIf_of_not _ body,
    failIf_of_not _ work, failIf_of_not _ height]
  exact putLocators_ok _ accepts.fits

/-- A view in which only the locators changed. -/
def withLocators (view : RocksView) (locators : Table TransactionHash TransactionIndexData) :
    RocksView := { view with transactionIndexes := locators }

/-- One transaction of a detached block gives up its locator, whatever was checked. -/
theorem removeLocator_eq_ok {tx : Transaction} (run : removeLocator block view tx = .ok view') :
    ∃ locators, view' = view.withLocators locators ∧
      locators.read = unlocate block.blockHash [tx.data.hash] view.transactionIndexes.read := by
  cases locator : view.transactionIndexes.read tx.data.hash with
  | none =>
    simp only [removeLocator, locator] at run
    refine ⟨view.transactionIndexes, ((pure_eq_ok _ _).mp run).symm, ?_⟩
    funext txid
    by_cases same : txid = tx.data.hash <;> simp [unlocate, same, locator]
  | some location =>
    simp only [removeLocator, locator] at run
    by_cases other : location.blockHash ≠ block.blockHash
    · rw [if_pos other, bind_eq_ok] at run
      obtain ⟨-, -, rest⟩ := run
      refine ⟨view.transactionIndexes, ((pure_eq_ok _ _).mp rest).symm, ?_⟩
      funext txid
      by_cases same : txid = tx.data.hash
      · simp [unlocate, same, locator, other]
      · simp [unlocate, same]
    · rw [if_neg other, bind_eq_ok] at run
      obtain ⟨-, -, rest⟩ := run
      refine ⟨_, ((pure_eq_ok _ _).mp rest).symm, ?_⟩
      rw [not_not] at other
      funext txid
      rw [Table.read_erase]
      by_cases same : txid = tx.data.hash
      · simp [unlocate, same, locator, other]
      · simp [unlocate, same]

theorem removeLocators_eq_ok {txs : List Transaction}
    (run : txs.foldlM (removeLocator block) view = .ok view') :
    ∃ locators, view' = view.withLocators locators ∧
      locators.read = unlocate block.blockHash (txs.map fun tx => tx.data.hash)
        view.transactionIndexes.read := by
  induction txs generalizing view with
  | nil =>
    rw [List.foldlM_nil, pure_eq_ok] at run
    refine ⟨view.transactionIndexes, run.symm, ?_⟩
    funext txid
    simp [unlocate]
  | cons tx txs ih =>
    rw [List.foldlM_cons, bind_eq_ok] at run
    obtain ⟨middle, first, rest⟩ := run
    obtain ⟨one, rfl, oneRead⟩ := removeLocator_eq_ok first
    obtain ⟨all, rfl, allRead⟩ := ih rest
    refine ⟨all, rfl, ?_⟩
    rw [allRead, List.map_cons, unlocate_cons, ← oneRead]
    rfl

theorem removeCanonicalBlock_tables (run : view.removeCanonicalBlock block = .ok view') :
    view'.addresses = view.addresses ∧ view'.utxo = view.utxo ∧
      view'.tables = view.tables.removeBlock block := by
  simp only [removeCanonicalBlock, bind_eq_ok] at run
  obtain ⟨-, -, loop⟩ := run
  obtain ⟨locators, rfl, reads⟩ := removeLocators_eq_ok loop
  refine ⟨rfl, rfl, ?_⟩
  simp only [withLocators, tables, Tables.removeBlock, Table.read_erase, reads]
  rfl

/-- A sound locator passes the checks of the detached block it may belong to. -/
theorem removeLocator_ok (wellFormed : view.tables.WellFormed)
    (body : view.blocks.read block.blockHash = some block) (tx : Transaction)
    (sound : ∀ location, view.transactionIndexes.read tx.data.hash = some location →
      ∃ tx', view.tables.Located tx.data.hash location tx') :
    ∃ view', removeLocator block view tx = .ok view' := by
  cases locator : view.transactionIndexes.read tx.data.hash with
  | none => exact ⟨view, by simp only [removeLocator, locator]; rfl⟩
  | some location =>
    obtain ⟨tx', located⟩ := sound location locator
    by_cases other : location.blockHash ≠ block.blockHash
    · refine ⟨view, ?_⟩
      simp only [removeLocator, locator, if_pos other,
        getTransaction_located wellFormed locator located]
      rfl
    · obtain ⟨saved, savedBody, height, found, hash⟩ := located
      rw [not_not] at other
      change view.blocks.read location.blockHash = some saved at savedBody
      rw [other, body, Option.some.injEq] at savedBody
      subst savedBody
      refine ⟨view.withLocators (AList.erase tx.data.hash view.transactionIndexes), ?_⟩
      simp only [removeLocator, locator, other, ne_eq, not_true_eq_false, if_false, height, found,
        Option.all_some, hash, decide_false, Bool.false_eq_true, or_self,
        failIf_of_not _ not_false, bind_ok]
      rfl

theorem removeLocators_ok (txs : List Transaction) (wellFormed : view.tables.WellFormed)
    (body : view.blocks.read block.blockHash = some block) (sound : view.tables.LocatorsSound) :
    ∃ view', txs.foldlM (removeLocator block) view = .ok view' := by
  induction txs generalizing view with
  | nil => exact ⟨view, rfl⟩
  | cons tx txs ih =>
    obtain ⟨middle, first⟩ := removeLocator_ok wellFormed body tx fun location locator =>
      sound _ location locator
    rw [List.foldlM_cons, first, bind_ok]
    obtain ⟨locators, rfl, reads⟩ := removeLocator_eq_ok first
    refine ih ⟨wellFormed.keyed, wellFormed.body, wellFormed.shape⟩ body ?_
    intro txid location locator
    change locators.read txid = some location at locator
    rw [reads] at locator
    unfold unlocate at locator
    split at locator
    · cases locator
    · exact sound txid location locator

end Blocks

end RocksView

open RocksView in
instance : LawfulStorage RocksView where
  Sound := RocksView.Sound
  tables := RocksView.tables
  wellFormed sound := sound.wellFormed
  initial_sound := ⟨Tables.wellFormed_empty, fun address o => by
    constructor
    · intro mem
      cases mem
    · rintro ⟨u, present, -⟩
      cases present⟩
  initial_tables := rfl
  getUtxo_eq o sound := getUtxo_ok sound.wellFormed.keyed o
  getBlockHashByHeight_eq _ _ := rfl
  getBlockByHash_eq hash sound := getBlockByHash_ok sound.wellFormed hash
  getBlockByHeight_none {s height} _ none := by
    change s.heights.read height = Option.none at none
    simp [getBlockByHeight, BlockStorage.getBlockByHeight, RocksView.getBlockByHeight, none]
  getBlockByHeight_some {s height hash block} sound mapped body own := by
    change s.heights.read height = some hash at mapped
    change s.blocks.read hash = some block at body
    simp [getBlockByHeight, BlockStorage.getBlockByHeight, RocksView.getBlockByHeight, mapped,
      getBlockByHash_ok sound.wellFormed, body, own]
  getBlockHeaderByHash_eq {s} hash sound := by
    change s.getBlockHeaderByHash hash = .ok ((s.blocks.read hash).map Block.header)
    unfold RocksView.getBlockHeaderByHash
    cases body : s.blocks.read hash with
    | none => rfl
    | some block =>
      have shape : verifyGenesisHeaderWorkShape block.header = .ok () :=
        sound.wellFormed.shape body
      simp [shape]
  getBlockIndex_eq _ _ := rfl
  getTransaction_none {s txid} _ none := by
    change s.transactionIndexes.read txid = Option.none at none
    simp [getTransaction, BlockStorage.getTransaction, RocksView.getTransaction, none]
  getTransaction_some sound locator located :=
    getTransaction_located sound.wellFormed locator located
  chainState_eq _ := rfl
  metadata_eq _ := rfl
  getBlockUndo_eq _ _ := rfl
  batchPutUtxos_ok sound keyed := batchPutUtxos_sound sound keyed
  batchRemoveUtxos_ok sound distinct present := batchRemoveUtxos_sound sound distinct present
  batchRemoveUtxos_error {s outpoints o} _ mem absent := by
    obtain ⟨error, failed⟩ := removeUtxos_absent ∅ mem absent
    exact ⟨error, by
      change s.batchRemoveUtxos outpoints = _
      rw [RocksView.batchRemoveUtxos, failed]
      rfl⟩
  putBlock_eq_ok {s s' block index} sound shape run := by
    obtain rfl := putBlock_stored run
    have written := tables_stored s block index
    refine ⟨⟨?_, sound.addresses⟩, written⟩
    rw [written]
    exact sound.wellFormed.putBlock shape
  putBlock_ok sound accepts := ⟨_, putBlock_accepted sound.wellFormed accepts⟩
  putBlock_error {s block} index long := by
    cases run : putBlock s block index with
    | error error => exact ⟨error, rfl⟩
    | ok s' =>
      exfalso
      have loop := run
      simp only [putBlock, StorageWrite.putBlock, RocksView.putBlock, bind_eq_ok] at loop
      obtain ⟨-, -, -, -, -, -, -, -, written⟩ := loop
      obtain ⟨error, failed⟩ := putLocators_error _ long
      rw [failed] at written
      cases written
  removeCanonicalBlock_eq_ok {s s' block} sound run := by
    obtain ⟨addresses, utxo, written⟩ := removeCanonicalBlock_tables run
    refine ⟨⟨?_, fun address o => ?_⟩, written⟩
    · rw [written]
      exact ⟨sound.wellFormed.keyed, sound.wellFormed.body, sound.wellFormed.shape⟩
    · unfold RocksView.members RocksView.Owns
      rw [addresses, utxo]
      exact sound.addresses address o
  removeCanonicalBlock_ok {s block} sound locators body canonical := by
    have located : (RocksView.tables { s with
        heights := AList.erase block.header.height s.heights }).LocatorsSound := locators
    have wellFormed : (RocksView.tables { s with
        heights := AList.erase block.header.height s.heights }).WellFormed :=
      ⟨sound.wellFormed.keyed, sound.wellFormed.body, sound.wellFormed.shape⟩
    obtain ⟨s', loop⟩ := removeLocators_ok block.data.transactions wellFormed body located
    refine ⟨s', ?_⟩
    change s.heights.read block.header.height = some block.blockHash at canonical
    change s.removeCanonicalBlock block = .ok s'
    simp [RocksView.removeCanonicalBlock, canonical, loop]
  putBlockUndo_ok hash undo sound :=
    ⟨_, rfl, ⟨⟨sound.wellFormed.keyed, sound.wellFormed.body, sound.wellFormed.shape⟩,
      sound.addresses⟩, by simp only [RocksView.tables, Table.read_insert]⟩
  putChainState_ok _ sound :=
    ⟨_, rfl, ⟨⟨sound.wellFormed.keyed, sound.wellFormed.body, sound.wellFormed.shape⟩,
      sound.addresses⟩, rfl⟩
  putMetadata_ok _ sound :=
    ⟨_, rfl, ⟨⟨sound.wellFormed.keyed, sound.wellFormed.body, sound.wellFormed.shape⟩,
      sound.addresses⟩, rfl⟩

end StryiChain
