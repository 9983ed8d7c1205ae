import StryiChain.Storage.Transition
import StryiChain.Utxo.Lawful

/-!
# The tables of a storage backend

What both backends store, as lookup functions, and the laws that relate the calls of the storage
traits to them. Everything above storage is proved from these laws.
-/

namespace StryiChain

variable [Primitives]

/-- The contents of a storage. -/
structure Tables where
  utxo : Coins
  block : BlockHash → Option Block
  height : UInt64 → Option BlockHash
  index : BlockHash → Option BlockIndexData
  transaction : TransactionHash → Option TransactionIndexData
  undo : BlockHash → Option BlockUndo
  state : Option ChainState
  metadata : Option ChainMetadata

/-- The locators of a block, one for each transaction. -/
def Block.locators (block : Block) : List (TransactionHash × TransactionIndexData) :=
  block.data.transactions.zipIdx.map fun entry =>
    (entry.1.data.hash, ⟨block.blockHash, block.header.height, UInt32.ofNat entry.2⟩)

/-- The hashes of the transactions of a block. -/
def Block.txids (block : Block) : List TransactionHash :=
  block.data.transactions.map fun tx => tx.data.hash

/-- The locators that are left when the block `hash` gives up the transactions `txids`: locators
of other blocks stay. -/
def unlocate (hash : BlockHash) (txids : List TransactionHash)
    (locators : TransactionHash → Option TransactionIndexData) :
    TransactionHash → Option TransactionIndexData := fun txid =>
  if txid ∈ txids ∧ (locators txid).any fun location => location.blockHash = hash then none
  else locators txid

omit [Primitives] in
theorem unlocate_cons (hash : BlockHash) (txid : TransactionHash) (txids : List TransactionHash)
    (locators : TransactionHash → Option TransactionIndexData) :
    unlocate hash (txid :: txids) locators =
      unlocate hash txids (unlocate hash [txid] locators) := by
  funext other
  by_cases same : other = txid
  · subst same
    by_cases own : (locators other).any fun location => location.blockHash = hash <;>
      simp [unlocate, own]
  · simp [unlocate, same]

namespace Tables

/-- The tables of a storage before genesis. -/
def empty : Tables :=
  ⟨fun _ => none, fun _ => none, fun _ => none, fun _ => none, fun _ => none, fun _ => none,
    none, none⟩

/-- What `put_block` does to the tables. -/
def putBlock (t : Tables) (block : Block) (index : BlockIndexData) : Tables :=
  { t with
    block := Function.update t.block block.blockHash (some block)
    index := Function.update t.index block.blockHash (some index)
    height := Function.update t.height block.header.height (some block.blockHash)
    transaction := putAll block.locators t.transaction }

/-- What `remove_canonical_block` does to the tables: only the locators of this block leave. -/
def removeBlock (t : Tables) (block : Block) : Tables :=
  { t with
    height := Function.update t.height block.header.height none
    transaction := unlocate block.blockHash block.txids t.transaction }

/-- Every UTXO and every body agrees with its key, and only genesis blocks carry the marker. -/
structure WellFormed (t : Tables) : Prop where
  keyed : t.utxo.WellKeyed
  body : ∀ {hash block}, t.block hash = some block → block.blockHash = hash
  shape : ∀ {hash block}, t.block hash = some block → verifyGenesisWorkShape block = .ok ()

theorem wellFormed_empty : empty.WellFormed where
  keyed _ _ h := by cases h
  body h := by cases h
  shape h := by cases h

theorem WellFormed.putBlock {t : Tables} {block : Block} {index : BlockIndexData}
    (wellFormed : t.WellFormed) (shape : verifyGenesisWorkShape block = .ok ()) :
    (t.putBlock block index).WellFormed := by
  have saved : ∀ {hash body}, (t.putBlock block index).block hash = some body →
      (hash = block.blockHash ∧ body = block) ∨ t.block hash = some body := by
    intro hash body
    simp only [Tables.putBlock]
    by_cases same : hash = block.blockHash
    · subst same
      rw [Function.update_self, Option.some.injEq]
      rintro rfl
      exact .inl ⟨rfl, rfl⟩
    · rw [Function.update_of_ne same]
      exact .inr
  refine ⟨wellFormed.keyed, fun found => ?_, fun found => ?_⟩
  · obtain ⟨rfl, rfl⟩ | old := saved found
    · rfl
    · exact wellFormed.body old
  · obtain ⟨rfl, rfl⟩ | old := saved found
    · exact shape
    · exact wellFormed.shape old

/-- The transaction at a locator. -/
def Located (t : Tables) (txid : TransactionHash) (location : TransactionIndexData)
    (tx : Transaction) : Prop :=
  ∃ block, t.block location.blockHash = some block ∧
    block.header.height = location.blockHeight ∧
    block.data.transactions[location.txIndex.toNat]? = some tx ∧ tx.data.hash = txid

/-- Every locator leads to a transaction of a stored body. -/
def LocatorsSound (t : Tables) : Prop :=
  ∀ txid location, t.transaction txid = some location → ∃ tx, t.Located txid location tx

/-- Nothing that `put_block` would overwrite is different from what it writes. -/
structure Accepts (t : Tables) (block : Block) (index : BlockIndexData) : Prop where
  body : ∀ saved, t.block block.blockHash = some saved → saved = block
  index : ∀ saved, t.index block.blockHash = some saved → saved = index
  height : ∀ saved, t.height block.header.height = some saved → saved = block.blockHash
  fits : block.data.transactions.length ≤ 2 ^ 32

end Tables

/-- A backend that behaves as its tables say. The only writes that may fail on sound tables are
the removal of an absent output and the two block writes, whose checks differ between the
backends; what they do when they succeed is the same. -/
class LawfulStorage (S : Type) [FullNodeStorage S] where
  Sound : S → Prop
  tables : S → Tables
  wellFormed : ∀ {s : S}, Sound s → (tables s).WellFormed
  initial_sound : Sound (StorageWrite.initial : S)
  initial_tables : tables (StorageWrite.initial : S) = Tables.empty
  getUtxo_eq : ∀ {s : S} (o : OutPoint), Sound s → getUtxo s o = .ok ((tables s).utxo o)
  getBlockHashByHeight_eq : ∀ {s : S} (height : UInt64), Sound s →
    getBlockHashByHeight s height = .ok ((tables s).height height)
  getBlockByHash_eq : ∀ {s : S} (hash : BlockHash), Sound s →
    getBlockByHash s hash = .ok ((tables s).block hash)
  getBlockByHeight_none : ∀ {s : S} {height : UInt64}, Sound s →
    (tables s).height height = none → getBlockByHeight s height = .ok none
  getBlockByHeight_some : ∀ {s : S} {height : UInt64} {hash : BlockHash} {block : Block}, Sound s →
    (tables s).height height = some hash → (tables s).block hash = some block →
    block.header.height = height → getBlockByHeight s height = .ok (some block)
  getBlockHeaderByHash_eq : ∀ {s : S} (hash : BlockHash), Sound s →
    getBlockHeaderByHash s hash = .ok (((tables s).block hash).map Block.header)
  getBlockIndex_eq : ∀ {s : S} (hash : BlockHash), Sound s →
    getBlockIndex s hash = .ok ((tables s).index hash)
  getTransaction_none : ∀ {s : S} {txid : TransactionHash}, Sound s →
    (tables s).transaction txid = none → getTransaction s txid = .ok none
  getTransaction_some : ∀ {s : S} {txid : TransactionHash} {location : TransactionIndexData}
    {tx : Transaction}, Sound s → (tables s).transaction txid = some location →
    (tables s).Located txid location tx → getTransaction s txid = .ok (some ⟨tx, location⟩)
  chainState_eq : ∀ {s : S}, Sound s → chainState s = .ok (tables s).state
  metadata_eq : ∀ {s : S}, Sound s → metadata s = .ok (tables s).metadata
  getBlockUndo_eq : ∀ {s : S} (hash : BlockHash), Sound s →
    getBlockUndo s hash = .ok ((tables s).undo hash)
  batchPutUtxos_ok : ∀ {s : S} {entries : List (OutPoint × UTXO)}, Sound s →
    (∀ entry ∈ entries, Keyed entry) → ∃ s', batchPutUtxos s entries = .ok s' ∧ Sound s' ∧
      tables s' = { tables s with utxo := putAll entries (tables s).utxo }
  batchRemoveUtxos_ok : ∀ {s : S} {outpoints : List OutPoint}, Sound s → outpoints.Nodup →
    (∀ o ∈ outpoints, (tables s).utxo o ≠ none) → ∃ s', batchRemoveUtxos s outpoints = .ok s' ∧
      Sound s' ∧ tables s' = { tables s with utxo := eraseAll outpoints (tables s).utxo }
  batchRemoveUtxos_error : ∀ {s : S} {outpoints : List OutPoint} {o : OutPoint}, Sound s →
    o ∈ outpoints → (tables s).utxo o = none →
    ∃ error, batchRemoveUtxos s outpoints = .error error
  putBlock_eq_ok : ∀ {s s' : S} {block : Block} {index : BlockIndexData}, Sound s →
    verifyGenesisWorkShape block = .ok () → putBlock s block index = .ok s' →
    Sound s' ∧ tables s' = (tables s).putBlock block index
  putBlock_ok : ∀ {s : S} {block : Block} {index : BlockIndexData}, Sound s →
    (tables s).Accepts block index → ∃ s', putBlock s block index = .ok s'
  putBlock_error : ∀ {s : S} {block : Block} (index : BlockIndexData),
    2 ^ 32 < block.data.transactions.length → ∃ error, putBlock s block index = .error error
  removeCanonicalBlock_eq_ok : ∀ {s s' : S} {block : Block}, Sound s →
    removeCanonicalBlock s block = .ok s' → Sound s' ∧ tables s' = (tables s).removeBlock block
  removeCanonicalBlock_ok : ∀ {s : S} {block : Block}, Sound s → (tables s).LocatorsSound →
    (tables s).block block.blockHash = some block →
    (tables s).height block.header.height = some block.blockHash →
    ∃ s', removeCanonicalBlock s block = .ok s'
  putBlockUndo_ok : ∀ {s : S} (hash : BlockHash) (undo : BlockUndo), Sound s →
    ∃ s', putBlockUndo s hash undo = .ok s' ∧ Sound s' ∧
      tables s' = { tables s with undo := Function.update (tables s).undo hash (some undo) }
  putChainState_ok : ∀ {s : S} (state : ChainState), Sound s →
    ∃ s', putChainState s state = .ok s' ∧ Sound s' ∧
      tables s' = { tables s with state := some state }
  putMetadata_ok : ∀ {s : S} (chainMetadata : ChainMetadata), Sound s →
    ∃ s', putMetadata s chainMetadata = .ok s' ∧ Sound s' ∧
      tables s' = { tables s with metadata := some chainMetadata }

/-- The tables without the UTXO set, which a UTXO write must leave alone. -/
def Tables.rest (t : Tables) : Tables := { t with utxo := fun _ => none }

omit [Primitives] in
theorem Tables.eq_of_rest {t t' : Tables} {m : Coins} (rest : t'.rest = t.rest)
    (utxo : t'.utxo = m) : t' = { t with utxo := m } := by
  cases t
  cases t'
  simp only [Tables.rest, Tables.mk.injEq] at rest utxo ⊢
  exact ⟨utxo, rest.2⟩

instance {S : Type} [FullNodeStorage S] [LawfulStorage S] : LawfulUtxoWrite S where
  Sound := LawfulStorage.Sound
  coins s := (LawfulStorage.tables s).utxo
  Rest := Tables
  rest s := (LawfulStorage.tables s).rest
  wellKeyed sound := (LawfulStorage.wellFormed sound).keyed
  getUtxo_eq o sound := LawfulStorage.getUtxo_eq o sound
  batchPutUtxos_ok sound keyed := by
    obtain ⟨s', run, sound', tables'⟩ := LawfulStorage.batchPutUtxos_ok sound keyed
    exact ⟨s', run, sound', by rw [tables'], by rw [tables']; rfl⟩
  batchRemoveUtxos_ok sound distinct present := by
    obtain ⟨s', run, sound', tables'⟩ := LawfulStorage.batchRemoveUtxos_ok sound distinct present
    exact ⟨s', run, sound', by rw [tables'], by rw [tables']; rfl⟩
  batchRemoveUtxos_error sound mem absent :=
    LawfulStorage.batchRemoveUtxos_error sound mem absent

end StryiChain
