import StryiChain.Misc.Simulation
import StryiChain.Storage.Bytes

/-!
# The rows hold the decoded tables

A set of rows stores the column families of a decoded view when each family holds its table. Then
every read of the rows answers as the decoded view does, and every write keeps this. The members of
a set are written in any order, so that sets agree in their members only.
-/

namespace StryiChain

variable [Primitives]

/-- The lists have the same members. -/
def SameSet (l l' : List OutPoint) : Prop := ∀ o, o ∈ l ↔ o ∈ l'

/-- The bytes of a set. -/
def WritesSet (members : List OutPoint) (bytes : List UInt8) : Prop :=
  ∃ l, SameSet l members ∧ bytes = outPointCodec.vector.encode l

/-- The undo records have the same members. -/
def SameUndo (undo undo' : BlockUndo) : Prop :=
  undo.spentUtxos.Perm undo'.spentUtxos ∧ undo.createdOutpoints.Perm undo'.createdOutpoints

/-- The rows of a decoded view. -/
structure Stores (bytes : ByteView) (view : RocksView) : Prop where
  utxo : Rows.Holds encodeUtxoKey (fun utxo b => b = utxoCodec.encode utxo) (bytes.table .utxo)
    view.utxo.read
  addresses : Rows.Holds Hash.bytes WritesSet (bytes.table .addresses) view.addresses.read
  blocks : Rows.Holds Hash.bytes (fun block b => b = blockCodec.encode block)
    (bytes.table .blocks) view.blocks.read
  heights : Rows.Holds heightKey (fun hash b => b = Hash.bytes hash) (bytes.table .heights)
    view.heights.read
  blockIndexes : Rows.Holds Hash.bytes
    (fun index b => index.chainWork < 2 ^ 512 ∧ b = blockIndexCodec.encode index.fields)
    (bytes.table .blockIndexes) view.blockIndexes.read
  transactionIndexes : Rows.Holds Hash.bytes
    (fun location b => b = transactionIndexCodec.encode location)
    (bytes.table .transactionIndexes) view.transactionIndexes.read
  undo : Rows.Holds Hash.bytes
    (fun undo b => ∃ undo', SameUndo undo' undo ∧ b = blockUndoCodec.encode undo')
    (bytes.table .undo) view.undo.read
  stats : Rows.Holds (fun _ : Unit => stateKey)
    (fun state b => state.chainWork < 2 ^ 512 ∧ b = chainStateCodec.encode state.fields)
    (bytes.table .stats) fun _ => view.stats
  metadata : Rows.Holds (fun _ : Unit => metadataKey)
    (fun metadata b => b = chainMetadataCodec.encode metadata) (bytes.table .metadata)
    fun _ => view.metadata

theorem stores_empty : Stores .empty .empty :=
  ⟨Rows.holds_empty _ _, Rows.holds_empty _ _, Rows.holds_empty _ _, Rows.holds_empty _ _,
    Rows.holds_empty _ _, Rows.holds_empty _ _, Rows.holds_empty _ _, Rows.holds_empty _ _,
    Rows.holds_empty _ _⟩

section Get

omit [Primitives]

variable {K V T : Type} {key : K → List UInt8} {writes : V → List UInt8 → Prop}
  {table : TableName} {bytes : ByteView} {m : K → Option V}

/-- A typed read of a family decodes what the map binds. -/
theorem ByteView.get_rel (codec : Codec T) {P : T → V → Prop} (holds : Rows.Holds key writes (bytes.table table) m)
    (reads : ∀ v b, writes v b → ∃ d, codec.fromBytes b = some d ∧ P d v) (k : K) :
    ∃ found, bytes.get table codec (key k) = .ok found ∧ Option.Rel P found (m k) := by
  cases bound : m k with
  | none =>
    refine ⟨none, ?_, .none⟩
    rw [ByteView.get, ByteView.rawGet, holds.read_none bound]
  | some v =>
    obtain ⟨b, row, written⟩ := holds.read_some bound
    obtain ⟨d, decoded, related⟩ := reads v b written
    refine ⟨some d, ?_, .some related⟩
    rw [ByteView.get, ByteView.rawGet, row]
    dsimp only
    rw [ByteView.decode, decoded]
    rfl

theorem ByteView.get_eq {codec : Codec V}
    (holds : Rows.Holds key (fun v b => b = codec.encode v) (bytes.table table) m) (k : K) :
    bytes.get table codec (key k) = .ok (m k) := by
  obtain ⟨found, read, related⟩ := ByteView.get_rel codec (P := fun d v => id d = v)
    holds (fun v b written => ⟨v, by rw [written, Codec.fromBytes_encode], rfl⟩) k
  rw [read, ← map_of_rel related, Option.map_id_fun, id]

end Get

namespace Stores

variable {bytes : ByteView} {view : RocksView}

section Reads

theorem getUtxo_eq (stores : Stores bytes view) (outpoint : OutPoint) :
    bytes.getUtxo outpoint = view.getUtxo outpoint := by
  rw [ByteView.getUtxo, ByteView.get_eq stores.utxo]
  rfl

/-- The members of an address, in another order. -/
theorem members_same (stores : Stores bytes view) (address : AccountAddress) :
    ∃ found, bytes.members address = .ok found ∧ SameSet found (view.members address) := by
  obtain ⟨found, read, related⟩ := ByteView.get_rel outPointCodec.vector
    (P := SameSet) stores.addresses
    (fun v b written => by
      obtain ⟨l, same, rfl⟩ := written
      exact ⟨l, Codec.fromBytes_encode _ l, same⟩) address
  refine ⟨found.getD [], by rw [ByteView.members, read]; rfl, ?_⟩
  unfold RocksView.members
  cases h : view.addresses.read address with
  | none =>
    rw [h] at related
    cases related
    exact fun _ => Iff.rfl
  | some l =>
    rw [h] at related
    cases related with
    | some same => exact same

theorem getBlockHashByHeight_eq (stores : Stores bytes view) (height : UInt64) :
    bytes.getBlockHashByHeight height = .ok (view.heights.read height) := by
  unfold ByteView.getBlockHashByHeight ByteView.rawGet
  cases h : view.heights.read height with
  | none => rw [stores.heights.read_none h]
  | some hash =>
    obtain ⟨b, row, rfl⟩ := stores.heights.read_some h
    rw [row]
    dsimp only
    rw [Hash.tryFrom_bytes]
    rfl

theorem getBlockHeaderByHash_eq (stores : Stores bytes view) (hash : BlockHash) :
    bytes.getBlockHeaderByHash hash = view.getBlockHeaderByHash hash := by
  unfold ByteView.getBlockHeaderByHash RocksView.getBlockHeaderByHash ByteView.rawGet
  cases h : view.blocks.read hash with
  | none => rw [stores.blocks.read_none h]
  | some block =>
    obtain ⟨b, row, rfl⟩ := stores.blocks.read_some h
    rw [row]
    dsimp only
    rw [blockHeaderCodec_fromBytes]
    rfl

theorem getBlockIndex_eq (stores : Stores bytes view) (hash : BlockHash) :
    bytes.getBlockIndex hash = .ok (view.blockIndexes.read hash) := by
  obtain ⟨found, read, related⟩ := ByteView.get_rel blockIndexCodec
    (P := fun fields index => BlockIndexData.ofFields fields = index) stores.blockIndexes
    (fun index b written => ⟨index.fields, by rw [written.2, Codec.fromBytes_encode],
      BlockIndexData.ofFields_fields written.1⟩) hash
  rw [ByteView.getBlockIndex, read, ← map_of_rel related]
  rfl

theorem chainState_eq (stores : Stores bytes view) : bytes.chainState = .ok view.stats := by
  obtain ⟨found, read, related⟩ := ByteView.get_rel chainStateCodec
    (P := fun fields state => ChainState.ofFields fields = state) stores.stats
    (fun state b written => ⟨state.fields, by rw [written.2, Codec.fromBytes_encode],
      ChainState.ofFields_fields written.1⟩) ()
  rw [ByteView.chainState, read, ← map_of_rel related]
  rfl

theorem metadata_eq (stores : Stores bytes view) : bytes.metadata = .ok view.metadata :=
  ByteView.get_eq stores.metadata ()

/-- An undo record, with its two sets in another order. -/
theorem getBlockUndo_same (stores : Stores bytes view) (hash : BlockHash) :
    ∃ found, bytes.getBlockUndo hash = .ok found ∧
      Option.Rel SameUndo found (view.undo.read hash) :=
  ByteView.get_rel blockUndoCodec stores.undo
    (fun undo b written => by
      obtain ⟨undo', same, rfl⟩ := written
      exact ⟨undo', Codec.fromBytes_encode _ undo', same⟩) hash

theorem getBlockByHash_eq (stores : Stores bytes view) (hash : BlockHash) :
    bytes.getBlockByHash hash = view.getBlockByHash hash := by
  rw [ByteView.getBlockByHash, ByteView.get_eq stores.blocks, RocksView.getBlockByHash]
  cases view.blocks.read hash with
  | none => rfl
  | some block => rfl

theorem getBlockByHeight_eq (stores : Stores bytes view) (height : UInt64) :
    bytes.getBlockByHeight height = view.getBlockByHeight height := by
  rw [ByteView.getBlockByHeight, stores.getBlockHashByHeight_eq, RocksView.getBlockByHeight, bind_ok]
  cases view.heights.read height with
  | none => rfl
  | some hash =>
    dsimp only
    rw [stores.getBlockByHash_eq]

theorem getTransaction_eq (stores : Stores bytes view) (hash : TransactionHash) :
    bytes.getTransaction hash = view.getTransaction hash := by
  rw [ByteView.getTransaction, ByteView.get_eq stores.transactionIndexes,
    RocksView.getTransaction, bind_ok]
  cases view.transactionIndexes.read hash with
  | none => rfl
  | some location =>
    dsimp only
    rw [stores.getBlockByHash_eq]

/-- The outputs of an address, when the index mirrors the outputs. -/
theorem getUtxosForAddress_same (stores : Stores bytes view) (indexed : view.Indexed)
    (address : AccountAddress) :
    ∃ found found', bytes.getUtxosForAddress address = .ok found ∧
      view.getUtxosForAddress address = .ok found' ∧ found.read = found'.read := by
  have step : bytes.fetchOwned address = view.fetchOwned address := by
    funext utxos outpoint
    rw [ByteView.fetchOwned, stores.getUtxo_eq]
    rfl
  obtain ⟨members, read, same⟩ := stores.members_same address
  have owned : ∀ o ∈ iter members, view.Owns address o := by
    intro o mem
    exact (indexed.addresses address o).mp ((same o).mp (mem_iter.mp mem))
  have owned' : ∀ o ∈ iter (view.members address), view.Owns address o := by
    intro o mem
    exact (indexed.addresses address o).mp (mem_iter.mp mem)
  obtain ⟨found, run, lookup⟩ := RocksView.fetchOwned_ok indexed.keyed owned ∅
  obtain ⟨found', run', lookup'⟩ := RocksView.fetchOwned_ok indexed.keyed owned' ∅
  refine ⟨found, found', ?_, run', ?_⟩
  · rw [ByteView.getUtxosForAddress, read, bind_ok, step, run]
  · funext o
    have listed : o ∈ iter members ↔ o ∈ iter (view.members address) := by
      rw [mem_iter, mem_iter]
      exact same o
    rw [lookup, lookup']
    simp only [listed]

end Reads

section Rows

/-- A row of outputs is written. -/
theorem insertUtxo (stores : Stores bytes view) (outpoint : OutPoint) (utxo : UTXO) :
    Stores (bytes.put .utxo utxoCodec (encodeUtxoKey outpoint) utxo)
      { view with utxo := AList.insert outpoint utxo view.utxo } :=
  { stores with
    utxo := by
      rw [Table.read_insert]
      exact stores.utxo.insert encodeUtxoKey_injective outpoint rfl }

theorem eraseUtxo (stores : Stores bytes view) (outpoint : OutPoint) :
    Stores (bytes.remove .utxo (encodeUtxoKey outpoint))
      { view with utxo := AList.erase outpoint view.utxo } :=
  { stores with
    utxo := by
      rw [Table.read_erase]
      exact stores.utxo.erase encodeUtxoKey_injective outpoint }

theorem insertBlock (stores : Stores bytes view) (hash : BlockHash) (block : Block) :
    Stores (bytes.put .blocks blockCodec hash.bytes block)
      { view with blocks := AList.insert hash block view.blocks } :=
  { stores with
    blocks := by
      rw [Table.read_insert]
      exact stores.blocks.insert Hash.bytes_injective hash rfl }

theorem insertIndex (stores : Stores bytes view) (hash : BlockHash) {index : BlockIndexData}
    (fits : index.chainWork < 2 ^ 512) :
    Stores (bytes.put .blockIndexes blockIndexCodec hash.bytes index.fields)
      { view with blockIndexes := AList.insert hash index view.blockIndexes } :=
  { stores with
    blockIndexes := by
      rw [Table.read_insert]
      exact stores.blockIndexes.insert Hash.bytes_injective hash ⟨fits, rfl⟩ }

theorem insertHeight (stores : Stores bytes view) (height : UInt64) (hash : BlockHash) :
    Stores (bytes.putRaw .heights (heightKey height) hash.bytes)
      { view with heights := AList.insert height hash view.heights } :=
  { stores with
    heights := by
      rw [Table.read_insert]
      exact stores.heights.insert heightKey_injective height rfl }

theorem eraseHeight (stores : Stores bytes view) (height : UInt64) :
    Stores (bytes.remove .heights (heightKey height))
      { view with heights := AList.erase height view.heights } :=
  { stores with
    heights := by
      rw [Table.read_erase]
      exact stores.heights.erase heightKey_injective height }

theorem insertLocator (stores : Stores bytes view) (txid : TransactionHash)
    (location : TransactionIndexData) :
    Stores (bytes.put .transactionIndexes transactionIndexCodec txid.bytes location)
      { view with
        transactionIndexes := AList.insert txid location view.transactionIndexes } :=
  { stores with
    transactionIndexes := by
      rw [Table.read_insert]
      exact stores.transactionIndexes.insert Hash.bytes_injective txid rfl }

theorem eraseLocator (stores : Stores bytes view) (txid : TransactionHash) :
    Stores (bytes.remove .transactionIndexes txid.bytes)
      { view with transactionIndexes := AList.erase txid view.transactionIndexes } :=
  { stores with
    transactionIndexes := by
      rw [Table.read_erase]
      exact stores.transactionIndexes.erase Hash.bytes_injective txid }

theorem insertUndo (stores : Stores bytes view) (hash : BlockHash)
    (undo : BlockUndo) :
    Stores (bytes.putBlockUndo hash undo)
      { view with undo := AList.insert hash undo view.undo } :=
  { stores with
    undo := by
      rw [Table.read_insert]
      exact stores.undo.insert Hash.bytes_injective hash
        ⟨_, ⟨iter_perm undo.spentUtxos, iter_perm undo.createdOutpoints⟩, rfl⟩ }

theorem putChainState (stores : Stores bytes view) {state : ChainState}
    (fits : state.chainWork < 2 ^ 512) :
    Stores (bytes.putChainState state) { view with stats := some state } :=
  { stores with
    stats := by
      have written := stores.stats.insert (fun _ _ _ => rfl) () (v := state) ⟨fits, rfl⟩
      exact written }

theorem putMetadata (stores : Stores bytes view) (metadata : ChainMetadata) :
    Stores (bytes.putMetadata metadata) { view with metadata := some metadata } :=
  { stores with
    metadata := by
      have written := stores.metadata.insert (fun _ _ _ => rfl) () (v := metadata) rfl
      exact written }

end Rows

end Stores

section Writes

variable {bytes : ByteView} {view : RocksView} {a : ByteView.Memberships}
  {b : RocksView.Memberships}

/-- Both batch writes keep the same sets aside, in any order. -/
def SameMembers (a : ByteView.Memberships) (b : RocksView.Memberships) : Prop :=
  ∀ address, Option.Rel SameSet (a.read address) (b.read address)

omit [Primitives] in
theorem sameMembers_empty : SameMembers ∅ ∅ := fun _ => .none

omit [Primitives] in
theorem SameMembers.insert (same : SameMembers a b) (address : AccountAddress)
    {l l' : List OutPoint} (sets : SameSet l l') :
    SameMembers (AList.insert address l a) (AList.insert address l' b) := by
  intro other
  rw [Table.read_insert, Table.read_insert]
  by_cases own : other = address
  · rw [own, Function.update_self, Function.update_self]
    exact .some sets
  · rw [Function.update_of_ne own, Function.update_of_ne own]
    exact same other

namespace Stores

theorem entry_same (stores : Stores bytes view) (same : SameMembers a b)
    (address : AccountAddress) :
    ∃ found, a.entry bytes address = .ok found ∧ SameSet found (b.entry view address) := by
  have related := same address
  unfold ByteView.Memberships.entry RocksView.Memberships.entry
  cases h : a.read address with
  | none =>
    rw [h] at related
    rw [rel_none related]
    exact stores.members_same address
  | some l =>
    rw [h] at related
    obtain ⟨l', kept, sets⟩ := rel_some related
    rw [kept]
    exact ⟨l, rfl, sets⟩

theorem leave_agree (stores : Stores bytes view) (same : SameMembers a b)
    (address : AccountAddress) (outpoint : OutPoint) :
    Agree SameMembers (a.leave bytes address outpoint) (b.leave view address outpoint) := by
  obtain ⟨l, read, sets⟩ := stores.entry_same same address
  rw [ByteView.Memberships.leave, RocksView.Memberships.leave, read, bind_ok]
  have absent : (outpoint ∉ l) = (outpoint ∉ b.entry view address) :=
    propext (not_congr (sets outpoint))
  apply Agree.bind_eq
  · simp only [absent]
  · intro _ _
    apply Agree.ok
    apply same.insert
    intro o
    rw [List.mem_filter, List.mem_filter, sets o]

theorem join_agree (stores : Stores bytes view) (same : SameMembers a b)
    (address : AccountAddress) (outpoint : OutPoint) :
    ∃ c, a.join bytes address outpoint = .ok c ∧
      SameMembers c (b.join view address outpoint) := by
  obtain ⟨l, read, sets⟩ := stores.entry_same same address
  refine ⟨_, by rw [ByteView.Memberships.join, read, bind_ok]; rfl, ?_⟩
  apply same.insert
  intro o
  rw [List.mem_insert_iff, List.mem_insert_iff, sets o]

theorem moveOut_agree (stores : Stores bytes view) (same : SameMembers a b) (outpoint : OutPoint)
    (owner : AccountAddress) (previous : Option UTXO) :
    Agree SameMembers (a.moveOut bytes outpoint owner previous)
      (b.moveOut view outpoint owner previous) := by
  unfold ByteView.Memberships.moveOut RocksView.Memberships.moveOut
  cases previous with
  | none => exact .ok same
  | some previous =>
    dsimp only
    by_cases moved : previous.owner ≠ owner
    · rw [if_pos moved, if_pos moved]
      exact stores.leave_agree same previous.owner outpoint
    · rw [if_neg moved, if_neg moved]
      exact .ok same

/-- The state of a batch write in both storages. -/
def Abreast (s : ByteView × ByteView.Memberships) (t : RocksView × RocksView.Memberships) : Prop :=
  Stores s.1 t.1 ∧ SameMembers s.2 t.2

theorem putUtxo_agree {s : ByteView × ByteView.Memberships}
    {t : RocksView × RocksView.Memberships} (abreast : Abreast s t) (entry : OutPoint × UTXO) :
    Agree Abreast (ByteView.putUtxo s entry) (RocksView.putUtxo t entry) := by
  obtain ⟨stores, same⟩ := abreast
  apply Agree.bind_same
  intro _ _
  apply Agree.bind_eq (stores.getUtxo_eq entry.1)
  intro previous _
  apply Agree.bind (stores.moveOut_agree same entry.1 entry.2.owner previous)
  intro a b moved
  obtain ⟨c, joined, same'⟩ := stores.join_agree moved entry.2.owner entry.1
  rw [joined, bind_ok]
  exact .ok ⟨stores.insertUtxo entry.1 entry.2, same'⟩

theorem removeUtxo_agree {s : ByteView × ByteView.Memberships}
    {t : RocksView × RocksView.Memberships} (abreast : Abreast s t) (outpoint : OutPoint) :
    Agree Abreast (ByteView.removeUtxo s outpoint) (RocksView.removeUtxo t outpoint) := by
  obtain ⟨stores, same⟩ := abreast
  apply Agree.bind_eq (stores.getUtxo_eq outpoint)
  intro found _
  apply Agree.bind_same
  intro utxo _
  apply Agree.bind (stores.leave_agree same utxo.owner outpoint)
  intro a b left
  exact .ok ⟨stores.eraseUtxo outpoint, left⟩

/-- The sets kept aside are written to their family only. -/
theorem putMembership_foldl (l : List (AccountAddress × List OutPoint)) (bytes : ByteView) :
    l.foldl ByteView.putMembership bytes =
      ⟨Function.update bytes.table .addresses (l.foldl
        (fun rows entry => AList.insert (Hash.bytes entry.1)
          (outPointCodec.vector.encode (iter entry.2)) rows) (bytes.table .addresses))⟩ := by
  induction l generalizing bytes with
  | nil => rw [List.foldl_nil, List.foldl_nil, Function.update_eq_self]
  | cons entry l ih =>
    rw [List.foldl_cons, ih, List.foldl_cons]
    simp only [ByteView.putMembership, ByteView.put, ByteView.putRaw, Function.update_self,
      Function.update_idem]

omit [Primitives] in
theorem members_or {a : ByteView.Memberships} {b : RocksView.Memberships}
    (same : SameMembers a b) (m : AccountAddress → Option (List OutPoint))
    (address : AccountAddress) :
    Option.Rel SameSet ((a.read address).or (m address)) ((b.read address).or (m address)) := by
  have related := same address
  cases h : a.read address with
  | none =>
    rw [h] at related
    rw [rel_none related, Option.none_or]
    cases m address with
    | none => exact .none
    | some l => exact .some fun _ => Iff.rfl
  | some l =>
    rw [h] at related
    obtain ⟨l', kept, sets⟩ := rel_some related
    rw [kept]
    exact .some sets

/-- The order in which the sets are written does not matter. -/
theorem putAll_iter (t : Table AccountAddress (List OutPoint))
    (m : AccountAddress → Option (List OutPoint)) (address : AccountAddress) :
    putAll (iter t.toPairs) m address = (t.read address).or (m address) := by
  rw [← putAll_perm (iter_perm t.toPairs).symm t.nodup_toPairs_keys, Table.putAll_toPairs]

theorem putMemberships_stores (stores : Stores bytes view) (same : SameMembers a b) :
    Stores (bytes.putMemberships a) (view.putMemberships b) := by
  rw [ByteView.putMemberships, putMembership_foldl]
  refine { stores with addresses := ?_ }
  rw [RocksView.putMemberships]
  dsimp only
  rw [Function.update_self, Table.read_insertAll]
  have written := stores.addresses.insertAll Hash.bytes_injective
    (fun members => outPointCodec.vector.encode (iter members)) (l := iter a.toPairs)
    fun entry _ => ⟨iter entry.2, fun _ => mem_iter, rfl⟩
  apply written.congr (P := SameSet)
  · intro address
    rw [putAll_iter, putAll_iter]
    exact members_or same _ address
  · intro members members' bytes sets written
    obtain ⟨l, listed, rfl⟩ := written
    exact ⟨l, fun o => (listed o).trans (sets o), rfl⟩

theorem batchPutUtxos_agree (stores : Stores bytes view) (utxos : List (OutPoint × UTXO)) :
    Agree Stores (bytes.batchPutUtxos utxos) (view.batchPutUtxos utxos) := by
  apply Agree.bind (Agree.foldlM (R := Abreast) (fun s t abreast entry _ =>
    putUtxo_agree abreast entry) ⟨stores, sameMembers_empty⟩)
  intro s t abreast
  exact .ok (abreast.1.putMemberships_stores abreast.2)

theorem batchRemoveUtxos_agree (stores : Stores bytes view) (outpoints : List OutPoint) :
    Agree Stores (bytes.batchRemoveUtxos outpoints) (view.batchRemoveUtxos outpoints) := by
  apply Agree.bind (Agree.foldlM (R := Abreast) (fun s t abreast outpoint _ =>
    removeUtxo_agree abreast outpoint) ⟨stores, sameMembers_empty⟩)
  intro s t abreast
  exact .ok (abreast.1.putMemberships_stores abreast.2)

theorem putLocator_agree (block : Block) (stores : Stores bytes view)
    (entry : Transaction × Nat) :
    Agree Stores (ByteView.putLocator block bytes entry) (RocksView.putLocator block view entry) := by
  apply Agree.bind_same
  intro _ _
  exact .ok (stores.insertLocator _ _)

theorem putBlock_agree (stores : Stores bytes view) (block : Block) {index : BlockIndexData}
    (fits : index.chainWork < 2 ^ 512) :
    Agree Stores (bytes.putBlock block index) (view.putBlock block index) := by
  rw [ByteView.putBlock, stores.getBlockByHash_eq, stores.getBlockIndex_eq,
    stores.getBlockHashByHeight_eq]
  apply Agree.bind_same
  intro saved _
  apply Agree.bind_same
  intro _ _
  rw [bind_ok]
  apply Agree.bind_same
  intro _ _
  rw [bind_ok]
  apply Agree.bind_same
  intro _ _
  apply Agree.foldlM (fun s t stores entry _ => putLocator_agree block stores entry)
  exact ((stores.insertBlock _ block).insertIndex _ fits).insertHeight _ _

theorem removeLocator_agree (block : Block) (stores : Stores bytes view) (transaction : Transaction) :
    Agree Stores (ByteView.removeLocator block bytes transaction)
      (RocksView.removeLocator block view transaction) := by
  rw [ByteView.removeLocator, RocksView.removeLocator,
    ByteView.get_eq stores.transactionIndexes, bind_ok]
  cases view.transactionIndexes.read transaction.data.hash with
  | none => exact .ok stores
  | some location =>
    dsimp only
    by_cases other : location.blockHash ≠ block.blockHash
    · rw [if_pos other, if_pos other, stores.getTransaction_eq]
      apply Agree.bind_same
      intro _ _
      exact .ok stores
    · rw [if_neg other, if_neg other]
      apply Agree.bind_same
      intro _ _
      exact .ok (stores.eraseLocator _)

theorem removeCanonicalBlock_agree (stores : Stores bytes view) (block : Block) :
    Agree Stores (bytes.removeCanonicalBlock block) (view.removeCanonicalBlock block) := by
  rw [ByteView.removeCanonicalBlock, stores.getBlockHashByHeight_eq, bind_ok]
  apply Agree.bind_same
  intro _ _
  exact Agree.foldlM (fun s t stores transaction _ => removeLocator_agree block stores transaction)
    (stores.eraseHeight _)

end Stores

end Writes

end StryiChain
