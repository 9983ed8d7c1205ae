import StryiChain.Utxo.Rewind

/-!
# The other undo builder (`undo.rs`)

`Block::create_undo` looks every input of every transaction up in the state before the block and
records every output. `apply_block` records the net change. The two agree exactly on the blocks
whose named outpoints are all drawn from storage and whose outputs all remain.
-/

namespace StryiChain

section Builder

variable [Primitives]

/-- One input (`undo.rs:54-64`). -/
def recordSpent (utxoLookup : OutPoint → Option UTXO) (spent : List (OutPoint × UTXO))
    (input : TransactionIn) : Except StryiCoreError (List (OutPoint × UTXO)) := do
  let utxo ← okOr (utxoLookup input.previousOutput)
    (.txMissingUtxo input.previousOutput.txid input.previousOutput.vout)
  return List.insert (input.previousOutput, utxo) spent

/-- `process_inputs` (`undo.rs:45-66`): the kind of the transaction does not matter. -/
def processInputs (tx : Transaction) (utxoLookup : OutPoint → Option UTXO)
    (spent : List (OutPoint × UTXO)) : Except StryiCoreError (List (OutPoint × UTXO)) :=
  tx.data.inputs.foldlM (recordSpent utxoLookup) spent

/-- `process_outputs` (`undo.rs:69-78`). -/
def processOutputs (tx : Transaction) (created : List OutPoint) : List OutPoint :=
  let txid := tx.data.hash
  tx.data.outputs.zipIdx.foldl
    (fun created (_, index) => List.insert ⟨txid, UInt32.ofNat index⟩ created) created

/-- One transaction of the loop of `create_undo`. -/
def recordTransaction (utxoLookup : OutPoint → Option UTXO)
    (state : List (OutPoint × UTXO) × List OutPoint) (tx : Transaction) :
    Except StryiCoreError (List (OutPoint × UTXO) × List OutPoint) := do
  let spent ← processInputs tx utxoLookup state.1
  return (spent, processOutputs tx state.2)

/-- `Block::create_undo` (`undo.rs:23-40`). -/
def Block.createUndo (block : Block) (utxoLookup : OutPoint → Option UTXO) :
    Except StryiCoreError BlockUndo := do
  let (spentUtxos, createdOutpoints) ←
    block.data.transactions.foldlM (recordTransaction utxoLookup) ([], [])
  return { spentUtxos, createdOutpoints }

/-- The two records are equal as pairs of sets. -/
structure BlockUndo.Same (undo undo' : BlockUndo) : Prop where
  spent : ∀ e, e ∈ undo.spentUtxos ↔ e ∈ undo'.spentUtxos
  created : ∀ o, o ∈ undo.createdOutpoints ↔ o ∈ undo'.createdOutpoints

/-- The outpoints that the transactions name as inputs, whatever their kind. -/
def namedBy (txs : List Transaction) : List OutPoint := txs.flatMap Transaction.spentOutpoints

/-- Every outpoint the block names is drawn from storage by a payment, and no output of the block
is spent by it for good. -/
structure Block.Separate (block : Block) : Prop where
  named : ∀ o ∈ namedBy block.data.transactions, Draws block.data.transactions o
  outputs : ∀ o ∈ createdBy block.data.transactions, Remains block.data.transactions o

section Loops

variable {m : Coins} {spent : List (OutPoint × UTXO)} {created : List OutPoint}

omit [Primitives] in
theorem recordSpent_some {input : TransactionIn} {u : UTXO}
    (present : m input.previousOutput = some u) :
    recordSpent m spent input = .ok (List.insert (input.previousOutput, u) spent) := by
  simp [recordSpent, present]

omit [Primitives] in
theorem recordSpent_none {input : TransactionIn} (absent : m input.previousOutput = none)
    (spent : List (OutPoint × UTXO)) :
    ∃ error, recordSpent m spent input = .error error := by
  simp [recordSpent, absent]

omit [Primitives] in
/-- Inputs that are all present are recorded with the entries of the map. -/
theorem recordInputs_ok {inputs : List TransactionIn}
    (present : ∀ input ∈ inputs, m input.previousOutput ≠ none) (distinct : spent.Nodup) :
    ∃ spent', inputs.foldlM (recordSpent m) spent = .ok spent' ∧ spent'.Nodup ∧
      ∀ e, e ∈ spent' ↔
        e ∈ spent ∨ (e.1 ∈ inputs.map TransactionIn.previousOutput ∧ m e.1 = some e.2) := by
  induction inputs generalizing spent with
  | nil => exact ⟨spent, rfl, distinct, by simp⟩
  | cons input inputs ih =>
    obtain ⟨u, found⟩ := Option.ne_none_iff_exists'.mp (present input (by simp))
    obtain ⟨spent', run, distinct', members⟩ := ih
      (fun i mem => present i (List.mem_cons_of_mem _ mem))
      (distinct.insert (a := (input.previousOutput, u)))
    refine ⟨spent', by rw [List.foldlM_cons, recordSpent_some found, bind_ok, run], distinct',
      fun e => ?_⟩
    rw [members, List.mem_insert_iff, List.map_cons, List.mem_cons]
    have first : e = (input.previousOutput, u) ↔ e.1 = input.previousOutput ∧ m e.1 = some e.2 := by
      constructor
      · rintro rfl
        exact ⟨rfl, found⟩
      · rintro ⟨key, value⟩
        rw [key, found, Option.some.injEq] at value
        exact Prod.ext key value.symm
    rw [first]
    tauto

omit [Primitives] in
theorem insertAll_list {α β : Type} [DecidableEq β] (f : α → β) (l : List α) (acc : List β)
    (distinct : acc.Nodup) :
    (l.foldl (fun acc a => List.insert (f a) acc) acc).Nodup ∧
      ∀ b, b ∈ l.foldl (fun acc a => List.insert (f a) acc) acc ↔ b ∈ acc ∨ b ∈ l.map f := by
  induction l generalizing acc with
  | nil => exact ⟨distinct, by simp⟩
  | cons a l ih =>
    obtain ⟨distinct', members⟩ := ih (List.insert (f a) acc) distinct.insert
    refine ⟨distinct', fun b => ?_⟩
    rw [List.foldl_cons, members, List.mem_insert_iff, List.map_cons, List.mem_cons]
    tauto

theorem processOutputs_spec (tx : Transaction) (distinct : created.Nodup) :
    (processOutputs tx created).Nodup ∧
      ∀ o, o ∈ processOutputs tx created ↔ o ∈ created ∨ o ∈ tx.outputKeys := by
  have keys : tx.outputKeys = tx.data.outputs.zipIdx.map fun entry =>
      (⟨tx.data.hash, UInt32.ofNat entry.2⟩ : OutPoint) := by
    simp [Transaction.outputKeys, Transaction.createdUtxos, Function.comp_def]
  rw [keys]
  exact insertAll_list (fun entry : TransactionOut × Nat =>
    (⟨tx.data.hash, UInt32.ofNat entry.2⟩ : OutPoint)) _ _ distinct

/-- The loop of `create_undo`, when everything named is present. -/
theorem recordTransactions_ok {txs : List Transaction} (present : ∀ o ∈ namedBy txs, m o ≠ none)
    (distinct : spent.Nodup) (distinctCreated : created.Nodup) :
    ∃ spent' created', txs.foldlM (recordTransaction m) (spent, created) =
        .ok (spent', created') ∧ spent'.Nodup ∧ created'.Nodup ∧
      (∀ e, e ∈ spent' ↔ e ∈ spent ∨ (e.1 ∈ namedBy txs ∧ m e.1 = some e.2)) ∧
      ∀ o, o ∈ created' ↔ o ∈ created ∨ o ∈ createdBy txs := by
  induction txs generalizing spent created with
  | nil => exact ⟨spent, created, rfl, distinct, distinctCreated, by simp [namedBy],
      by simp [createdBy_eq]⟩
  | cons tx txs ih =>
    have own : ∀ input ∈ tx.data.inputs, m input.previousOutput ≠ none := fun input mem =>
      present _ (List.mem_flatMap.mpr ⟨tx, by simp, List.mem_map_of_mem mem⟩)
    have later : ∀ o ∈ namedBy txs, m o ≠ none := fun o mem => present o (by
      simp only [namedBy, List.flatMap_cons, List.mem_append]
      exact .inr mem)
    obtain ⟨middle, inputs, distinctMiddle, membersMiddle⟩ := recordInputs_ok own distinct
    obtain ⟨distinctOut, membersOut⟩ := processOutputs_spec tx distinctCreated
    obtain ⟨spent', created', run, distinct', distinctCreated', members, membersCreated⟩ :=
      ih later distinctMiddle distinctOut
    refine ⟨spent', created', ?_, distinct', distinctCreated', fun e => ?_, fun o => ?_⟩
    · rw [List.foldlM_cons, recordTransaction, processInputs, inputs, bind_ok]
      exact run
    · rw [members, membersMiddle]
      simp only [namedBy, List.flatMap_cons, List.mem_append, Transaction.spentOutpoints]
      tauto
    · rw [membersCreated, membersOut]
      simp only [createdBy_eq, List.flatMap_cons, List.mem_append]
      tauto

/-- An absent input of any transaction stops the loop. -/
theorem recordTransactions_error {txs : List Transaction} {o : OutPoint} (mem : o ∈ namedBy txs)
    (absent : m o = none) (state : List (OutPoint × UTXO) × List OutPoint) :
    ∃ error, txs.foldlM (recordTransaction m) state = .error error := by
  obtain ⟨tx, inside, named⟩ := List.mem_flatMap.mp mem
  obtain ⟨input, member, rfl⟩ := List.mem_map.mp named
  refine foldlM_error inside (fun state => ?_) state
  obtain ⟨error, failed⟩ := foldlM_error member (recordSpent_none absent) state.1
  exact ⟨error, by rw [recordTransaction, processInputs, failed]; rfl⟩

end Loops

/-- What `create_undo` returns when everything named is present. -/
theorem createUndo_ok {block : Block} {m : Coins}
    (present : ∀ o ∈ namedBy block.data.transactions, m o ≠ none) :
    ∃ undo, block.createUndo m = .ok undo ∧ undo.createdOutpoints.Nodup ∧ undo.spentUtxos.Nodup ∧
      (∀ e, e ∈ undo.spentUtxos ↔ e.1 ∈ namedBy block.data.transactions ∧ m e.1 = some e.2) ∧
      ∀ o, o ∈ undo.createdOutpoints ↔ o ∈ createdBy block.data.transactions := by
  obtain ⟨spent, created, run, distinct, distinctCreated, members, membersCreated⟩ :=
    recordTransactions_ok present List.nodup_nil List.nodup_nil
  refine ⟨⟨spent, created⟩, by rw [Block.createUndo, run]; rfl, distinctCreated, distinct, ?_, ?_⟩
  · simpa using members
  · simpa using membersCreated

theorem createUndo_error {block : Block} {m : Coins} {o : OutPoint}
    (mem : o ∈ namedBy block.data.transactions) (absent : m o = none) :
    ∃ error, block.createUndo m = .error error := by
  obtain ⟨error, failed⟩ := recordTransactions_error mem absent ([], [])
  exact ⟨error, by rw [Block.createUndo, failed]; rfl⟩

theorem Draws.named {txs : List Transaction} {o : OutPoint} (draws : Draws txs o) :
    o ∈ namedBy txs := by
  obtain ⟨before, tx, after, rfl, input, -⟩ := draws
  rw [Transaction.paymentInputs] at input
  split at input
  · simp [namedBy, input]
  · cases input

variable {S : Type} [UtxoWrite S] {laws : UtxoLaws S} {s s' : S} {block : Block} {undo : BlockUndo}

/-- The two builders return the same record exactly for a separate block. -/
theorem createUndo_same_iff (sound : laws.Sound s) (run : applyBlock block s = .ok (undo, s')) :
    (∃ undo', block.createUndo (laws.coins s) = .ok undo' ∧ undo'.Same undo) ↔ block.Separate := by
  have applicable := (UtxoLaws.applyBlock_eq_ok sound run).1
  constructor
  · rintro ⟨undo', built, same⟩
    by_cases present : ∀ o ∈ namedBy block.data.transactions, laws.coins s o ≠ none
    · obtain ⟨undo'', again, -, -, members, membersCreated⟩ := createUndo_ok present
      rw [built, Except.ok.injEq] at again
      subst again
      constructor
      · intro o mem
        obtain ⟨u, found⟩ := Option.ne_none_iff_exists'.mp (present o mem)
        have listed := (same.spent (o, u)).mp ((members (o, u)).mpr ⟨mem, found⟩)
        exact ((mem_undo_spent_iff sound run o u).mp listed).1
      · intro o mem
        exact (mem_undo_created sound run o).mp ((same.created o).mp ((membersCreated o).mpr mem))
    · push Not at present
      obtain ⟨o, mem, absent⟩ := present
      obtain ⟨error, failed⟩ := createUndo_error mem absent
      rw [failed] at built
      cases built
  · rintro ⟨named, outputs⟩
    have present : ∀ o ∈ namedBy block.data.transactions, laws.coins s o ≠ none := fun o mem =>
      applicable.2 o ((mem_external_iff block o).mpr (named o mem))
    obtain ⟨undo', built, -, -, members, membersCreated⟩ := createUndo_ok present
    refine ⟨undo', built, ?_, ?_⟩
    · rintro ⟨o, u⟩
      rw [members, mem_undo_spent_iff sound run]
      exact and_congr_left fun _ => ⟨named o, Draws.named⟩
    · intro o
      rw [membersCreated, mem_undo_created sound run]
      exact ⟨outputs o, Remains.created⟩

omit [Primitives] in
/-- Records that are equal as sets are played back to the same map. -/
theorem rewind_same {undo undo' : BlockUndo} (same : undo'.Same undo)
    (keys : (undo.spentUtxos.map Prod.fst).Nodup) (keys' : (undo'.spentUtxos.map Prod.fst).Nodup)
    (m : Coins) : Coins.rewind undo' m = Coins.rewind undo m := by
  have perm : undo'.spentUtxos.Perm undo.spentUtxos :=
    (List.perm_ext_iff_of_nodup keys'.of_map keys.of_map).mpr same.spent
  rw [Coins.rewind, Coins.rewind, putAll_perm perm keys', eraseAll_congr same.created]

/-- On a separate block the record of `create_undo` can be played back, and leaves the same map. -/
theorem createUndo_rewinds {laws : UtxoLaws S} {s s' : S} (sound : laws.Sound s) {block : Block}
    {undo undo' : BlockUndo} (run : applyBlock block s = .ok (undo, s'))
    (separate : block.Separate) (built : block.createUndo (laws.coins s) = .ok undo')
    (same : undo'.Same undo) :
    ∃ r r', rewindBlock undo s' = .ok r ∧ rewindBlock undo' s' = .ok r' ∧
      laws.coins r = laws.coins r' := by
  obtain ⟨applicable, rfl, soundAfter, map, -⟩ := UtxoLaws.applyBlock_eq_ok sound run
  have playable := UtxoLaws.playable_undo sound applicable
  have present : ∀ o ∈ namedBy block.data.transactions, laws.coins s o ≠ none := fun o mem =>
    applicable.2 o ((mem_external_iff block o).mpr (separate.named o mem))
  obtain ⟨undo'', again, distinct, distinctSpent, members, -⟩ := createUndo_ok present
  rw [built, Except.ok.injEq] at again
  subst again
  have entries : ∀ e ∈ undo'.spentUtxos, laws.coins s e.1 = some e.2 :=
    fun e mem => ((members e).mp mem).2
  -- The entries are those of the map, so that one outpoint has one entry.
  have keys : (undo'.spentUtxos.map Prod.fst).Nodup := by
    refine distinctSpent.map_on fun e mem e' mem' key => Prod.ext key ?_
    have value := entries e mem
    rw [key, entries e' mem', Option.some.injEq] at value
    exact value.symm
  have playable' : laws.Playable undo' :=
    ⟨distinct, keys, fun e mem => laws.fits_stored sound (entries e mem)⟩
  have there : ∀ o ∈ (Coins.undo block (laws.coins s)).createdOutpoints,
      laws.coins s' o ≠ none := by
    intro o mem
    rw [map]
    exact Coins.apply_created_ne_none mem
  obtain ⟨r, rewind, -, map_r, -⟩ := UtxoLaws.rewindBlock_ok soundAfter playable there
  obtain ⟨r', rewind', -, map_r', -⟩ := UtxoLaws.rewindBlock_ok soundAfter playable'
    fun o mem => there o ((same.created o).mp mem)
  exact ⟨r, r', rewind, rewind', by rw [map_r, map_r', rewind_same same playable.spent keys]⟩

/-- The two builders agree exactly on separate blocks: `create_undo` succeeds, its record is the
same one, and playing either back leaves the same map. -/
theorem createUndo_agrees_iff (laws : UtxoLaws S) {s s' : S} (sound : laws.Sound s) {block : Block}
    {undo : BlockUndo} (run : applyBlock block s = .ok (undo, s')) :
    (∃ undo', block.createUndo (laws.coins s) = .ok undo' ∧ undo'.Same undo ∧
      ∃ r r', rewindBlock undo s' = .ok r ∧ rewindBlock undo' s' = .ok r' ∧
        laws.coins r = laws.coins r') ↔ block.Separate := by
  constructor
  · rintro ⟨undo', built, same, -⟩
    exact (createUndo_same_iff sound run).mp ⟨undo', built, same⟩
  · intro separate
    obtain ⟨undo', built, same⟩ := (createUndo_same_iff sound run).mpr separate
    exact ⟨undo', built, same, createUndo_rewinds sound run separate built same⟩

end Builder

open Sample in
/-- A block that spends one of its own outputs is applied, and the other builder misses the
output. -/
theorem createUndo_misses_own_output :
    (∃ undo s', applyBlock (above genesis 1 [earn, passOn]) funds = .ok (undo, s')) ∧
    (above genesis 1 [earn, passOn]).createUndo funds.utxos.read =
      .error (.txMissingUtxo earn.data.hash 0) := by
  have applied : (applyBlock (above genesis 1 [earn, passOn]) funds).toOption.any
      (fun _ => true) = true := by decide +kernel
  obtain ⟨⟨undo, s'⟩, run, -⟩ := exists_ok_of_any applied
  exact ⟨⟨undo, s', run⟩, by decide +kernel⟩

open Sample in
/-- A block that spends the allocation of genesis. -/
theorem createUndo_agrees_sample :
    ∃ undo s', applyBlock (above genesis 1 [earn]) funds = .ok (undo, s') ∧
      ((∃ undo', (above genesis 1 [earn]).createUndo funds.utxos.read = .ok undo' ∧
        undo'.Same undo ∧ ∃ r r', rewindBlock undo s' = .ok r ∧ rewindBlock undo' s' = .ok r' ∧
          r.utxos.read = r'.utxos.read) ↔ (above genesis 1 [earn]).Separate) := by
  have applied : (applyBlock (above genesis 1 [earn]) funds).toOption.any
      (fun _ => true) = true := by decide +kernel
  obtain ⟨⟨undo, s'⟩, run, -⟩ := exists_ok_of_any applied
  have sound : MemoryView.utxoLaws.Sound funds := trivial
  have agrees := createUndo_agrees_iff MemoryView.utxoLaws sound run
  exact ⟨undo, s', run, agrees⟩

end StryiChain
