import StryiChain.Chain.Exact

/-!
# The index of confirmed transactions

A transaction hash has one locator, which an attached block overwrites and a detached block erases
if it is its own. The locators are those of the canonical chain as long as no reorganization takes
away a transaction that is also confirmed below and does not bring it back.
-/

namespace StryiChain

open LawfulStorage StryiConsensusEngine

section Confirmed

variable [Primitives]

/-- The hashes of the transactions of a list of blocks. -/
def txidsOf (w : List Block) : List TransactionHash := w.flatMap Block.txids

/-- The locators of a chain: the last block that has a transaction locates it. -/
def confirmed (w : List Block) : TransactionHash → Option TransactionIndexData :=
  putAll (w.flatMap Block.locators) fun _ => none

variable {w p q bs : List Block} {b : Block} {t : Tables} {txid : TransactionHash}

theorem map_fst_locators (b : Block) : b.locators.map Prod.fst = b.txids := by
  rw [Block.locators, Block.txids, List.map_map]
  conv_rhs => rw [← List.zipIdx_map_fst 0 b.data.transactions, List.map_map]
  rfl

theorem map_fst_flatMap_locators (w : List Block) :
    (w.flatMap Block.locators).map Prod.fst = txidsOf w := by
  rw [List.map_flatMap, txidsOf]
  exact List.flatMap_congr fun b _ => map_fst_locators b

theorem confirmed_append (p bs : List Block) :
    confirmed (p ++ bs) = putAll (bs.flatMap Block.locators) (confirmed p) := by
  rw [confirmed, List.flatMap_append, putAll_append]
  rfl

theorem confirmed_eq_none : confirmed w txid = none ↔ txid ∉ txidsOf w := by
  rw [confirmed, putAll_eq_none, map_fst_flatMap_locators]
  simp

/-- A locator leads to a transaction of one of the blocks. -/
theorem mem_locators {location : TransactionIndexData} (mem : (txid, location) ∈ b.locators) :
    ∃ i tx, b.data.transactions[i]? = some tx ∧ tx.data.hash = txid ∧
      location = ⟨b.blockHash, b.header.height, UInt32.ofNat i⟩ := by
  obtain ⟨⟨tx, i⟩, inside, same⟩ := List.mem_map.mp mem
  rw [Prod.mk.injEq] at same
  obtain ⟨rfl, rfl⟩ := same
  exact ⟨i, tx, List.mem_zipIdx_iff_getElem?.mp inside, rfl, rfl⟩

theorem confirmed_eq_some {location : TransactionIndexData}
    (found : confirmed w txid = some location) :
    ∃ b ∈ w, (txid, location) ∈ b.locators := by
  rcases putAll_eq_some found with inside | ⟨-, none⟩
  · exact List.mem_flatMap.mp inside
  · cases none

/-- Attached blocks overwrite the locators of their transactions. -/
theorem Tables.attachAll_transaction (t : Tables) (w bs : List Block) :
    (t.attachAll w bs).transaction = putAll (bs.flatMap Block.locators) t.transaction := by
  induction bs generalizing t w with
  | nil => rfl
  | cons b bs ih =>
    rw [List.flatMap_cons, putAll_append]
    exact ih (t.attach b _ _) _

/-- The locators of a chain without those of some hashes. -/
def confirmedExcept (gone : List TransactionHash) (w : List Block) :
    TransactionHash → Option TransactionIndexData := eraseAll gone (confirmed w)

/-- The tip gives up its transactions, which it was the last one to locate. -/
theorem unlocate_tip (gone : List TransactionHash) (w : List Block) (b : Block) :
    unlocate b.blockHash b.txids (confirmedExcept gone (w ++ [b])) =
      confirmedExcept (b.txids ++ gone) w := by
  funext txid
  by_cases inside : txid ∈ b.txids
  · rw [confirmedExcept, confirmedExcept, eraseAll_of_mem (List.mem_append_left _ inside), unlocate]
    by_cases erased : txid ∈ gone
    · rw [eraseAll_of_mem erased]
      simp
    · rw [eraseAll_of_notMem erased, if_pos]
      refine ⟨inside, ?_⟩
      -- The last locator is one of the tip.
      obtain ⟨location, found⟩ : ∃ location, confirmed (w ++ [b]) txid = some location := by
        rw [← Option.ne_none_iff_exists', ne_eq, confirmed_eq_none, not_not, txidsOf]
        simp [inside]
      rw [found, Option.any_some, decide_eq_true_eq]
      rw [confirmed_append] at found
      rcases putAll_eq_some found with own | ⟨outside, -⟩
      · rw [List.flatMap_singleton] at own
        obtain ⟨_, _, -, -, rfl⟩ := mem_locators own
        rfl
      · rw [map_fst_flatMap_locators] at outside
        exact absurd (by simpa [txidsOf] using inside) outside
  · have same : confirmed (w ++ [b]) txid = confirmed w txid := by
      rw [confirmed_append, putAll_of_notMem]
      rw [map_fst_flatMap_locators]
      simpa [txidsOf] using inside
    rw [unlocate, if_neg fun both => inside both.1]
    simp [confirmedExcept, eraseAll, inside, same]

/-- Detaching blocks erases the locators of all their transactions. -/
theorem detachAll_transaction {gone : List TransactionHash}
    (located : t.transaction = confirmedExcept gone (p ++ q)) :
    (t.detachAll q).transaction = confirmedExcept (txidsOf q ++ gone) p := by
  induction q using List.reverseRecOn generalizing t gone with
  | nil => simpa [Tables.detachAll, txidsOf] using located
  | append_singleton q b ih =>
    rw [Tables.detachAll_concat]
    have step : (t.removeBlock b).transaction = confirmedExcept (b.txids ++ gone) (p ++ q) := by
      rw [Tables.removeBlock, located, ← List.append_assoc]
      exact unlocate_tip gone (p ++ q) b
    rw [ih step, txidsOf, txidsOf, List.flatMap_append, List.flatMap_singleton, List.append_assoc]

/-- Every transaction that the detached blocks share with the chain below is in the branch. -/
def Reconfirms (p q bs : List Block) : Prop :=
  ∀ txid ∈ txidsOf q, txid ∈ txidsOf p → txid ∈ txidsOf bs

/-- The locators after a reorganization. -/
theorem reorganized_transaction (located : t.transaction = confirmed (p ++ q)) (bs : List Block) :
    (t.reorganized p q bs).transaction =
      putAll (bs.flatMap Block.locators) (confirmedExcept (txidsOf q) p) := by
  have nothing : t.transaction = confirmedExcept [] (p ++ q) := by
    rw [confirmedExcept, eraseAll_nil, located]
  rw [Tables.reorganized, Tables.attachAll_transaction, detachAll_transaction nothing,
    List.append_nil]

/-- They are those of the new chain exactly when nothing confirmed below gets lost. -/
theorem reorganized_confirmed_iff (located : t.transaction = confirmed (p ++ q)) :
    (t.reorganized p q bs).transaction = confirmed (p ++ bs) ↔ Reconfirms p q bs := by
  rw [reorganized_transaction located, confirmed_append]
  constructor
  · intro same txid detached kept
    by_contra lost
    have here := congrFun same txid
    rw [putAll_of_notMem (by rwa [map_fst_flatMap_locators]),
      putAll_of_notMem (by rwa [map_fst_flatMap_locators]), confirmedExcept,
      eraseAll_of_mem detached, eq_comm, confirmed_eq_none] at here
    exact here kept
  · intro reconfirms
    funext txid
    by_cases attached : txid ∈ txidsOf bs
    · apply putAll_of_key
      rwa [map_fst_flatMap_locators]
    · rw [putAll_of_notMem (by rwa [map_fst_flatMap_locators]),
        putAll_of_notMem (by rwa [map_fst_flatMap_locators]), confirmedExcept]
      by_cases detached : txid ∈ txidsOf q
      · have none : confirmed p txid = none :=
          confirmed_eq_none.mpr fun kept => attached (reconfirms txid detached kept)
        rw [eraseAll_of_mem detached, none]
      · rw [eraseAll_of_notMem detached]

end Confirmed

section Fits

variable [Primitives] {S : Type} [FullNodeStorage S] [LawfulStorage S] {s s' : S} {b : Block}

/-- The positions of the transactions fit their locators. -/
def Block.Fits (b : Block) : Prop := b.data.transactions.length ≤ 2 ^ 32

theorem putBlock_fits {index : BlockIndexData} (put : putBlock s b index = .ok s') : b.Fits := by
  by_contra large
  obtain ⟨error, failed⟩ := putBlock_error (s := s) index (Nat.lt_of_not_le large)
  rw [failed] at put
  cases put

theorem append_fits {result : ChainTransitionResult}
    (run : applyTransition s (.append b) = .ok (result, s')) : b.Fits := by
  simp only [applyTransition, stageAppend, attachBlock, bind_eq_ok, Prod.exists] at run
  obtain ⟨_, -, _, _, ⟨_, -, _, -, _, _, ⟨_, -, _, _, -, _, put, -⟩, -⟩, -⟩ := run
  exact putBlock_fits put

theorem attachPrepared_fits {st : ChainState} {records : List (Block × BlockUndo)}
    {result : S × ChainState} (run : attachPrepared s st records = .ok result) :
    ∀ record ∈ records, record.1.Fits := by
  induction records generalizing s st with
  | nil =>
    intro record mem
    cases mem
  | cons record records ih =>
    rw [attachPrepared_cons] at run
    simp only [bind_eq_ok] at run
    obtain ⟨next, -, stored, put, saved, -, rest⟩ := run
    intro other mem
    rcases List.mem_cons.mp mem with rfl | later
    · exact putBlock_fits put
    · exact ih rest other later

theorem reorganize_fits {delta : ForkDbDelta} {result : ChainTransitionResult}
    (run : applyTransition s (.reorganize delta) = .ok (result, s')) :
    ∀ record ∈ delta.blocks, record.1.Fits := by
  simp only [applyTransition, stageReorganization, bind_eq_ok, Prod.exists] at run
  obtain ⟨_, -, _, _, ⟨_, -, _, -, _, -, _, _, -, _, _, _, -, _, -, _, -, _, -, _, _, attach, -⟩, -⟩ :=
    run
  exact attachPrepared_fits attach

end Fits

section Exact

variable [Primitives] {DB : Type} [FullNodeStorage DB]

/-- The blocks that a delivered block makes canonical if its branch is heavy enough. -/
def branchWith (engine : StryiConsensusEngine DB) (b : Block) : List Block :=
  match engine.classifyBlock b with
  | .extendsFork parent _ =>
      ((ForkRegistry.get engine.forks parent).elim [] ForkEntry.blocks) ++ [b]
  | _ => [b]

/-- A delivered block that makes its branch canonical brings back every transaction that is
confirmed below the fork point and in a block that is detached. -/
def KeepsConfirmed (engine : StryiConsensusEngine DB) (delivery : Delivery) : Prop :=
  ∀ (lca : BlockHash) (p q : List Block), Overtakes engine delivery.nowSecs delivery.block lca →
    canonicalBlocks engine.db = p ++ q → p.getLast?.map Block.blockHash = some lca →
    Reconfirms p q (branchWith engine delivery.block)

/-- Looking up a transaction succeeds, and finds a place on the canonical chain exactly if there is
one. -/
structure LookupExact (db : DB) : Prop where
  found : ∀ txid ∈ txidsOf (canonicalBlocks db), ∃ tx location b,
    getTransaction db txid = .ok (some ⟨tx, location⟩) ∧ b ∈ canonicalBlocks db ∧
    b.blockHash = location.blockHash ∧
    getBlockHashByHeight db location.blockHeight = .ok (some location.blockHash) ∧
    b.data.transactions[location.txIndex.toNat]? = some tx ∧ tx.data.hash = txid
  missing : ∀ txid ∉ txidsOf (canonicalBlocks db), getTransaction db txid = .ok none

/-- The locators are those of the chain. -/
structure Locates (t : Tables) (w : List Block) : Prop where
  transaction : t.transaction = confirmed w
  fits : ∀ b ∈ w, b.Fits

variable [LawfulStorage DB] {engine engine' : StryiConsensusEngine DB} {g b : Block}
  {w w' p q bs : List Block} {nowSecs : UInt64} {verdict : ConsensusVerdict} {delivery : Delivery}
  {deliveries : List Delivery}

omit [FullNodeStorage DB] [LawfulStorage DB] in
theorem GenesisShape.locates (genesis : GenesisShape g) (chainMetadata : ChainMetadata) :
    Locates (Tables.genesis g chainMetadata) [g] := by
  refine ⟨?_, ?_⟩
  · rw [confirmed, List.flatMap_singleton]
    rfl
  · intro b mem
    obtain ⟨tx, single, -⟩ := genesis.transaction
    rw [List.mem_singleton.mp mem, Block.Fits, single, List.length_singleton]
    decide

omit [FullNodeStorage DB] [LawfulStorage DB] in
/-- A locator of the chain leads to the transaction. -/
theorem Locates.located {t : Tables} (locates : Locates t w) {txid : TransactionHash}
    {location : TransactionIndexData} (found : confirmed w txid = some location) :
    ∃ b ∈ w, ∃ tx, b.blockHash = location.blockHash ∧ b.header.height = location.blockHeight ∧
      b.data.transactions[location.txIndex.toNat]? = some tx ∧ tx.data.hash = txid := by
  obtain ⟨b, inside, located⟩ := confirmed_eq_some found
  obtain ⟨i, tx, at_i, hash, rfl⟩ := mem_locators located
  have position : (UInt32.ofNat i).toNat = i := by
    have bound := (List.getElem?_eq_some_iff.mp at_i).1
    have fits := locates.fits b inside
    rw [Block.Fits] at fits
    rw [UInt32.toNat_ofNat', Nat.mod_eq_of_lt (by omega)]
  exact ⟨b, inside, tx, rfl, rfl, by rw [position, at_i], hash⟩

/-- The lookup of a transaction that the chain confirms. -/
theorem Locates.getTransaction_eq {db : DB} (locates : Locates (tables db) w) (sound : Sound db)
    (holds : Holds (tables db) w) {txid : TransactionHash} {location : TransactionIndexData}
    (found : confirmed w txid = some location) {tx : Transaction} (mem : b ∈ w)
    (block : b.blockHash = location.blockHash) (height : b.header.height = location.blockHeight)
    (at_position : b.data.transactions[location.txIndex.toNat]? = some tx)
    (hash : tx.data.hash = txid) : getTransaction db txid = .ok (some ⟨tx, location⟩) := by
  apply getTransaction_some sound
  · rw [locates.transaction, found]
  · exact ⟨b, by rw [← block]; exact holds.body b mem, height, at_position, hash⟩

/-- Locators of the chain make the lookups exact. -/
theorem Canonical.lookupExact {index : ChainIndex} {db : DB} (canonical : Canonical index db w)
    (locates : Locates (tables db) w) : LookupExact db := by
  have sound := canonical.sound
  have holds := canonical.represents.holds
  refine ⟨?_, ?_⟩
  · intro txid mem
    rw [canonicalBlocks_eq canonical] at mem ⊢
    obtain ⟨location, found⟩ : ∃ location, confirmed w txid = some location := by
      rw [← Option.ne_none_iff_exists', ne_eq, confirmed_eq_none, not_not]
      exact mem
    obtain ⟨b, inside, tx, block, height, at_position, hash⟩ := locates.located found
    obtain ⟨h, at_h⟩ := List.mem_iff_getElem?.mp inside
    refine ⟨tx, location, b, ?_, inside, block, ?_, at_position, hash⟩
    · exact locates.getTransaction_eq sound holds found inside block height at_position hash
    · rw [getBlockHashByHeight_eq _ sound, ← height, holds.get_height canonical.chain at_h, block]
  · intro txid outside
    rw [canonicalBlocks_eq canonical] at outside
    apply getTransaction_none sound
    rw [locates.transaction]
    exact confirmed_eq_none.mpr outside

/-- A commit bounds the blocks that it attaches. -/
theorem Step.fits (step : Step engine nowSecs b verdict engine') (inv : Invariant g engine w) :
    engine'.db = engine.db ∨ ∀ x ∈ branchWith engine b, x.Fits := by
  have reorganized : ∀ {p q bs : List Block} {lca : BlockHash} {verdict : ConsensusVerdict}
      {engine' : StryiConsensusEngine DB},
      Branch engine.blockValidator.consensusConsts w p q bs lca → bs ≠ [] →
      Reorganized engine lca bs verdict engine' → ∀ x ∈ bs, x.Fits := by
    intro p q bs lca verdict engine' branch ne reorganized x mem
    obtain ⟨lcaWork, works, delta, result, db, -, -, prepared, committed, -, -⟩ := reorganized.done
    have replacement := inv.replacement branch ne prepared
    have all := reorganize_fits committed
    rw [replacement.replaces.blocks] at all
    rw [← Coins.map_fst_records (Coins.unwind p q (tables engine.db).utxo) bs] at mem
    obtain ⟨record, inside, rfl⟩ := List.mem_map.mp mem
    exact all record inside
  cases step with
  | rejected error => exact .inl rfl
  | included => exact .inl rfl
  | known => exact .inl rfl
  | orphan orphan => exact .inl rfl
  | forked shape height creates work view valid top light => exact .inl rfl
  | extended shape height extends' found view replayed valid top light => exact .inl rfl
  | applied shape height extends' valid top committed =>
    right
    intro x mem
    simp only [branchWith, extends', List.mem_singleton] at mem
    rw [mem]
    exact append_fits committed
  | replaced shape height creates work view valid top heavy reorganizes =>
    right
    obtain ⟨p, q, branch⟩ := inv.newBranch shape height creates view valid
    simp only [branchWith, creates]
    exact reorganized branch (by simp) reorganizes
  | overtaken shape height extends' found view replayed valid top heavy reorganizes =>
    right
    obtain ⟨p, q, -, branch⟩ := inv.longerBranch shape height extends' found view replayed valid
    simp only [branchWith, extends', found, Option.elim_some]
    exact reorganized branch (by simp) reorganizes

/-- The branch that replaces the top of the chain is the one that the block completes. -/
theorem Overtakes.branchWith_eq {lca : BlockHash} (inv : Invariant g engine w)
    (overtakes : Overtakes engine nowSecs b lca)
    (below : bs = [] ∨ ∃ key e, engine.forks.read key = some e ∧ bs = e.blocks)
    (branch : Branch engine.blockValidator.consensusConsts w p q (bs ++ [b]) lca) :
    branchWith engine b = bs ++ [b] := by
  -- The parent of the block is the top of the blocks that the branch stood on before.
  obtain ⟨top, last, parent, -⟩ : ∃ top, (p ++ bs).getLast? = some top ∧
      b.header.previousBlockHash = top.blockHash ∧
      top.header.height.toNat + 1 = b.header.height.toNat := by
    have chain := branch.chain
    rw [← List.append_assoc] at chain
    exact chain.below (by simp [branch.ne_nil])
  have spec := classifyBlock_spec engine b
  cases overtakes with
  | new shape height creates valid work heaviest heavy =>
    rw [creates] at spec
    obtain ⟨-, same, known⟩ := spec
    simp only [branchWith, creates]
    rcases List.eq_nil_or_concat bs with rfl | ⟨front, x, rfl⟩
    · rfl
    · exfalso
      rw [List.concat_eq_append] at last branch
      obtain rfl : x = top := by simpa using last
      apply branch.apart x (by simp)
      rw [← parent, ← same]
      exact inv.canonical.indexOf.has_iff.mp known
  | @longer _ e _ shape height extends' found valid heaviest heavy =>
    rw [extends'] at spec
    obtain ⟨-, -, absent, -⟩ := spec
    simp only [branchWith, extends', found, Option.elim_some]
    rcases below with rfl | ⟨key, e', held, rfl⟩
    · exfalso
      rw [List.append_nil] at last
      have known : engine.chainIndex.has b.header.previousBlockHash = true := by
        apply inv.canonical.indexOf.has_iff.mpr
        rw [parent, branch.split]
        exact List.mem_map_of_mem (List.mem_append_left _ (List.mem_of_getLast? last))
      rw [known] at absent
      cases absent
    · obtain ⟨keyed, p', q', branches⟩ := inv.registry.entry held
      obtain ⟨tip, lastTip, hash⟩ := Option.map_eq_some_iff.mp branches.tip
      have same : tip = top := by simpa [List.getLast?_append, lastTip] using last
      rw [ForkRegistry.get, parent, ← same, hash, keyed, held, Option.some.injEq] at found
      rw [found]

/-- Every step that keeps what is confirmed keeps the locators. -/
theorem Locates.step (locates : Locates (tables engine.db) w) (inv : Invariant g engine w)
    (keeps : KeepsConfirmed engine delivery)
    (step : Step engine delivery.nowSecs delivery.block verdict engine') :
    ∃ w', Invariant g engine' w' ∧ Locates (tables engine'.db) w' := by
  obtain ⟨w', inv', moves⟩ := inv.step step
  rcases step.fits inv with same | fits
  · have chain : w' = w := by
      rw [← canonicalBlocks_eq inv'.canonical, ← canonicalBlocks_eq inv.canonical, same]
    rw [chain] at inv'
    exact ⟨w, inv', by rw [same]; exact locates⟩
  refine ⟨w', inv', ?_⟩
  cases moves with
  | stays same =>
    rw [same]
    exact locates
  | grows follows appended =>
    refine ⟨?_, ?_⟩
    · rw [appended, confirmed_append, List.flatMap_singleton, ← locates.transaction]
      rfl
    · intro x mem
      rcases List.mem_append.mp mem with old | new
      · exact locates.fits x old
      · apply fits x
        rw [List.mem_singleton.mp new, branchWith]
        split <;> simp
  | @switches p q bs lca overtakes below branch heavier room reorganized =>
    have whole := overtakes.branchWith_eq inv below branch
    have reconfirms := keeps lca p q overtakes
      (by rw [canonicalBlocks_eq inv.canonical, branch.split]) branch.ancestor
    rw [whole] at reconfirms fits
    have located := locates.transaction
    have old := locates.fits
    rw [branch.split] at located old
    refine ⟨?_, ?_⟩
    · rw [reorganized]
      exact (reorganized_confirmed_iff located).mpr reconfirms
    · intro x mem
      rcases List.mem_append.mp mem with kept | new
      · exact old x (List.mem_append_left _ kept)
      · exact fits x new

omit [LawfulStorage DB] in
/-- Nothing gets lost from a chain that confirms no transaction twice. -/
theorem KeepsConfirmed.of_nodup (distinct : (txidsOf (canonicalBlocks engine.db)).Nodup) :
    KeepsConfirmed engine delivery := by
  intro lca p q _ split _ txid detached kept
  rw [split, txidsOf, List.flatMap_append, List.nodup_append] at distinct
  exact absurd rfl (distinct.2.2 txid kept txid detached)

theorem Locates.run (locates : Locates (tables engine.db) w) (inv : Invariant g engine w)
    (keeps : Along KeepsConfirmed engine deliveries) :
    ∃ w', Invariant g (deliverAll engine deliveries) w' ∧
      Locates (tables (deliverAll engine deliveries).db) w' := by
  induction deliveries generalizing engine w with
  | nil => exact ⟨w, inv, locates⟩
  | cons delivery deliveries ih =>
    rw [deliverAll, List.foldl_cons]
    cases run : onBlock delivery.nowSecs delivery.faults delivery.block engine with
    | error error engine' =>
      have same : deliver engine delivery = engine := by
        rw [deliver, run]
        exact onBlock_error run
      rw [same]
      have later := keeps.2
      rw [same] at later
      exact ih locates inv later
    | ok verdict engine' =>
      have next : deliver engine delivery = engine' := by rw [deliver, run]
      obtain ⟨w', inv', locates'⟩ := locates.step inv keeps.1 (onBlock_ok run)
      rw [next]
      have later := keeps.2
      rw [next] at later
      exact ih locates' inv' later

variable {consensusConsts : ConsensusConsts} {blockValidator : BlockValidator}
  {chainMetadata : ChainMetadata}

/-- Lookups are exact in every state of every run that keeps what is confirmed. -/
theorem lookups_exact
    (launched : launch consensusConsts blockValidator g chainMetadata = .ok engine)
    (keeps : Along KeepsConfirmed engine deliveries) :
    LookupExact (deliverAll engine deliveries).db := by
  obtain ⟨inv, -, started⟩ := Invariant.launched launched
  have locates : Locates (tables engine.db) [g] := by
    rw [started]
    exact inv.genesis.locates chainMetadata
  obtain ⟨w, inv', locates'⟩ := locates.run inv keeps
  exact inv'.canonical.lookupExact locates'

end Exact

open Sample in
/-- The branch that leaves the chain between the two gifts takes the locator of the first one with
it. -/
theorem lookups_exact_repeated :
    ([genesis, given, again, rival2, rival3].map Block.blockHash).Nodup ∧
    ((([genesis, given, again, rival2, rival3].flatMap fun b => b.data.transactions).dedup).map
      fun tx => tx.data.hash).Nodup ∧
    ∃ engine, start = .ok engine ∧
      ¬ LookupExact (deliverAll engine ([given, again, rival2, rival3].map call)).db := by
  refine ⟨by decide +kernel, by decide +kernel, ?_⟩
  have lost : start.toOption.any (fun engine =>
      let db := (deliverAll engine ([given, again, rival2, rival3].map call)).db
      gift.data.hash ∈ txidsOf (canonicalBlocks db) ∧
        (getTransaction db gift.data.hash).toOption = some none) = true := by decide +kernel
  obtain ⟨engine, started, differs⟩ := exists_ok_of_any lost
  rw [decide_eq_true_eq] at differs
  refine ⟨engine, started, ?_⟩
  intro lookups
  obtain ⟨tx, location, b, found, -⟩ := lookups.found _ differs.1
  have missing := differs.2
  rw [found] at missing
  cases missing

open Sample in
/-- A run through a reorganization that detaches a block which shares nothing with the chain
below. -/
theorem lookups_exact_sample : ∃ engine, start = .ok engine ∧
    Along KeepsConfirmed engine ([rival, other, next].map call) ∧
    LookupExact (deliverAll engine ([rival, other, next].map call)).db := by
  obtain ⟨engine, started, reads⟩ := run_chains
  have apart : (txidsOf [genesis, rival]).Nodup := by decide +kernel
  have along : Along KeepsConfirmed engine ([rival, other, next].map call) :=
    ⟨.of_nodup (by rw [reads.1]; decide +kernel), .of_nodup (by rw [reads.2.1]; exact apart),
      .of_nodup (by rw [reads.2.2]; exact apart), trivial⟩
  exact ⟨engine, started, along, lookups_exact started along⟩

end StryiChain
