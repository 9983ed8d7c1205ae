import StryiChain.Chain.Basic

/-!
# The canonical chain of a storage

How the transitions of `storage/transition.rs` move the canonical chain that the tables hold.
`Holds` is about the tables that name a chain; `Represents` adds the chain state and metadata,
which a transition writes last.
-/

namespace StryiChain

variable [Primitives]

/-- The chain state that belongs to a chain. -/
def stateOf (w : List Block) : Option ChainState :=
  w.getLast?.map fun tip =>
    ⟨(tip.header.height, tip.blockHash), tip.header.timestamp, UInt64.ofNat w.length, chainWork w⟩

/-- Heights, bodies, work index and undo records are those of the chain. -/
structure Holds (t : Tables) (w : List Block) : Prop where
  height : ∀ h : UInt64, t.height h = (w[h.toNat]?).map Block.blockHash
  body : ∀ b ∈ w, t.block b.blockHash = some b
  index : ∀ {i : Nat} {b : Block}, w[i]? = some b →
    t.index b.blockHash = some (BlockIndexData.of b (chainWork (w.take (i + 1))))
  undo : ∀ {i : Nat} {b : Block}, w[i]? = some b → 0 < i →
    t.undo b.blockHash = some (Coins.undo b (Coins.ledger (w.take i)))

/-- The tables represent the chain. -/
structure Represents (t : Tables) (w : List Block) : Prop where
  holds : Holds t w
  state : t.state = stateOf w
  metadata : t.metadata ≠ none
  fits : w.length < 2 ^ 64

/-- What attaching a block with a known undo record does to the tables. -/
def Tables.attach (t : Tables) (b : Block) (work : Nat) (undo : BlockUndo) : Tables :=
  { t.putBlock b (BlockIndexData.of b work) with
    undo := Function.update t.undo b.blockHash (some undo) }

section State

theorem stateOf_concat (w : List Block) (b : Block) :
    stateOf (w ++ [b]) = some ⟨(b.header.height, b.blockHash), b.header.timestamp,
      UInt64.ofNat (w.length + 1), chainWork w + b.work⟩ := by
  simp [stateOf]

theorem stateOf_eq_some {w : List Block} {st : ChainState} (h : stateOf w = some st) :
    ∃ tip, w.getLast? = some tip ∧ st.latestBlock = (tip.header.height, tip.blockHash) ∧
      st.blocksCount = UInt64.ofNat w.length ∧ st.chainWork = chainWork w := by
  rw [stateOf, Option.map_eq_some_iff] at h
  obtain ⟨tip, last, rfl⟩ := h
  exact ⟨tip, last, rfl, rfl, rfl⟩

theorem IsChain.tip_height {w : List Block} (chain : IsChain w) {tip : Block}
    (last : w.getLast? = some tip) : tip.header.height.toNat + 1 = w.length := by
  have pos := chain.length_pos
  rw [List.getLast?_eq_getElem?] at last
  have := chain.height last
  omega

omit [Primitives] in
theorem verifyGenesisWorkShape_of_normal {b : Block} (normal : b.header.isGenesis = false) :
    verifyGenesisWorkShape b = .ok () :=
  verifyGenesisHeaderWorkShape_of_normal normal

/-- `extended_state` succeeds exactly on a normal block that follows the tip and leaves room. -/
theorem extendedState_eq_ok {st st' : ChainState} {b : Block} :
    extendedState st b = .ok st' ↔
      b.Normal ∧ b.header.previousBlockHash = st.latestBlock.2 ∧
      b.header.height.toNat = st.latestBlock.1.toNat + 1 ∧ st.chainWork + b.work < 2 ^ 512 ∧
      b.header.height.toNat + 1 < 2 ^ 64 ∧
      st' = ⟨(b.header.height, b.blockHash), b.header.timestamp,
        UInt64.ofNat (b.header.height.toNat + 1), st.chainWork + b.work⟩ := by
  unfold extendedState
  simp only [bind_eq_ok, mapError_eq_ok, failIf_eq_ok, addWork_eq_ok, okOr_eq_ok, pure_eq_ok,
    checkedAdd_eq_some, not_or, not_not, Bool.not_eq_true, Block.Normal, UInt64.toNat_one]
  constructor
  · rintro ⟨-, -, -, ⟨marker, threshold, parent, height⟩, work, ⟨fits, rfl⟩, count, room, rfl⟩
    have bound := count.toNat_lt
    refine ⟨⟨marker, threshold⟩, parent, height, fits, by omega, ?_⟩
    have : count = UInt64.ofNat (b.header.height.toNat + 1) := by
      rw [← UInt64.toNat_inj, toNat_ofNat_u64 (by omega), room]
    rw [this]
  · rintro ⟨⟨marker, threshold⟩, parent, height, fits, room, rfl⟩
    refine ⟨(), verifyGenesisWorkShape_of_normal marker, (), ⟨marker, threshold, parent, height⟩,
      _, ⟨fits, rfl⟩, UInt64.ofNat (b.header.height.toNat + 1), ?_, rfl⟩
    exact toNat_ofNat_u64 (by omega)

/-- On the state of a chain, `extended_state` gives the state of the longer chain. -/
theorem extendedState_of_chain {w : List Block} {st st' : ChainState} {b : Block}
    (chain : IsChain w) (hst : stateOf w = some st) :
    extendedState st b = .ok st' ↔
      (∃ tip, w.getLast? = some tip ∧ b.header.previousBlockHash = tip.blockHash) ∧ b.Normal ∧
      b.header.height.toNat = w.length ∧ w.length + 1 < 2 ^ 64 ∧
      stateOf (w ++ [b]) = some st' := by
  obtain ⟨tip, last, latest, -, work⟩ := stateOf_eq_some hst
  have top := chain.tip_height last
  rw [extendedState_eq_ok, latest, work, stateOf_concat, Option.some.injEq]
  constructor
  · rintro ⟨normal, parent, height, -, room, rfl⟩
    dsimp only at parent height
    refine ⟨⟨tip, last, parent⟩, normal, by omega, by omega, ?_⟩
    rw [show b.header.height.toNat = w.length by omega]
  · rintro ⟨⟨tip', last', parent⟩, normal, height, room, rfl⟩
    rw [last, Option.some.injEq] at last'
    subst last'
    refine ⟨normal, parent, by dsimp only; omega, chainWork_add_lt (by omega) b, by omega, ?_⟩
    rw [height]

end State

section Tables

variable {t : Tables} {w : List Block} {b : Block}

theorem Holds.get_height (holds : Holds t w) (chain : IsChain w) {i : Nat}
    (at_i : w[i]? = some b) : t.height b.header.height = some b.blockHash := by
  rw [holds.height, chain.height at_i, at_i]
  rfl

/-- Attaching the next block of a chain. The undo record must be the one the block has there. -/
theorem Holds.attach (holds : Holds t w) (chain : IsChain (w ++ [b])) {work : Nat}
    {undo : BlockUndo} (hwork : work = chainWork (w ++ [b]))
    (hundo : undo = Coins.undo b (Coins.ledger w)) :
    Holds (t.attach b work undo) (w ++ [b]) := by
  subst hwork hundo
  have top : (w ++ [b])[w.length]? = some b := by simp
  have height : b.header.height.toNat = w.length := chain.height top
  have other : ∀ {a : Block}, a ∈ w → a.blockHash ≠ b.blockHash := by
    intro a mem same
    have distinct := chain.distinct
    rw [List.map_append, List.nodup_append] at distinct
    exact distinct.2.2 _ (List.mem_map_of_mem mem) _ (by simp) same
  refine ⟨fun h => ?_, fun a mem => ?_, fun {i a} at_i => ?_, fun {i a} at_i pos => ?_⟩
  · simp only [Tables.attach, Tables.putBlock]
    by_cases same : h = b.header.height
    · subst same
      rw [Function.update_self, height, top]
      rfl
    · have differs : h.toNat ≠ w.length := fun eq =>
        same (UInt64.toNat_inj.mp (eq.trans height.symm))
      rw [Function.update_of_ne same, holds.height, getElem?_concat_of_ne differs]
  · simp only [Tables.attach, Tables.putBlock]
    rcases List.mem_append.mp mem with old | new
    · rw [Function.update_of_ne (other old), holds.body a old]
    · rw [List.mem_singleton] at new
      rw [new, Function.update_self]
  · simp only [Tables.attach, Tables.putBlock]
    rcases getElem?_concat_cases at_i with ⟨inside, old⟩ | ⟨rfl, rfl⟩
    · rw [Function.update_of_ne (other (List.mem_of_getElem? old)), holds.index old,
        List.take_append_of_le_length (by omega)]
    · rw [Function.update_self, List.take_of_length_le (by simp)]
  · simp only [Tables.attach]
    rcases getElem?_concat_cases at_i with ⟨inside, old⟩ | ⟨rfl, rfl⟩
    · rw [Function.update_of_ne (other (List.mem_of_getElem? old)), holds.undo old pos,
        List.take_append_of_le_length (by omega)]
    · rw [Function.update_self, List.take_left]

/-- Detaching the top block of a chain. Bodies, work index and undo stay. -/
theorem Holds.detach (holds : Holds t (w ++ [b])) (chain : IsChain (w ++ [b])) :
    Holds (t.removeBlock b) w := by
  have top : (w ++ [b])[w.length]? = some b := by simp
  have height : b.header.height.toNat = w.length := chain.height top
  have lift : ∀ {i : Nat} {a : Block}, w[i]? = some a →
      i < w.length ∧ (w ++ [b])[i]? = some a := by
    intro i a h
    have inside := (List.getElem?_eq_some_iff.mp h).1
    exact ⟨inside, by rw [List.getElem?_append_left inside, h]⟩
  refine ⟨fun h => ?_, fun a mem => holds.body a (List.mem_append_left _ mem),
    fun {i a} at_i => ?_, fun {i a} at_i pos => ?_⟩
  · simp only [Tables.removeBlock]
    by_cases same : h = b.header.height
    · subst same
      rw [Function.update_self, height, List.getElem?_eq_none (Nat.le_refl _)]
      rfl
    · have differs : h.toNat ≠ w.length := fun eq =>
        same (UInt64.toNat_inj.mp (eq.trans height.symm))
      rw [Function.update_of_ne same, holds.height, getElem?_concat_of_ne differs]
  · obtain ⟨inside, whole⟩ := lift at_i
    have := holds.index whole
    rwa [List.take_append_of_le_length (by omega)] at this
  · obtain ⟨inside, whole⟩ := lift at_i
    have := holds.undo whole pos
    rwa [List.take_append_of_le_length (by omega)] at this

/-- Only the tables that name a chain matter. -/
theorem Holds.congr {t' : Tables} (holds : Holds t w) (height : t'.height = t.height)
    (block : t'.block = t.block) (index : t'.index = t.index) (undo : t'.undo = t.undo) :
    Holds t' w := by
  refine ⟨fun h => ?_, fun b mem => ?_, fun at_i => ?_, fun at_i pos => ?_⟩
  · rw [height, holds.height]
  · rw [block, holds.body b mem]
  · rw [index, holds.index at_i]
  · rw [undo, holds.undo at_i pos]

end Tables

section Append

open LawfulStorage

variable {S : Type} [FullNodeStorage S] [LawfulStorage S] {s s' : S} {w : List Block} {b : Block}

/-- A UTXO write changes the UTXO table alone. -/
theorem tables_of_updates {m : Coins} (updates : LawfulUtxoWrite.Updates s s' m) :
    Sound s' ∧ tables s' = { tables s with utxo := m } :=
  ⟨updates.1, Tables.eq_of_rest updates.2.2 updates.2.1⟩

/-- `apply_block` on a storage, read off its tables. -/
theorem applyBlock_tables (sound : Sound s) {undo : BlockUndo}
    (run : applyBlock b s = .ok (undo, s')) :
    Coins.Applicable b (tables s).utxo ∧ undo = Coins.undo b (tables s).utxo ∧ Sound s' ∧
      tables s' = { tables s with utxo := Coins.apply b (tables s).utxo } := by
  obtain ⟨applicable, rfl, updates⟩ := applyBlock_eq_ok sound run
  exact ⟨applicable, rfl, tables_of_updates updates⟩

theorem applyBlock_tables_ok (sound : Sound s) (applicable : Coins.Applicable b (tables s).utxo) :
    ∃ s', applyBlock b s = .ok (Coins.undo b (tables s).utxo, s') ∧ Sound s' ∧
      tables s' = { tables s with utxo := Coins.apply b (tables s).utxo } := by
  have applicable' : Coins.Applicable b (LawfulUtxoWrite.coins s) := applicable
  obtain ⟨s', run, updates⟩ := applyBlock_ok sound applicable'
  exact ⟨s', run, tables_of_updates updates⟩

/-- The tip that the tables name passes its check. -/
theorem verifyCurrentState_ok (sound : Sound s) (chain : IsChain w)
    (represents : Represents (tables s) w) {st : ChainState} (hst : stateOf w = some st) :
    verifyCurrentState s st = .ok () := by
  obtain ⟨tip, last, latest, count, work⟩ := stateOf_eq_some hst
  have top := chain.tip_height last
  have at_top : w[w.length - 1]? = some tip := by rwa [← List.getLast?_eq_getElem?]
  have body := represents.holds.body tip (List.mem_of_getElem? at_top)
  have height := represents.holds.get_height chain at_top
  have index := represents.holds.index at_top
  have whole : w.take (w.length - 1 + 1) = w := List.take_of_length_le (by omega)
  rw [whole] at index
  have room : checkedAdd tip.header.height 1 = some (UInt64.ofNat w.length) := by
    have fits := represents.fits
    rw [checkedAdd_eq_some, toNat_ofNat_u64 (by omega),
      UInt64.toNat_one, top]
  simp [verifyCurrentState, metadata_eq sound, represents.metadata, latest, count, work,
    getBlockHeaderByHash_eq _ sound, body, getBlockHashByHeight_eq _ sound, height,
    getBlockIndex_eq _ sound, index, room, BlockIndexData.of]

/-- The tables after a block has been appended. -/
def Tables.appended (t : Tables) (w : List Block) (b : Block) : Tables :=
  { t.attach b (chainWork (w ++ [b])) (Coins.undo b t.utxo) with
    utxo := Coins.apply b t.utxo
    state := stateOf (w ++ [b]) }

/-- A block that the canonical chain can take next. -/
structure Follows (w : List Block) (b : Block) : Prop extends Links w b where
  room : w.length + 1 < 2 ^ 64

theorem extendedState_follows {st st' : ChainState} (chain : IsChain w)
    (hst : stateOf w = some st) :
    extendedState st b = .ok st' ↔ Follows w b ∧ stateOf (w ++ [b]) = some st' := by
  rw [extendedState_of_chain chain hst]
  constructor
  · rintro ⟨linked, normal, height, room, next⟩
    exact ⟨⟨⟨linked, normal, height⟩, room⟩, next⟩
  · rintro ⟨⟨⟨linked, normal, height⟩, room⟩, next⟩
    exact ⟨linked, normal, height, room, next⟩

theorem exists_stateOf (chain : IsChain w) : ∃ st, stateOf w = some st := by
  rw [← Option.isSome_iff_exists, stateOf, Option.isSome_map, List.getLast?_isSome]
  exact chain.ne_nil

/-- The three writes of `attach_block`, when they succeed. -/
theorem attachBlock_eq_ok (sound : Sound s) (chain : IsChain w) {st st' : ChainState}
    (hst : stateOf w = some st) (run : attachBlock s st b = .ok (s', st')) :
    Follows w b ∧ stateOf (w ++ [b]) = some st' ∧ Coins.Applicable b (tables s).utxo ∧
      Sound s' ∧ tables s' =
        { (tables s).attach b (chainWork (w ++ [b])) (Coins.undo b (tables s).utxo) with
          utxo := Coins.apply b (tables s).utxo } := by
  simp only [attachBlock, bind_eq_ok, pure_eq_ok, Prod.exists, Prod.mk.injEq] at run
  obtain ⟨next, extended, undo, applied, apply, stored, put, last, saved, rfl, rfl⟩ := run
  obtain ⟨follows, hnext⟩ := (extendedState_follows chain hst).mp extended
  obtain ⟨applicable, rfl, soundApplied, tablesApplied⟩ := applyBlock_tables sound apply
  have shape := verifyGenesisWorkShape_of_normal follows.normal.1
  obtain ⟨soundStored, tablesStored⟩ := putBlock_eq_ok soundApplied shape put
  obtain ⟨view, saved', soundLast, tablesLast⟩ :=
    putBlockUndo_ok b.blockHash (Coins.undo b (tables s).utxo) soundStored
  rw [saved', Except.ok.injEq] at saved
  subst saved
  obtain ⟨-, -, -, -, work⟩ := stateOf_eq_some hnext
  refine ⟨follows, hnext, applicable, soundLast, ?_⟩
  rw [tablesLast, tablesStored, tablesApplied, work]
  rfl

/-- A committed append, read off the tables. -/
theorem append_eq_ok (sound : Sound s) (chain : IsChain w) (represents : Represents (tables s) w)
    {result : ChainTransitionResult} (run : applyTransition s (.append b) = .ok (result, s')) :
    Follows w b ∧ Coins.Applicable b (tables s).utxo ∧ Sound s' ∧
      tables s' = (tables s).appended w b ∧
      result = ⟨(b.header.height, b.blockHash), chainWork (w ++ [b]), []⟩ := by
  obtain ⟨st, hst⟩ := exists_stateOf chain
  simp only [applyTransition, chainState_eq sound, represents.state, hst, stageAppend, bind_ok,
    okOr_some, verifyCurrentState_ok sound chain represents hst, bind_eq_ok, pure_eq_ok,
    Prod.exists, Prod.mk.injEq] at run
  obtain ⟨staged, view, ⟨attached, next, attach, last, put, rfl, rfl⟩, rfl, rfl⟩ := run
  obtain ⟨follows, hnext, applicable, soundAttached, tablesAttached⟩ :=
    attachBlock_eq_ok sound chain hst attach
  obtain ⟨view, put', soundLast, tablesLast⟩ := putChainState_ok next soundAttached
  rw [put', Except.ok.injEq] at put
  subst put
  refine ⟨follows, applicable, soundLast, ?_, ?_⟩
  · rw [tablesLast, tablesAttached, Tables.appended, hnext]
  · rw [stateOf_concat, Option.some.injEq] at hnext
    subst hnext
    simp

/-- A block that follows the tip, can be applied and clashes with nothing stored is appended. -/
theorem append_ok (sound : Sound s) (chain : IsChain w) (represents : Represents (tables s) w)
    (follows : Follows w b) (applicable : Coins.Applicable b (tables s).utxo)
    (accepts : (tables s).Accepts b (BlockIndexData.of b (chainWork (w ++ [b])))) :
    ∃ result s', applyTransition s (.append b) = .ok (result, s') := by
  obtain ⟨st, hst⟩ := exists_stateOf chain
  obtain ⟨next, hnext⟩ : ∃ next, stateOf (w ++ [b]) = some next := ⟨_, stateOf_concat w b⟩
  have extended := (extendedState_follows chain hst).mpr ⟨follows, hnext⟩
  obtain ⟨-, -, -, -, work⟩ := stateOf_eq_some hnext
  obtain ⟨applied, apply, soundApplied, tablesApplied⟩ := applyBlock_tables_ok sound applicable
  have accepts' : (tables applied).Accepts b (BlockIndexData.of b next.chainWork) := by
    rw [tablesApplied, work]
    exact ⟨accepts.body, accepts.index, accepts.height, accepts.fits⟩
  obtain ⟨stored, put⟩ := putBlock_ok soundApplied accepts'
  have shape := verifyGenesisWorkShape_of_normal follows.normal.1
  obtain ⟨soundStored, -⟩ := putBlock_eq_ok soundApplied shape put
  obtain ⟨saved, save, soundSaved, -⟩ :=
    putBlockUndo_ok b.blockHash (Coins.undo b (tables s).utxo) soundStored
  obtain ⟨last, finish, -, -⟩ := putChainState_ok next soundSaved
  refine ⟨⟨next.latestBlock, next.chainWork, []⟩, last, ?_⟩
  simp [applyTransition, chainState_eq sound, represents.state, hst, stageAppend,
    verifyCurrentState_ok sound chain represents hst, attachBlock, extended, apply, put, save,
    finish]

/-- The longer chain is represented after an append. The undo record is that of the replayed
chain, because the stored map lies below it and the block could be applied there. -/
theorem Represents.appended {t : Tables} (represents : Represents t w) (chain : IsChain (w ++ [b]))
    (below : Submap t.utxo (Coins.ledger w)) (applicable : Coins.Applicable b t.utxo)
    (room : w.length + 1 < 2 ^ 64) : Represents (t.appended w b) (w ++ [b]) := by
  have undo := Coins.undo_mono below applicable
  refine ⟨(represents.holds.attach chain rfl undo).congr rfl rfl rfl rfl, rfl,
    represents.metadata, by simpa using room⟩

end Append

section Genesis

open LawfulStorage

variable {S : Type} [FullNodeStorage S] [LawfulStorage S] {s : S} {g : Block}

/-- The tables after genesis has been committed. -/
def Tables.genesis (g : Block) (chainMetadata : ChainMetadata) : Tables :=
  { Tables.empty.putBlock g (BlockIndexData.of g 0) with
    utxo := Coins.ledger [g]
    state := stateOf [g]
    metadata := some chainMetadata }

/-- The only body after genesis. -/
theorem Tables.genesis_block {g b : Block} {chainMetadata : ChainMetadata} {hash : BlockHash}
    (found : (Tables.genesis g chainMetadata).block hash = some b) : b = g := by
  simp only [Tables.genesis, Tables.putBlock, Tables.empty] at found
  by_cases here : hash = g.blockHash
  · rw [here, Function.update_self, Option.some.injEq] at found
    exact found.symm
  · rw [Function.update_of_ne here] at found
    cases found

/-- What `validate_genesis` checks. -/
structure GenesisShape (g : Block) : Prop where
  marker : g.header.isGenesis = true
  shape : verifyGenesisWorkShape g = .ok ()
  height : g.header.height = 0
  transaction : ∃ tx, g.data.transactions = [tx] ∧ tx.data.kind = .genesis

theorem validateGenesis_shape (valid : validateGenesis g = .ok ()) : GenesisShape g := by
  simp only [validateGenesis, bind_eq_ok, mapError_eq_ok, okOr_eq_ok] at valid
  obtain ⟨⟨⟩, shape, genesis, marked, -, -, rest⟩ := valid
  have marker : g.header.isGenesis = true := by simp [BlockHeader.isGenesis, marked]
  have height : g.header.height = 0 := by
    have fields := shape
    simp only [verifyGenesisWorkShape, verifyGenesisHeaderWorkShape, failIf_eq_ok, marker, true_and,
      not_or, not_not] at fields
    exact fields.1
  refine ⟨marker, shape, height, ?_⟩
  split at rest
  · rename_i tx _ single
    simp only [bind_eq_ok, failIf_eq_ok, not_or, not_not] at rest
    obtain ⟨-, ⟨kind, -⟩, -⟩ := rest
    exact ⟨tx, single, kind⟩
  · cases rest

theorem GenesisShape.isChain (genesis : GenesisShape g) : IsChain [g] := by
  refine ⟨⟨g, rfl, genesis.marker, genesis.shape⟩, fun {i b} at_i pos => ?_, fun {i b} at_i => ?_,
    fun {i a b} _ above => ?_, by simp⟩
  · rw [List.getElem?_eq_none (by simp; omega)] at at_i
    cases at_i
  · obtain ⟨bound, here⟩ := List.getElem?_eq_some_iff.mp at_i
    obtain rfl : i = 0 := by
      simp only [List.length_cons, List.length_nil] at bound
      omega
    rw [← here]
    simp [genesis.height]
  · rw [List.getElem?_eq_none (by simp)] at above
    cases above

/-- Genesis consumes nothing. -/
theorem GenesisShape.applicable (genesis : GenesisShape g) (m : Coins) : Coins.Applicable g m := by
  obtain ⟨tx, single, kind⟩ := genesis.transaction
  have external : g.external = [] := by
    simp [Block.external, BlockScan.ofBlock, single, BlockScan.transaction,
      Transaction.paymentInputs, kind]
  simp [Coins.Applicable, external]

omit [Primitives] in
theorem GenesisShape.work {g : Block} (marker : g.header.isGenesis = true) : g.work = 0 := by
  simp [Block.work, marker]

theorem GenesisShape.represents (genesis : GenesisShape g) (chainMetadata : ChainMetadata) :
    Represents (Tables.genesis g chainMetadata) [g] := by
  refine ⟨⟨fun h => ?_, fun b mem => ?_, fun {i b} at_i => ?_, fun {i b} at_i pos => ?_⟩, rfl,
    by simp [Tables.genesis], by simp⟩
  · simp only [Tables.genesis, Tables.putBlock, Tables.empty, genesis.height]
    by_cases zero : h = 0
    · subst zero
      simp
    · have pos : h.toNat ≠ 0 := fun eq => zero (UInt64.toNat_inj.mp (by simpa using eq))
      rw [Function.update_of_ne zero, List.getElem?_eq_none (by simp; omega)]
      rfl
  · rw [List.mem_singleton] at mem
    subst mem
    simp [Tables.genesis, Tables.putBlock]
  · obtain ⟨bound, here⟩ := List.getElem?_eq_some_iff.mp at_i
    obtain rfl : i = 0 := by
      simp only [List.length_cons, List.length_nil] at bound
      omega
    rw [← here]
    simp [Tables.genesis, Tables.putBlock, chainWork, GenesisShape.work genesis.marker]
  · rw [List.getElem?_eq_none (by simp; omega)] at at_i
    cases at_i

/-- A committed genesis, read off the tables. -/
theorem genesis_eq_ok {chainMetadata : ChainMetadata} {result : ChainTransitionResult}
    (run : commitTransition (StorageWrite.initial : S) (.genesis g chainMetadata) =
      .ok (result, s)) :
    GenesisShape g ∧ Sound s ∧ tables s = Tables.genesis g chainMetadata := by
  have start := initial_sound (S := S)
  have empty := initial_tables (S := S)
  simp only [commitTransition, applyTransition, chainState_eq start, empty, Tables.empty, bind_ok,
    stageGenesis, bind_eq_ok, pure_eq_ok, Prod.exists, Prod.mk.injEq] at run
  obtain ⟨-, -, staged, view, ⟨⟨⟩, valid, -, -, -, -, -, -, -, -, stored, put, undo, applied, apply,
    saved, save, final, finish, rfl, rfl⟩, rfl, rfl⟩ := run
  have genesis := validateGenesis_shape valid
  obtain ⟨soundStored, tablesStored⟩ := putBlock_eq_ok start genesis.shape put
  obtain ⟨-, -, soundApplied, tablesApplied⟩ := applyBlock_tables soundStored apply
  obtain ⟨_, save', soundSaved, tablesSaved⟩ := putMetadata_ok chainMetadata soundApplied
  rw [save', Except.ok.injEq] at save
  subst save
  obtain ⟨_, finish', soundLast, tablesLast⟩ := putChainState_ok
    (⟨(0, g.blockHash), g.header.timestamp, 1, 0⟩ : ChainState) soundSaved
  rw [finish', Except.ok.injEq] at finish
  subst finish
  refine ⟨genesis, soundLast, ?_⟩
  have state : stateOf [g] = some ⟨(0, g.blockHash), g.header.timestamp, 1, 0⟩ := by
    simp [stateOf, genesis.height, chainWork, GenesisShape.work genesis.marker]
  have index : BlockIndexData.of g 0 = ⟨g.header.previousBlockHash, 0, 0⟩ := by
    simp [BlockIndexData.of, genesis.height]
  rw [tablesLast, tablesSaved, tablesApplied, tablesStored, empty, Tables.genesis, state, index]
  rfl

end Genesis

end StryiChain
