import StryiChain.Chain.Fork
import StryiChain.Chain.Ledger

/-!
# Validation on a view of a chain

A storage and an overlay answer the lookups of `validate` from quite different data. What
validation sees of them is the headers of a chain, its heights and a UTXO map; two views of the
same chain and map are indistinguishable. On such a view validation never stops with a storage
error or a panic.
-/

namespace StryiChain

variable [Primitives]

/-- The view answers lookups as a storage with the canonical chain `w` and the UTXO map `m`.
Headers of other blocks may be found by their hash, but none of them carries the genesis
marker. -/
structure Views {S : Type} [BlockStorage S] [UtxoStorage S] (view : S) (w : List Block)
    (m : Coins) : Prop where
  chain : IsChain w
  header : ∀ b ∈ w, getBlockHeaderByHash view b.blockHash = .ok (some b.header)
  marked : ∀ hash header, getBlockHeaderByHash view hash = .ok (some header) →
    header.isGenesis = true → hash = .empty
  height : ∀ h : UInt64, getBlockHashByHeight view h = .ok ((w[h.toNat]?).map Block.blockHash)
  reads : Reads view m

section Headers

variable {S S' : Type} [BlockStorage S] [UtxoStorage S] [BlockStorage S'] [UtxoStorage S']
  {view : S} {view' : S'} {w : List Block} {m m' : Coins} {a b : Block}

theorem Views.readRequiredHeader_eq (views : Views view w m) (mem : b ∈ w) :
    readRequiredHeader view b.blockHash = .ok b.header := by
  rw [readRequiredHeader, views.header b mem]
  rfl

/-- A height of the chain leads to its block. -/
theorem Views.readRequiredHeaderByHeight_eq (views : Views view w m) {h : UInt64}
    (at_h : w[h.toNat]? = some b) :
    readRequiredHeaderByHeight view h = .ok (b.blockHash, b.header) := by
  have same : b.header.height = h := UInt64.toNat_inj.mp (views.chain.height at_h)
  rw [readRequiredHeaderByHeight, views.height, at_h, mapError_ok, bind_ok, Option.map_some,
    okOr_some, bind_ok, views.readRequiredHeader_eq (List.mem_of_getElem? at_h), bind_ok,
    failIf_of_not _ (not_not.mpr same)]
  rfl

omit [UtxoStorage S] in
/-- The parent of a block above genesis is the block below it. -/
theorem IsChain.exists_parent {w : List Block} (chain : IsChain w) {i : Nat} {b : Block}
    (at_i : w[i]? = some b) (normal : b.header.isGenesis = false) :
    ∃ a, w[i - 1]? = some a ∧ b.header.previousBlockHash = a.blockHash := by
  have pos : 0 < i := by
    apply Nat.pos_of_ne_zero
    intro zero
    obtain ⟨g, first, marker, -⟩ := chain.genesis
    rw [zero, first, Option.some.injEq] at at_i
    rw [at_i, normal] at marker
    cases marker
  have inside := (List.getElem?_eq_some_iff.mp at_i).1
  have below : w[i - 1]? = some w[i - 1] := List.getElem?_eq_getElem (by omega)
  refine ⟨_, below, chain.linked below ?_⟩
  rw [show i - 1 + 1 = i by omega, at_i]

/-- The timestamps below a block of the chain are read from its ancestors alone. -/
theorem Views.collectTimestamps_congr (views : Views view w m) (views' : Views view' w m')
    (room : Nat) : ∀ b ∈ w,
      collectTimestamps view room b.header = collectTimestamps view' room b.header := by
  induction room with
  | zero =>
    intro b _
    rfl
  | succ room ih =>
    intro b mem
    rw [collectTimestamps, collectTimestamps]
    by_cases stop : b.header.isGenesis = true ∨ room = 0
    · rw [if_pos stop, if_pos stop]
    · rw [not_or, Bool.not_eq_true] at stop
      obtain ⟨i, at_i⟩ := List.mem_iff_getElem?.mp mem
      obtain ⟨a, below, linked⟩ := views.chain.exists_parent at_i stop.1
      have inside := List.mem_of_getElem? below
      rw [linked, views.readRequiredHeader_eq inside, views'.readRequiredHeader_eq inside]
      simp only [bind_ok, ih a inside]

theorem Views.medianTimePast_congr (views : Views view w m) (views' : Views view' w m')
    (mem : b ∈ w) : medianTimePast view b.blockHash = medianTimePast view' b.blockHash := by
  rw [medianTimePast, medianTimePast, views.readRequiredHeader_eq mem,
    views'.readRequiredHeader_eq mem, bind_ok, bind_ok,
    views.collectTimestamps_congr views' 11 b mem]

omit [Primitives] in
theorem readRequiredHeaderByHeight_none {S : Type} [BlockStorage S] {view : S} {h : UInt64}
    (absent : getBlockHashByHeight view h = .ok none) :
    readRequiredHeaderByHeight view h = .error (.consensusValidationFailed
      s!"block at height {h} is missing from the branch view") := by
  rw [readRequiredHeaderByHeight, absent]
  rfl

/-- Two views of one chain map the heights in the same way. -/
theorem Views.byHeight_congr (views : Views view w m) (views' : Views view' w m') (h : UInt64) :
    readRequiredHeaderByHeight view h = readRequiredHeaderByHeight view' h := by
  cases at_h : w[h.toNat]? with
  | some b =>
    rw [views.readRequiredHeaderByHeight_eq at_h, views'.readRequiredHeaderByHeight_eq at_h]
  | none =>
    rw [readRequiredHeaderByHeight_none (by rw [views.height, at_h]; rfl),
      readRequiredHeaderByHeight_none (by rw [views'.height, at_h]; rfl)]

theorem Views.nextHashThreshold_congr (views : Views view w m) (views' : Views view' w m')
    (difficulty : DifficultyCalc) (mem : b ∈ w) :
    difficulty.nextHashThreshold view b.blockHash =
      difficulty.nextHashThreshold view' b.blockHash := by
  simp only [DifficultyCalc.nextHashThreshold, DifficultyCalc.scheduledThreshold,
    views.readRequiredHeader_eq mem, views'.readRequiredHeader_eq mem, views.height, views'.height,
    views.byHeight_congr views']

/-- A threshold is only found above a block of the chain. -/
theorem Views.parent_mem (views : Views view w m) {difficulty : DifficultyCalc}
    {parent : BlockHash} {expected : HashThreshold}
    (found : difficulty.nextHashThreshold view parent = .ok expected) :
    ∃ b ∈ w, b.blockHash = parent := by
  simp only [DifficultyCalc.nextHashThreshold, readRequiredHeader, bind_eq_ok, mapError_eq_ok,
    okOr_eq_ok] at found
  obtain ⟨header, ⟨saved, read, rfl⟩, -, -, rest⟩ := found
  by_cases marker : header.isGenesis = true
  · obtain ⟨g, first, marked, -⟩ := views.chain.genesis
    refine ⟨g, List.mem_of_getElem? first, ?_⟩
    rw [views.marked parent header read marker, Block.blockHash, if_pos marked]
  · rw [if_neg marker] at rest
    simp only [bind_eq_ok, mapError_eq_ok, views.height, Except.ok.injEq] at rest
    obtain ⟨-, -, mapped, rfl, rest⟩ := rest
    by_cases differs : (w[header.height.toNat]?).map Block.blockHash ≠ some parent
    · rw [if_pos differs, bind_eq_ok] at rest
      obtain ⟨_, _, failed⟩ := rest
      cases failed
    · rw [not_not, Option.map_eq_some_iff] at differs
      obtain ⟨b, at_b, same⟩ := differs
      exact ⟨b, List.mem_of_getElem? at_b, same⟩

/-- A header above a block of the chain is judged in the same way on both views. -/
theorem Views.validateHeader_congr (views : Views view w m) (views' : Views view' w m')
    {nowSecs : UInt64} {difficulty : DifficultyCalc} (mem : a ∈ w)
    (parent : b.header.previousBlockHash = a.blockHash) :
    validateHeader nowSecs b difficulty view = validateHeader nowSecs b difficulty view' := by
  simp only [validateHeader, verifyTimestamp, verifyHashThreshold, parent,
    views.medianTimePast_congr views' mem, views.nextHashThreshold_congr views' difficulty mem]

/-- A header that passes stands above a block of the chain, or carries the genesis marker. -/
theorem Views.parent_of_header (views : Views view w m) {nowSecs : UInt64}
    {difficulty : DifficultyCalc} (normal : b.header.isGenesis = false)
    (valid : validateHeader nowSecs b difficulty view = .ok ()) :
    ∃ a ∈ w, b.header.previousBlockHash = a.blockHash := by
  simp only [validateHeader, verifyHashThreshold, normal, Bool.false_eq_true, if_false,
    bind_eq_ok] at valid
  obtain ⟨-, -, -, -, -, ⟨expected, found, -⟩, -⟩ := valid
  obtain ⟨a, mem, same⟩ := views.parent_mem found
  exact ⟨a, mem, same.symm⟩

end Headers

section Transactions

variable {S S' : Type} [UtxoStorage S] [UtxoStorage S'] {view : S} {view' : S'} {m : Coins}

omit [Primitives] in
theorem batchGetUtxos_congr (reads : Reads view m) (reads' : Reads view' m)
    (outpoints : List OutPoint) :
    batchGetUtxos view outpoints = batchGetUtxos view' outpoints := by
  have one : fetchUtxo view = fetchUtxo view' := by
    funext result outpoint
    rw [fetchUtxo, fetchUtxo, reads, reads']
  rw [batchGetUtxos, batchGetUtxos, one]

/-- Transactions are judged by the UTXO map alone. -/
theorem validateTransactions_congr (reads : Reads view m) (reads' : Reads view' m) (b : Block)
    (rules : ConsensusConsts) :
    validateTransactions b rules view = validateTransactions b rules view' := by
  simp only [validateTransactions, validateTransactionsUnder, buildDependencyContext, fetchManaged,
    batchGetUtxos_congr reads reads']

end Transactions

section Validate

variable {S S' : Type} [BlockStorage S] [UtxoStorage S] [BlockStorage S'] [UtxoStorage S']
  {view : S} {view' : S'} {w : List Block} {m : Coins} {a b : Block} {validator : BlockValidator}
  {nowSecs : UInt64}

/-- A block above a block of the chain meets the same verdict on both views. -/
theorem Views.validate_congr (views : Views view w m) (views' : Views view' w m) (mem : a ∈ w)
    (parent : b.header.previousBlockHash = a.blockHash) :
    validator.validate nowSecs b view = validator.validate nowSecs b view' := by
  rw [BlockValidator.validate, BlockValidator.validate,
    views.validateHeader_congr views' mem parent,
    validateTransactions_congr views.reads views'.reads]

/-- Two views of one chain and one map accept the same blocks. -/
theorem Views.validate_iff (views : Views view w m) (views' : Views view' w m) :
    validator.validate nowSecs b view = .ok () ↔ validator.validate nowSecs b view' = .ok () := by
  by_cases normal : b.header.isGenesis = false
  · constructor
    · intro valid
      have header := valid
      rw [BlockValidator.validate, bind_eq_ok] at header
      obtain ⟨⟨⟩, header, -⟩ := header
      obtain ⟨a, mem, parent⟩ := views.parent_of_header normal header
      rw [← views.validate_congr views' mem parent]
      exact valid
    · intro valid
      have header := valid
      rw [BlockValidator.validate, bind_eq_ok] at header
      obtain ⟨⟨⟩, header, -⟩ := header
      obtain ⟨a, mem, parent⟩ := views'.parent_of_header normal header
      rw [views.validate_congr views' mem parent]
      exact valid
  · -- A block with the marker reads neither headers nor heights.
    rw [Bool.not_eq_false] at normal
    simp only [BlockValidator.validate, validateHeader, verifyHashThreshold, normal, if_true,
      validateTransactions_congr views.reads views'.reads]

end Validate

section Escapes

/-- The computation ends with a result or with an error that a handler turns into a rejection. -/
abbrev Contained {α : Type} (x : Except StryiCoreError α) : Prop :=
  ErrorsIn (fun error => error.escapes = false) x

omit [Primitives] in
theorem judge_ok {outcome : Except StryiCoreError Unit} (contained : Contained outcome) :
    ∃ verdict, judge outcome = .ok verdict := by
  cases outcome with
  | ok _ => exact ⟨none, rfl⟩
  | error error =>
    refine ⟨some error, ?_⟩
    rw [judge]
    simp only [contained error rfl, Bool.false_eq_true, if_false]

variable {S : Type} [BlockStorage S] [UtxoStorage S] {view : S} {w : List Block} {m : Coins}
  {a b : Block} {validator : BlockValidator} {nowSecs : UInt64} {difficulty : DifficultyCalc}

omit [Primitives] in
theorem contained_workShape (header : BlockHeader) :
    Contained (verifyGenesisHeaderWorkShape header) := .failIf rfl

theorem Views.contained_collectTimestamps (views : Views view w m) (room : Nat) : ∀ b ∈ w,
    Contained (collectTimestamps view room b.header) := by
  induction room with
  | zero =>
    intro b _
    exact .ok []
  | succ room ih =>
    intro b mem
    rw [collectTimestamps]
    apply ErrorsIn.bind (contained_workShape _)
    intro _ _
    refine .failIf_bind rfl ?_
    intro _
    split
    · exact .ok _
    · rename_i going
      rw [not_or, Bool.not_eq_true] at going
      obtain ⟨i, at_i⟩ := List.mem_iff_getElem?.mp mem
      obtain ⟨a, below, linked⟩ := views.chain.exists_parent at_i going.1
      have inside := List.mem_of_getElem? below
      rw [linked, views.readRequiredHeader_eq inside, bind_ok]
      refine .failIf_bind rfl ?_
      intro _
      apply ErrorsIn.bind (ih a inside)
      intro _ _
      exact .ok _

theorem Views.contained_byHeight (views : Views view w m) (h : UInt64) :
    Contained (readRequiredHeaderByHeight view h) := by
  cases at_h : w[h.toNat]? with
  | some b =>
    rw [views.readRequiredHeaderByHeight_eq at_h]
    exact .ok _
  | none =>
    rw [readRequiredHeaderByHeight_none (by rw [views.height, at_h]; rfl)]
    exact .error rfl

theorem Views.contained_nextHashThreshold (views : Views view w m) (mem : b ∈ w) :
    Contained (difficulty.nextHashThreshold view b.blockHash) := by
  rw [DifficultyCalc.nextHashThreshold, views.readRequiredHeader_eq mem, bind_ok]
  apply ErrorsIn.bind (contained_workShape _)
  intro _ _
  split
  · exact .ok _
  · refine .failIf_bind rfl ?_
    intro _
    rw [views.height, mapError_ok, bind_ok]
    split
    · apply ErrorsIn.bind (views.contained_byHeight _)
      intro _ _
      exact .error rfl
    · split
      · refine .bind (difficulty.errorsIn_verifyAnchor (fun _ => rfl) _) ?_
        intro _ _
        exact .ok _
      · apply ErrorsIn.bind (views.contained_byHeight 1)
        intro _ _
        refine .bind (difficulty.errorsIn_verifyAnchor (fun _ => rfl) _) ?_
        intro _ _
        refine .failIf_bind rfl ?_
        intro _
        exact .okOr rfl

theorem Views.contained_verifyTimestamp (views : Views view w m) (mem : a ∈ w)
    (parent : b.header.previousBlockHash = a.blockHash) :
    Contained (verifyTimestamp b view nowSecs) := by
  rw [verifyTimestamp, parent, medianTimePast, views.readRequiredHeader_eq mem, bind_ok]
  apply ErrorsIn.bind
  · apply ErrorsIn.bind (views.contained_collectTimestamps 11 a mem)
    intro _ _
    exact .ok _
  intro _ _
  refine .failIf_bind rfl ?_
  intro _
  exact .failIf rfl

theorem Views.contained_verifyHashThreshold (views : Views view w m) (mem : a ∈ w)
    (parent : b.header.previousBlockHash = a.blockHash) :
    Contained (verifyHashThreshold b difficulty view) := by
  rw [verifyHashThreshold, parent]
  split
  · exact .ok ()
  · apply ErrorsIn.bind (views.contained_nextHashThreshold mem)
    intro _ _
    exact .failIf rfl

theorem Views.contained_validateHeader (views : Views view w m) (mem : a ∈ w)
    (parent : b.header.previousBlockHash = a.blockHash) :
    Contained (validateHeader nowSecs b difficulty view) := by
  have rest : Contained (verifyHashThreshold b difficulty view >>= fun _ =>
      verifyProofOfWork b >>= fun _ => verifyMerkleRoot b) := by
    apply ErrorsIn.bind (views.contained_verifyHashThreshold mem parent)
    intro _ _
    refine .failIf_bind rfl ?_
    intro _
    exact .failIf rfl
  rw [validateHeader]
  apply ErrorsIn.bind
  · apply ErrorsIn.bind (contained_workShape _)
    intro _ _
    exact .failIf rfl
  intro _ _
  dsimp only
  split
  · exact rest
  · apply ErrorsIn.bind (views.contained_verifyTimestamp mem parent)
    intro _ _
    exact rest

omit [BlockStorage S] [UtxoStorage S] [Primitives] in
theorem contained_structure (b : Block) : Contained (validateBlockStructure b) := by
  rw [validateBlockStructure]
  refine .failIf_bind rfl ?_
  intro _
  apply ErrorsIn.bind
  · rw [ensureTransactionComposition]
    split
    · exact .ok ()
    · split
      · exact .error rfl
      · refine .failIf_bind rfl ?_
        intro _
        refine .failIf_bind rfl ?_
        intro _
        apply ErrorsIn.forM
        intro entry _
        dsimp only
        split
        · exact .ok ()
        · exact .error rfl
        · exact .error rfl
  intro _ _
  apply ErrorsIn.bind
  · rw [ensureUniqueInputs]
    apply ErrorsIn.bind
    · apply ErrorsIn.foldlM
      intro seen outpoint _
      refine .failIf_bind rfl ?_
      intro _
      exact .ok _
    intro _ _
    exact .ok _
  intro _ _
  rw [ensureCoinbaseContext]
  split
  · exact .ok ()
  · split
    · exact .failIf rfl
    · exact .ok ()

section Threads

variable {inBlock managed : Table OutPoint UTXO}

omit [BlockStorage S] [UtxoStorage S] [Primitives] in
theorem contained_resolveUtxo (outpoint : OutPoint) :
    Contained (resolveUtxo outpoint inBlock managed) := .okOr rfl

omit [BlockStorage S] [UtxoStorage S] [Primitives] in
theorem contained_input (author : AccountAddress) (state : List OutPoint × UInt64)
    (outpoint : OutPoint) : Contained (TxThread.input inBlock managed author state outpoint) := by
  rw [TxThread.input]
  refine .failIf_bind rfl ?_
  intro _
  apply ErrorsIn.bind (contained_resolveUtxo outpoint)
  intro utxo _
  refine .failIf_bind rfl ?_
  intro _
  refine .okOr_bind rfl ?_
  intro _ _
  exact .ok _

omit [BlockStorage S] [UtxoStorage S] in
theorem contained_validateGroup (schedule : List Nat) (txs : List Transaction)
    (spent : List OutPoint) : Contained (validateGroup inBlock managed schedule txs spent) := by
  rw [validateGroup]
  apply ErrorsIn.bind
  · apply ErrorsIn.mapM
    intro tx _
    rw [TxThread.start]
    split
    · refine .failIf_bind rfl ?_
      intro _
      exact .ok _
    · refine .failIf_bind rfl ?_
      intro _
      exact .ok _
    · refine .okOr_bind rfl ?_
      intro _ _
      exact .ok _
  intro threads _
  apply ErrorsIn.bind
  · apply ErrorsIn.foldlM
    intro state position _
    rw [stepThread]
    split
    · exact .ok _
    · split
      · exact .ok _
      · apply ErrorsIn.bind (contained_input _ _ _)
        intro _ _
        exact .ok _
  intro state _
  apply ErrorsIn.foldlM
  intro spent thread _
  rw [completeThread]
  apply ErrorsIn.bind
  · apply ErrorsIn.foldlM
    intro state outpoint _
    exact contained_input _ _ _
  intro state' _
  apply ErrorsIn.bind
  · rw [TxThread.finish]
    split
    · exact .ok ()
    · refine .okOr_bind rfl ?_
      intro _ _
      exact .failIf rfl
  intro _ _
  exact .ok _

omit [BlockStorage S] [UtxoStorage S] [Primitives] in
theorem contained_totalFees (b : Block) : Contained (calculateTotalFees inBlock managed b) := by
  rw [calculateTotalFees]
  apply ErrorsIn.foldlM
  intro total tx _
  split
  · exact .ok _
  · apply ErrorsIn.bind
    · rw [paymentFee]
      apply ErrorsIn.bind
      · apply ErrorsIn.foldlM
        intro inputs outpoint _
        apply ErrorsIn.bind (contained_resolveUtxo outpoint)
        intro _ _
        exact .okOr rfl
      intro _ _
      refine .okOr_bind rfl ?_
      intro _ _
      exact .okOr rfl
    intro _ _
    exact .okOr rfl

end Threads

omit [BlockStorage S] [Primitives] in
/-- Fetching the inputs of a block fails only on one that is absent. -/
theorem contained_fetchManaged (reads : Reads view m) (outpoints : List OutPoint) :
    Contained (fetchManaged outpoints view) := by
  rw [fetchManaged]
  split
  · exact .ok _
  · by_cases present : ∀ o ∈ outpoints, m o ≠ none
    · obtain ⟨found, fetched, -⟩ := batchGetUtxos_ok reads present
      rw [fetched]
      exact .ok found
    · push Not at present
      obtain ⟨o, mem, absent⟩ := present
      obtain ⟨missing, -, -, failed⟩ := batchGetUtxos_error reads mem absent
      rw [failed]
      exact .error rfl

omit [BlockStorage S] [UtxoStorage S] in
/-- A block of the right composition whose transactions have started has a coinbase output. -/
theorem Structured.coinbase_output (structured : Structured b)
    (started : ∀ tx ∈ b.data.transactions, Startable tx) :
    ∃ output, (b.data.transactions.head?.bind fun tx => tx.data.outputs.head?) = some output := by
  obtain ⟨coinbase, payments, txs, kind, -⟩ := structured.composition
  have start := started coinbase (by rw [txs]; simp)
  simp only [Startable, kind] at start
  obtain ⟨output, one⟩ := List.length_eq_one_iff.mp start.2
  exact ⟨output, by rw [txs, List.head?_cons, Option.bind_some, one]; rfl⟩

omit [BlockStorage S] in
theorem contained_transactions (reads : Reads view m) (normal : b.header.isGenesis = false)
    (structured : Structured b) (rules : ConsensusConsts) :
    Contained (validateTransactions b rules view) := by
  rw [validateTransactions, validateTransactionsUnder]
  apply ErrorsIn.bind
  · rw [buildDependencyContext]
    apply ErrorsIn.bind
    · rw [DependencyGraph.build]
      apply ErrorsIn.bind
      · apply ErrorsIn.foldlM
        intro index entry _
        refine .failIf_bind rfl ?_
        intro _
        exact .ok _
      intro _ _
      exact .ok _
    intro graph _
    apply ErrorsIn.bind
    · apply ErrorsIn.foldlM
      intro graph input _
      refine .failIf_bind rfl ?_
      intro _
      refine .failIf_bind rfl ?_
      intro _
      exact .ok _
    intro checked _
    apply ErrorsIn.bind (contained_fetchManaged reads _)
    intro _ _
    exact .ok _
  intro context built
  apply ErrorsIn.bind
  · apply ErrorsIn.foldlM
    intro spent group _
    exact contained_validateGroup _ _ _
  intro spent groups
  rw [if_neg (by simp [normal]), rewardRule]
  apply ErrorsIn.bind (contained_totalFees b)
  intro fees _
  refine .okOr_bind rfl ?_
  intro reward _
  -- The coinbase has passed its own check, so that it has the output that is indexed here.
  have started : ∀ tx ∈ b.data.transactions, Startable tx := by
    simp only [buildDependencyContext, bind_eq_ok, pure_eq_ok] at built
    obtain ⟨graph, build, checked, check, managed, -, rfl⟩ := built
    have linked := graph_eq_ok build check
    have all := ((validateGroups_eq_ok _).mp ⟨spent, groups⟩).perm
      (select_perm linked.ordered linked.count)
    intro tx mem
    exact (all.each tx mem).1
  obtain ⟨output, found⟩ := structured.coinbase_output started
  rw [found, okOr_some, bind_ok]
  exact .failIf rfl

/-- Validation above a block of the chain ends with a result or a rejection. -/
theorem Views.contained_validate (views : Views view w m) (normal : b.header.isGenesis = false)
    (mem : a ∈ w) (parent : b.header.previousBlockHash = a.blockHash) :
    Contained (validator.validate nowSecs b view) := by
  rw [BlockValidator.validate]
  apply ErrorsIn.bind (views.contained_validateHeader mem parent)
  intro _ _
  apply ErrorsIn.bind (contained_structure b)
  intro _ valid
  exact contained_transactions views.reads normal (validateBlockStructure_eq_ok normal valid) _

end Escapes

section Instances

open LawfulStorage

variable {S : Type} [FullNodeStorage S] [LawfulStorage S] {s : S} {w p q bs : List Block}
  {overlay : ForkDbOverlay S}

/-- Only the key of a genesis block is the empty hash. -/
theorem marked_of_body (sound : Sound s) {hash : BlockHash} {b : Block}
    (found : (tables s).block hash = some b) (marker : b.header.isGenesis = true) :
    hash = .empty := by
  rw [← (wellFormed sound).body found, Block.blockHash, if_pos marker]

/-- A storage is a view of its canonical chain. -/
theorem views_storage (sound : Sound s) (chain : IsChain w) (holds : Holds (tables s) w) :
    Views s w (tables s).utxo := by
  refine ⟨chain, ?_, ?_, ?_, fun o => getUtxo_eq o sound⟩
  · intro b mem
    rw [getBlockHeaderByHash_eq _ sound, holds.body b mem]
    rfl
  · intro hash header found marker
    rw [getBlockHeaderByHash_eq _ sound, Except.ok.injEq, Option.map_eq_some_iff] at found
    obtain ⟨b, saved, rfl⟩ := found
    exact marked_of_body sound saved marker
  · intro h
    rw [getBlockHashByHeight_eq _ sound, holds.height]

/-- A replayed block is found in the overlay. -/
theorem ForkDbOverlay.Replayed.read_block (replayed : overlay.Replayed s p q bs) {b : Block}
    (mem : b ∈ bs) : ∃ undo, overlay.blocks.read b.blockHash = some (b, undo) := by
  rw [← Coins.map_fst_records (Coins.unwind p q (tables s).utxo) bs] at mem
  obtain ⟨⟨b', undo⟩, inside, rfl⟩ := List.mem_map.mp mem
  refine ⟨undo, Table.mem_toPairs.mp ?_⟩
  rw [replayed.blocks, List.mem_reverse]
  exact List.mem_map_of_mem inside

/-- Nothing else is found there. -/
theorem ForkDbOverlay.Replayed.read_mem (replayed : overlay.Replayed s p q bs) {hash : BlockHash}
    {record : Block × BlockUndo} (found : overlay.blocks.read hash = some record) :
    record.1 ∈ bs ∧ record.1.blockHash = hash := by
  have mem := Table.mem_toPairs.mpr found
  rw [replayed.blocks, List.mem_reverse] at mem
  obtain ⟨record', inside, same⟩ := List.mem_map.mp mem
  rw [Prod.mk.injEq] at same
  obtain ⟨rfl, rfl⟩ := same
  refine ⟨?_, rfl⟩
  rw [← Coins.map_fst_records (Coins.unwind p q (tables s).utxo) bs]
  exact List.mem_map_of_mem inside

/-- An overlay is a view of the branch that it has replayed. -/
theorem views_overlay (sound : Sound s) (chain : IsChain (p ++ q)) (holds : Holds (tables s) (p ++ q))
    (branch : IsChain (p ++ bs)) (ne : p ≠ []) (replayed : overlay.Replayed s p q bs) :
    Views overlay (p ++ bs) overlay.coins := by
  have base := replayed.base_eq
  refine ⟨branch, ?_, ?_, ?_, fun o => ForkDbOverlay.getUtxo_ok replayed.sound o⟩
  · intro b mem
    change ForkDbOverlay.getBlockHeaderByHash overlay b.blockHash = _
    rw [ForkDbOverlay.getBlockHeaderByHash]
    rcases List.mem_append.mp mem with below | above
    · have absent : overlay.blocks.read b.blockHash = none := by
        by_contra found
        obtain ⟨record, found⟩ := Option.ne_none_iff_exists'.mp found
        obtain ⟨inside, same⟩ := replayed.read_mem found
        have distinct := branch.distinct
        rw [List.map_append, List.nodup_append] at distinct
        exact distinct.2.2 _ (List.mem_map_of_mem below) _ (List.mem_map_of_mem inside) same.symm
      rw [absent, base]
      dsimp only
      rw [getBlockHeaderByHash_eq _ sound, holds.body b (List.mem_append_left q below)]
      rfl
    · obtain ⟨undo, found⟩ := replayed.read_block above
      rw [found]
  · intro hash header found marker
    change ForkDbOverlay.getBlockHeaderByHash overlay hash = _ at found
    rw [ForkDbOverlay.getBlockHeaderByHash] at found
    cases read : overlay.blocks.read hash with
    | some record =>
      -- The blocks of the branch stand above genesis and do not carry the marker.
      obtain ⟨inside, -⟩ := replayed.read_mem read
      rw [read] at found
      obtain ⟨i, at_i⟩ := List.mem_iff_getElem?.mp inside
      have pos := List.length_pos_iff.mpr ne
      have normal := branch.normal (i := p.length + i) (b := record.1)
        (by rw [List.getElem?_append_right (by omega), Nat.add_sub_cancel_left, at_i]) (by omega)
      cases found
      rw [normal.1] at marker
      cases marker
    | none =>
      rw [read, base] at found
      dsimp only at found
      rw [getBlockHeaderByHash_eq _ sound, Except.ok.injEq, Option.map_eq_some_iff] at found
      obtain ⟨b, saved, rfl⟩ := found
      exact marked_of_body sound saved marker
  · intro h
    obtain ⟨a, last⟩ : ∃ a, p.getLast? = some a := by
      rw [← Option.isSome_iff_exists, List.getLast?_isSome]
      exact ne
    have ancestor := replayed.ancestor
    rw [last, Option.map_some, Option.some.injEq] at ancestor
    have top := (chain.left ne).tip_height last
    have level : overlay.commonAncestor.1.toNat + 1 = p.length := by
      rw [← ancestor, ← top]
      rfl
    change ForkDbOverlay.getBlockHashByHeight overlay h = _
    rw [ForkDbOverlay.getBlockHashByHeight, replayed.heights]
    by_cases below : h.toNat < p.length
    · have visible : ¬ overlay.commonAncestor.1 < h := by
        rw [UInt64.lt_iff_toNat_lt]
        omega
      rw [if_pos below]
      dsimp only
      rw [if_neg visible, base, getBlockHashByHeight_eq _ sound, holds.height,
        List.getElem?_append_left below, List.getElem?_append_left below]
    · have hidden : overlay.commonAncestor.1 < h := by
        rw [UInt64.lt_iff_toNat_lt]
        omega
      rw [if_neg below]
      cases (p ++ bs)[h.toNat]? with
      | some b => rfl
      | none =>
        dsimp only [Option.map_none]
        rw [if_pos hidden]

end Instances

end StryiChain
