import StryiChain.Chain.Run
import StryiChain.Core.Mining
import StryiChain.Mempool.Selection

/-!
# The block template of the miner (`miner/{mod,backend}.rs`)

The miner reads the tip, the threshold above it and the median time past from one view, puts its
coinbase before the selected transactions and searches for a nonce. What it mines is what the
validator recomputes on that view.
-/

namespace StryiChain

/-- What the template reads of `StryiMinerConfig`. -/
structure StryiMinerConfig where
  blockVersion : UInt16
  rewardAddress : AccountAddress

/-- `MiningContext`. -/
structure MiningContext where
  parentHeight : UInt64
  parentHash : BlockHash
  hashThreshold : HashThreshold
  medianTimePast : UInt64

/-- `mining_timestamp` (`miner/mod.rs:311-323`). -/
def miningTimestamp (nowSecs median : UInt64) : Except String UInt64 := do
  let minimum ← okOr (checkedAdd median 1) "median time past leaves no valid timestamp"
  let timestamp := max nowSecs minimum
  failIf (saturatingAdd nowSecs maxFutureBlockTimeSecs < timestamp)
    "chain time is too far ahead of the local clock"
  return timestamp

/-- A timestamp that the validator accepts above a median at a clock reading. -/
def InWindow (nowSecs median timestamp : UInt64) : Prop :=
  median < timestamp ∧ timestamp ≤ saturatingAdd nowSecs maxFutureBlockTimeSecs

theorem inWindow_iff {nowSecs median timestamp : UInt64} :
    InWindow nowSecs median timestamp ↔
      median.toNat < timestamp.toNat ∧ timestamp.toNat ≤ nowSecs.toNat + 120 := by
  have bound := timestamp.toNat_lt
  have extra : maxFutureBlockTimeSecs.toNat = 120 := rfl
  rw [InWindow, UInt64.lt_iff_toNat_lt, UInt64.le_iff_toNat_le, saturatingAdd_toNat, extra]
  omega

theorem miningTimestamp_eq_ok {nowSecs median timestamp : UInt64} :
    miningTimestamp nowSecs median = .ok timestamp ↔
      timestamp.toNat = max nowSecs.toNat (median.toNat + 1) ∧
        timestamp.toNat ≤ nowSecs.toNat + 120 := by
  have bound := timestamp.toNat_lt
  have extra : maxFutureBlockTimeSecs.toNat = 120 := rfl
  simp only [miningTimestamp, bind_eq_ok, okOr_eq_ok, failIf_eq_ok, pure_eq_ok, checkedAdd_eq_some,
    UInt64.toNat_one, UInt64.lt_iff_toNat_lt, saturatingAdd_toNat, extra]
  constructor
  · intro computed
    obtain ⟨minimum, next, ⟨⟩, reachable, same⟩ := computed
    subst same
    rw [max_toNat] at reachable ⊢
    omega
  · intro limits
    have value := limits.1
    have fits : median.toNat + 1 < 2 ^ 64 := by omega
    have next : (UInt64.ofNat (median.toNat + 1)).toNat = median.toNat + 1 :=
      toNat_ofNat_u64 fits
    have same : max nowSecs (UInt64.ofNat (median.toNat + 1)) = timestamp := by
      rw [← UInt64.toNat_inj, max_toNat, next, value]
    exact ⟨_, next, (), by rw [same]; omega, same⟩

/-- The miner finds a timestamp whenever there is one. -/
theorem miningTimestamp_isOk_iff (nowSecs median : UInt64) :
    (∃ timestamp, miningTimestamp nowSecs median = .ok timestamp) ↔
      ∃ timestamp, InWindow nowSecs median timestamp := by
  simp only [miningTimestamp_eq_ok, inWindow_iff]
  constructor
  · rintro ⟨timestamp, value, reachable⟩
    exact ⟨timestamp, by omega, reachable⟩
  · rintro ⟨timestamp, later, reachable⟩
    have bound := timestamp.toNat_lt
    have bound' := nowSecs.toNat_lt
    refine ⟨UInt64.ofNat (max nowSecs.toNat (median.toNat + 1)), ?_⟩
    rw [toNat_ofNat_u64 (by omega)]
    exact ⟨rfl, by omega⟩

theorem miningTimestamp_inWindow {nowSecs median timestamp : UInt64}
    (chosen : miningTimestamp nowSecs median = .ok timestamp) :
    InWindow nowSecs median timestamp := by
  obtain ⟨value, reachable⟩ := miningTimestamp_eq_ok.mp chosen
  exact inWindow_iff.mpr ⟨by omega, reachable⟩

/-- The window of a later clock reading is at least as wide. -/
theorem InWindow.later {nowSecs later median timestamp : UInt64}
    (inside : InWindow nowSecs median timestamp) (le : nowSecs ≤ later) :
    InWindow later median timestamp := by
  rw [inWindow_iff] at inside ⊢
  rw [UInt64.le_iff_toNat_le] at le
  omega

section Template

variable [Primitives] {S : Type} [StorageRead S]

/-- `NodeMinerBackend::mining_context` (`miner/backend.rs:40-64`), on the view of
`storage.read()`. -/
def miningContext (pow : PowParams) (view : S) : Except StryiCoreError MiningContext := do
  let (parentHeight, parentHash) ← (tip view).mapError (.storageError .other)
  let difficulty ← DifficultyCalc.new pow
  let hashThreshold ← difficulty.nextHashThreshold view parentHash
  let median ← medianTimePast view parentHash
  return ⟨parentHeight, parentHash, hashThreshold, median⟩

/-- `build_candidate_block` (`miner/mod.rs:163-226`), at a reading of the local clock. The merkle
root is written last. -/
def buildCandidateBlock (cfg : StryiMinerConfig) (consensusConsts : ConsensusConsts) (view : S)
    (nowSecs : UInt64) (bestTxs : List Transaction) : Except String Block := do
  let context ← (miningContext consensusConsts.pow view).mapError fun error =>
    s!"cannot read mining context: {error.message}"
  let nextHeight ← okOr (checkedAdd context.parentHeight 1) "chain height overflow"
  let timestamp ← miningTimestamp nowSecs context.medianTimePast
  let header : BlockHeader :=
    { version := cfg.blockVersion
      merkleRootHash := .empty
      previousBlockHash := context.parentHash
      height := nextHeight
      hashThreshold := context.hashThreshold
      timestamp
      nonce := 0
      genesisState := none }
  let coinbaseTx := MemPool.candidateCoinbase consensusConsts header cfg.rewardAddress
  let allTxs := coinbaseTx :: bestTxs
  return ⟨{ header with merkleRootHash := calcMerkleRoot allTxs }, ⟨allTxs⟩⟩

variable {cfg : StryiMinerConfig} {consts : ConsensusConsts} {view : S} {nowSecs : UInt64}
  {txs : List Transaction} {block candidate : Block} {difficulty : DifficultyCalc}

/-- What the validator recomputes of a header, apart from the proof of work. The nonce plays no
part in it. -/
structure Templated (difficulty : DifficultyCalc) (view : S) (nowSecs : UInt64) (block : Block) :
    Prop where
  threshold : difficulty.nextHashThreshold view block.header.previousBlockHash =
    .ok block.header.hashThreshold
  window : ∃ median, medianTimePast view block.header.previousBlockHash = .ok median ∧
    InWindow nowSecs median block.header.timestamp
  root : block.header.merkleRootHash = computeMerkleRoot block.data.transactions

theorem Templated.withNonce (template : Templated difficulty view nowSecs block) (nonce : UInt32) :
    Templated difficulty view nowSecs (block.withNonce nonce) :=
  ⟨template.threshold, template.window, template.root⟩

theorem Templated.later {later : UInt64} (template : Templated difficulty view nowSecs block)
    (le : nowSecs ≤ later) : Templated difficulty view later block := by
  obtain ⟨median, past, inside⟩ := template.window
  exact ⟨template.threshold, ⟨median, past, inside.later le⟩, template.root⟩

/-- The header of a normal block is valid exactly when it is such a template and its hash meets
the threshold. -/
theorem validateHeader_iff (normal : block.header.isGenesis = false) :
    validateHeader nowSecs block difficulty view = .ok () ↔
      Templated difficulty view nowSecs block ∧
        block.blockHash.meetsThreshold block.header.hashThreshold = true := by
  simp only [validateHeader, verifyHeaderShape, verifyGenesisWorkShape,
    verifyGenesisHeaderWorkShape_of_normal normal, verifyTimestamp, verifyHashThreshold,
    verifyProofOfWork, verifyMerkleRoot, normal, Bool.false_eq_true, if_false, bind_ok, bind_eq_ok,
    failIf_eq_ok, true_and, not_not, UInt64.not_le, UInt64.not_lt, Bool.not_eq_false]
  constructor
  · rintro ⟨⟨⟩, -, ⟨⟩, ⟨median, past, ⟨⟩, above, below⟩, ⟨⟩, ⟨threshold, computed, same⟩, ⟨⟩,
      work, root⟩
    exact ⟨⟨same ▸ computed, ⟨median, past, above, below⟩, root⟩, work⟩
  · intro valid
    obtain ⟨⟨threshold, ⟨median, past, above, below⟩, root⟩, work⟩ := valid
    exact ⟨(), DifficultyCalc.nextHashThreshold_ne_zero threshold, (),
      ⟨median, past, (), above, below⟩, (), ⟨_, threshold, rfl⟩, (), work, root⟩

/-- What a successful `build_candidate_block` has computed. -/
theorem buildCandidateBlock_ok (rules : DifficultyCalc.new consts.pow = .ok difficulty)
    (built : buildCandidateBlock cfg consts view nowSecs txs = .ok candidate) :
    candidate.header.isGenesis = false ∧ Templated difficulty view nowSecs candidate ∧
      candidate = MemPool.candidateBlock consts candidate.header cfg.rewardAddress txs := by
  simp only [buildCandidateBlock, bind_eq_ok, mapError_eq_ok, okOr_eq_ok, pure_eq_ok] at built
  obtain ⟨context, read, nextHeight, -, timestamp, chosen, same⟩ := built
  simp only [miningContext, bind_eq_ok, mapError_eq_ok, pure_eq_ok, rules, Except.ok.injEq,
    exists_eq_left'] at read
  obtain ⟨head, -, threshold, computed, median, past, context_eq⟩ := read
  subst context_eq same
  refine ⟨rfl, ⟨computed, ⟨median, past, miningTimestamp_inWindow chosen⟩, ?_⟩, rfl⟩
  rw [calcMerkleRoot_eq]

/-- The verdict of the validator on a mined block: the stages that do not depend on the UTXO set
pass, and the reward is within the rule whatever the fees are. -/
structure Mined (consts : ConsensusConsts) (difficulty : DifficultyCalc) (view : S)
    (nowSecs : UInt64) (block : Block) : Prop where
  header : ∀ later, nowSecs ≤ later → validateHeader later block difficulty view = .ok ()
  composition : ensureTransactionComposition block = .ok ()
  context : ensureCoinbaseContext block = .ok ()
  coinbase : ∃ coinbase output, block.data.transactions.head? = some coinbase ∧
    coinbase.data.outputs = [output] ∧ ∀ fees : UInt64,
      output.value.toNat ≤ (consts.blockSubsidy block.header.height).toNat + fees.toNat
  reward : ∀ inBlock managed fees, calculateTotalFees inBlock managed block = .ok fees →
    (rewardRule inBlock managed block consts = .ok () ↔
      (consts.blockSubsidy block.header.height).toNat + fees.toNat < 2 ^ 64)

omit [Primitives] in
/-- A coinbase that claims the subsidy alone is paid whenever the largest reward can be computed. -/
theorem rewardRule_subsidy {inBlock managed : Table OutPoint UTXO} {fees : UInt64}
    {coinbase : Transaction} {recipient : AccountAddress}
    (total : calculateTotalFees inBlock managed block = .ok fees)
    (first : block.data.transactions.head? = some coinbase)
    (claims : coinbase.data.outputs = [⟨consts.blockSubsidy block.header.height, recipient⟩]) :
    rewardRule inBlock managed block consts = .ok () ↔
      (consts.blockSubsidy block.header.height).toNat + fees.toNat < 2 ^ 64 := by
  have output : (block.data.transactions.head?.bind fun tx => tx.data.outputs.head?) =
      some ⟨consts.blockSubsidy block.header.height, recipient⟩ := by
    rw [first, Option.bind_some, claims, List.head?_cons]
  simp only [rewardRule, total, bind_ok, output, okOr_some]
  cases sum : checkedAdd (consts.blockSubsidy block.header.height) fees with
  | none =>
    rw [checkedAdd_eq_none] at sum
    simp only [okOr_none, bind_error, reduceCtorEq, false_iff]
    omega
  | some maxReward =>
    rw [checkedAdd_eq_some] at sum
    have fits := maxReward.toNat_lt
    rw [okOr_some, bind_ok, failIf_eq_ok, UInt64.lt_iff_toNat_lt]
    omega

/-- A block that the search returns for a template passes. -/
theorem mined_of_template {batches : List (List UInt32)}
    (payments : ∀ tx ∈ txs, tx.data.kind = .payment)
    (rules : DifficultyCalc.new consts.pow = .ok difficulty)
    (built : buildCandidateBlock cfg consts view nowSecs txs = .ok candidate)
    (found : mineBlockMemcpy batches candidate = some block) :
    Mined consts difficulty view nowSecs block := by
  obtain ⟨normal, template, filled⟩ := buildCandidateBlock_ok rules built
  obtain ⟨nonce, passes, rfl⟩ := mineBlockMemcpy_iff.mp ⟨batches, found⟩
  have txs_eq : (candidate.withNonce nonce).data.transactions =
      MemPool.candidateCoinbase consts candidate.header cfg.rewardAddress :: txs :=
    congrArg (fun block : Block => block.data.transactions) filled
  have first : (candidate.withNonce nonce).data.transactions.head? =
      some (MemPool.candidateCoinbase consts candidate.header cfg.rewardAddress) := by
    rw [txs_eq, List.head?_cons]
  rw [attempt_eq normal] at passes
  refine ⟨?_, ?_, ?_, ?_, ?_⟩
  · intro later le
    have normal' : (candidate.withNonce nonce).header.isGenesis = false := normal
    exact (validateHeader_iff normal').mpr ⟨(template.withNonce nonce).later le, passes⟩
  · exact ensureTransactionComposition_ok txs_eq rfl payments
  · exact ensureCoinbaseContext_ok txs_eq rfl
  · exact ⟨_, _, first, rfl, fun fees => Nat.le_add_right _ _⟩
  · intro inBlock managed fees total
    exact rewardRule_subsidy total first rfl

/-- For every view, clock reading and list of payments: the miner finds a timestamp exactly when
there is one, and every block it can mine on its template is valid on that view at any later
clock reading, with a reward within the rule for every fee total. -/
theorem miner_agrees (cfg : StryiMinerConfig) (consts : ConsensusConsts) (view : S)
    (nowSecs : UInt64) :
    (∀ median, (∃ timestamp, miningTimestamp nowSecs median = .ok timestamp) ↔
      ∃ timestamp, median < timestamp ∧
        timestamp ≤ saturatingAdd nowSecs maxFutureBlockTimeSecs) ∧
    ∀ txs : List Transaction, (∀ tx ∈ txs, tx.data.kind = .payment) →
      ∀ candidate, buildCandidateBlock cfg consts view nowSecs txs = .ok candidate →
      ∀ batches block, mineBlockMemcpy batches candidate = some block →
      ∀ difficulty, DifficultyCalc.new consts.pow = .ok difficulty →
        Mined consts difficulty view nowSecs block := by
  refine ⟨miningTimestamp_isOk_iff nowSecs, ?_⟩
  intro txs payments candidate built batches block found difficulty rules
  exact mined_of_template payments rules built found

end Template

namespace Sample

def minerConfig : StryiMinerConfig := ⟨1, ⟨9⟩⟩

/-- A selection of one payment. -/
def selection : List Transaction := [payment 4 [] [⟨0, ⟨5⟩⟩]]

/-- A block mined five seconds after genesis on a template of the selection. -/
def minedFirst (view : RocksView) : Except String (Option Block) := do
  let candidate ← buildCandidateBlock minerConfig consts view 5 selection
  return mineBlockMemcpy [[], [7]] candidate

end Sample

open Sample in
/-- The first block above genesis. -/
theorem miner_agrees_sample : ∃ engine block, start = .ok engine ∧
    minedFirst engine.db = .ok (some block) ∧
    Mined consts validator.difficultyCalc engine.db 5 block := by
  have run : start.toOption.any (fun engine => (minedFirst engine.db).toOption.any
      (fun found => found.any fun _ => true)) = true := by decide +kernel
  obtain ⟨engine, started, mines⟩ := exists_ok_of_any run
  obtain ⟨found, mined, some_block⟩ := exists_ok_of_any mines
  cases found with
  | none => cases some_block
  | some block =>
    refine ⟨engine, block, started, mined, ?_⟩
    rw [minedFirst, bind_eq_ok] at mined
    obtain ⟨candidate, built, hit⟩ := mined
    rw [pure_eq_ok] at hit
    have payments : ∀ tx ∈ selection, tx.data.kind = .payment := by simp [selection, payment]
    exact (miner_agrees minerConfig consts engine.db 5).2 selection payments candidate built _ block
      hit validator.difficultyCalc rfl

end StryiChain
