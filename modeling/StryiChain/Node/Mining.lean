import StryiChain.Node.Adoption
import StryiChain.Node.Bootstrap
import StryiChain.Node.Coherence
import StryiChain.Node.Miner
import StryiChain.Mempool.Template
import StryiChain.Misc.Runs

/-!
# A node that mines (`miner/mod.rs`)

A round of the miner counts the pool, chooses transactions from it and then waits for the storage,
and blocks and transactions arrive in between. The search runs on blocking threads, a change of the
tip only asks it to stop, and what it finds waits in a channel. A block may thus reach the engine
long after its template was built. What it was valid on is the chain below it, so that it is
accepted then, wherever the node has gone meanwhile.
-/

namespace StryiChain

open LawfulStorage StryiConsensusEngine

section Regrown

variable [Primitives] {DB : Type} [FullNodeStorage DB] [LawfulStorage DB] {U : Block → Prop}
  {engine : StryiConsensusEngine DB} {g b : Block} {w bs rest : List Block}
  {rules consensusConsts : ConsensusConsts} {blockValidator : BlockValidator}
  {chainMetadata : ChainMetadata}

/-- The last block of a chain stands above the others. -/
theorem IsChain.last_links (chain : IsChain (w ++ [b])) (ne : w ≠ []) : Links w b := by
  obtain ⟨top, last, linked, height⟩ := chain.below ne
  have pos := List.length_pos_iff.mpr ne
  refine ⟨⟨top, last, linked⟩, chain.normal (i := w.length) (by simp) pos, ?_⟩
  exact chain.height_eq_length

/-- Admissible blocks can be appended one after the other. -/
theorem appendAll_ok {s : DB} (sound : Sound s) (represents : Represents (tables s) w)
    (exact' : (tables s).utxo = Coins.ledger w) (archived : (tables s).Archived)
    (bodies : ∀ hash b, (tables s).block hash = some b → b ∈ w) (chain : IsChain (w ++ bs))
    (ne : w ≠ []) (admissible : Admissible rules (w ++ bs)) (room : (w ++ bs).length < 2 ^ 64)
    (fits : ∀ b ∈ bs, b.data.transactions.length ≤ 2 ^ 32) :
    ∃ s', appendAll s bs = .ok s' := by
  induction bs generalizing s w with
  | nil => exact ⟨s, rfl⟩
  | cons b bs ih =>
    have admitted := admissible w bs b rfl ne
    rw [List.append_cons] at chain admissible room
    have lower := chain.left (p := w ++ [b]) (by simp)
    have links := lower.last_links ne
    have follows : Follows w b := by
      refine ⟨links, ?_⟩
      simp only [List.length_append, List.length_singleton] at room
      omega
    -- The storage holds nothing but the chain, so that no other body is in the way.
    have body : ∀ saved, (tables s).block b.blockHash = some saved → saved = b := by
      intro saved found
      have key := (wellFormed sound).body found
      exact absurd key (lower.hash_ne (bodies _ _ found))
    have accepts := archived.accepts represents.holds links body (fits b List.mem_cons_self)
    obtain ⟨result, middle, appended⟩ := append_ok sound (lower.left ne) represents follows
      (exact' ▸ admitted.accepted.applicable) accepts
    obtain ⟨-, applicable, sound', tables', -⟩ :=
      append_eq_ok sound (lower.left ne) represents appended
    have further : ∃ s', appendAll middle bs = .ok s' := by
      apply ih sound' _ _ _ _ chain (by simp) admissible room
      · exact fun x mem => fits x (List.mem_cons_of_mem _ mem)
      · rw [tables']
        exact represents.appended lower (exact' ▸ Submap.refl _) applicable follows.room
      · rw [tables', Coins.ledger_concat, ← exact']
        rfl
      · rw [tables']
        exact archived.appended represents.holds links accepts
      · intro hash x found
        rw [tables'] at found
        rcases Tables.appended_block found with old | rfl
        · exact List.mem_append_left _ (bodies hash x old)
        · simp
    obtain ⟨s', all⟩ := further
    refine ⟨s', ?_⟩
    have committed : commitTransition s (.append b) = .ok (result, middle) := appended
    rw [appendAll_cons, committed, bind_ok, all]

/-- The chain of an engine can be grown on an empty storage. -/
theorem Invariant.regrows (inv : Invariant g engine (g :: rest))
    (launched : ∃ (consensusConsts : ConsensusConsts) (blockValidator : BlockValidator)
      (first : StryiConsensusEngine DB),
      launch consensusConsts blockValidator g chainMetadata = .ok first)
    (fits : ∀ b ∈ rest, b.data.transactions.length ≤ 2 ^ 32) :
    ∃ s : DB, growFrom g chainMetadata rest = .ok s := by
  obtain ⟨consensusConsts, blockValidator, first, launched⟩ := launched
  simp only [launch, bind_eq_ok, mapError_eq_ok, Prod.exists] at launched
  obtain ⟨result, start, committed, -⟩ := launched
  obtain ⟨shape, sound, started⟩ := genesis_eq_ok committed
  have grown : ∃ s : DB, appendAll start rest = .ok s := by
    apply appendAll_ok sound (w := [g]) _ _ _ _ inv.canonical.chain (by simp) inv.admissible
      inv.canonical.represents.fits fits
    · rw [started]
      exact shape.represents chainMetadata
    · rw [started]
      rfl
    · rw [started]
      exact shape.archived chainMetadata
    · intro hash b found
      rw [started] at found
      rw [Tables.genesis_block found]
      exact List.mem_singleton_self g
  obtain ⟨s, grown⟩ := grown
  refine ⟨s, ?_⟩
  rw [growFrom, committed]
  exact grown

end Regrown

section Mining

variable [Primitives] [Floats]

/-- The checks of `maybe_start_new_round` before it chooses transactions
(`miner/mod.rs:231-248`): no search goes on, and there is enough to mine. -/
def maybeStartNewRound (txThreshold txsCount : Nat) (current ignoreThreshold : Bool) : Bool :=
  if current then false
  else if txsCount < txThreshold ∧ ignoreThreshold = false then false
  else if ignoreThreshold = true ∧ txsCount = 0 then false
  else true

/-- Where `maybe_start_new_round` is: it is not running, it has counted the pool and waits for its
lock, or it has chosen the transactions and waits for the storage. -/
inductive Round where
  | idle
  | counted
  | chosen (bestTxs : List Transaction)
  deriving DecidableEq

/-- A block of the miner, with the reading of the clock for its template. -/
structure Attempt where
  startedAt : UInt64
  block : Block
  deriving DecidableEq

/-- A node with its miner: the round that begins, whether the miner counts a search as its current
one, the templates that are being searched, and the channel `local_blocks`. -/
structure MiningNode (DB : Type) where
  runtime : ConsensusRuntime DB
  cfg : StryiMinerConfig
  txThreshold : Nat
  consensusConsts : ConsensusConsts
  round : Round
  current : Bool
  searches : List Attempt
  localBlocks : List Attempt

/-- What can happen: the timer of the miner, the pool and the storage answering the round that has
begun, a notification of a new tip, the end of a search after some batches of nonces, the next mined
block at the engine, a block from elsewhere, and a call of the pool. -/
inductive MiningEvent where
  | tick
  | choose
  | template (nowSecs : UInt64)
  | tipChanged
  | searched (i : Nat) (batches : List (List UInt32))
  | localBlock (nowSecs : UInt64) (faults : Faults)
  | block (delivery : Delivery)
  | pool (call : MemPool.Call)

namespace MiningNode

variable {DB : Type} [FullNodeStorage DB]

/-- The node when its miner is started: no round has begun (`main.rs:540-580`). -/
def start (cfg : StryiMinerConfig) (txThreshold : Nat) (consensusConsts : ConsensusConsts)
    (runtime : ConsensusRuntime DB) : MiningNode DB :=
  ⟨runtime, cfg, txThreshold, consensusConsts, .idle, false, [], []⟩

/-- The template on the storage as it is by now (`miner/mod.rs:250-258`). -/
def candidate (node : MiningNode DB) (nowSecs : UInt64) (bestTxs : List Transaction) :
    Option Block :=
  (buildCandidateBlock node.cfg node.consensusConsts node.runtime.engine.db nowSecs
    bestTxs).toOption

/-- One event. The loop of the miner is busy while a round begins: the timer and the notifications
wait. A search that was asked to stop can still end with a block, because it looks at its token
between two batches only. -/
def step (node : MiningNode DB) : MiningEvent → MiningNode DB
  | .tick =>
      match node.round with
      | .idle =>
          if maybeStartNewRound node.txThreshold node.runtime.mempool.storage.len node.current
              true then
            { node with round := .counted }
          else
            node
      | _ => node
  | .choose =>
      match node.round with
      | .counted =>
          let bestTxs := node.runtime.mempool.getBestTransactions 10000
          { node with round := if bestTxs.isEmpty then .idle else .chosen bestTxs }
      | _ => node
  | .template nowSecs =>
      match node.round with
      | .chosen bestTxs =>
          match node.candidate nowSecs bestTxs with
          | some template =>
              { node with
                round := .idle
                current := true
                searches := node.searches ++ [⟨nowSecs, template⟩] }
          | none => { node with round := .idle }
      | _ => node
  | .tipChanged =>
      match node.round with
      | .idle => { node with current := false }
      | _ => node
  | .searched i batches =>
      match node.searches[i]? with
      | some attempt =>
          match mineBlockMemcpy batches attempt.block with
          | some block =>
              { node with
                searches := node.searches.eraseIdx i
                localBlocks := node.localBlocks ++ [⟨attempt.startedAt, block⟩] }
          | none => { node with searches := node.searches.eraseIdx i }
      | none => node
  | .localBlock nowSecs faults =>
      match node.localBlocks with
      | attempt :: localBlocks =>
          { node with
            runtime := (node.runtime.applyBlock ⟨nowSecs, faults, attempt.block⟩).2
            localBlocks }
      | [] => node
  | .block delivery => { node with runtime := (node.runtime.applyBlock delivery).2 }
  | .pool call =>
      { node with runtime := { node.runtime with mempool := node.runtime.mempool.call call } }

/-- The blocks and pools of a run: what is delivered or found is in the set, the blocks that are
detached are fresh, and the chosen transactions can be mined together on the storage from which the
template is built. -/
def Fair (U : Block → Prop) (node : MiningNode DB) : MiningEvent → Prop
  | .template nowSecs => ∀ bestTxs template, node.round = .chosen bestTxs →
      node.candidate nowSecs bestTxs = some template →
      MemPool.Packable node.consensusConsts template.header node.cfg.rewardAddress
        (storedUtxos node.runtime.engine.db) bestTxs
  | .searched i batches => ∀ attempt block, node.searches[i]? = some attempt →
      mineBlockMemcpy batches attempt.block = some block → U block
  | .localBlock nowSecs faults => ∀ attempt ∈ node.localBlocks.head?,
      DetachesFresh node.runtime.engine ⟨nowSecs, faults, attempt.block⟩
  | .block delivery => U delivery.block ∧ Careful node.runtime.engine delivery
  | .tick | .choose | .tipChanged | .pool _ => True

end MiningNode

end Mining

section Templates

variable [Primitives] [Floats] {DB : Type} [FullNodeStorage DB] [LawfulStorage DB]
  {U : Block → Prop} {engine : StryiConsensusEngine DB} {g b block template : Block}
  {w rest : List Block} {validator : BlockValidator} {chainMetadata : ChainMetadata}
  {pool : MemPool} {cfg : StryiMinerConfig} {nowSecs : UInt64} {txs : List Transaction}

/-- The blocks of a set that have few enough transactions to be stored. -/
def Fitting (U : Block → Prop) (b : Block) : Prop :=
  U b ∧ b.data.transactions.length ≤ 2 ^ 32

/-- A block that is valid on its ancestors from some time on. -/
structure Sought (DB : Type) [FullNodeStorage DB] (U : Block → Prop) (validator : BlockValidator)
    (g : Block) (chainMetadata : ChainMetadata) (attempt : Attempt) : Prop where
  inside : Fitting U attempt.block
  valid : ∃ ancestors, (∀ a ∈ ancestors, Fitting U a) ∧
    ∀ nowSecs, attempt.startedAt ≤ nowSecs →
      Candidate.Seated DB validator nowSecs g chainMetadata ⟨ancestors, attempt.block⟩

omit [Floats] [LawfulStorage DB] in
/-- A template stands above the tip of the view. -/
theorem buildCandidateBlock_above {consensusConsts : ConsensusConsts} {s : DB}
    {head : UInt64 × BlockHash} (top : tip s = .ok head)
    (built : buildCandidateBlock cfg consensusConsts s nowSecs txs = .ok template) :
    template.header.previousBlockHash = head.2 ∧
      template.header.height.toNat = head.1.toNat + 1 := by
  simp only [buildCandidateBlock, bind_eq_ok, mapError_eq_ok, okOr_eq_ok, pure_eq_ok] at built
  obtain ⟨context, read, nextHeight, next, timestamp, -, rfl⟩ := built
  simp only [miningContext, top, mapError_ok, bind_ok, bind_eq_ok, pure_eq_ok] at read
  obtain ⟨calculator, -, threshold, -, median, -, rfl⟩ := read
  rw [checkedAdd_eq_some] at next
  exact ⟨rfl, next⟩

/-- A selection has at most as many transactions as it was asked for. -/
theorem MemPool.length_getBestTransactions_le (tracked : pool.Tracked) (limit : Nat) :
    (pool.getBestTransactions limit).length ≤ limit := by
  obtain ⟨final, within, result, -⟩ := MemPool.getBestTransactions_within tracked limit
  rw [result, within.chosen.length_eq]
  exact within.size

omit [Primitives] [Floats] in
/-- A block with a nonce is the block of the same transactions under its own header. -/
theorem candidateBlock_withNonce {consensusConsts : ConsensusConsts} {address : AccountAddress}
    (filled : template = MemPool.candidateBlock consensusConsts template.header address txs)
    (nonce : UInt32) :
    template.withNonce nonce =
      MemPool.candidateBlock consensusConsts (template.withNonce nonce).header address txs := by
  have data := congrArg Block.data filled
  calc template.withNonce nonce = ⟨(template.withNonce nonce).header, template.data⟩ := rfl
    _ = _ := by rw [data]; rfl

/-- What a search returns for a template on the chain of a secure engine. -/
theorem Secure.sought (secure : Secure (Fitting U) g engine w)
    (free : HashesIdentify fun b => b = g ∨ U b)
    (launched : ∃ (consensusConsts : ConsensusConsts) (blockValidator : BlockValidator)
      (first : StryiConsensusEngine DB),
      launch consensusConsts blockValidator g chainMetadata = .ok first)
    (enforces : EnforcesGenesis g engine.blockValidator) (reachable : pool.Reachable)
    (packable : MemPool.Packable engine.blockValidator.consensusConsts template.header
      cfg.rewardAddress (storedUtxos engine.db) (pool.getBestTransactions 10000))
    (built : buildCandidateBlock cfg engine.blockValidator.consensusConsts engine.db nowSecs
      (pool.getBestTransactions 10000) = .ok template)
    {batches : List (List UInt32)} (found : mineBlockMemcpy batches template = some block)
    (inside : U block) :
    Sought DB U engine.blockValidator g chainMetadata ⟨nowSecs, block⟩ := by
  have canonical := secure.canonical
  have sound := canonical.sound
  obtain ⟨top, last, -⟩ := secure.exists_tip
  obtain ⟨l, distinct, held, best, -⟩ :=
    MemPool.getBestTransactions_eq reachable.tracked 10000
  have short := MemPool.length_getBestTransactions_le reachable.tracked 10000
  rw [best] at built short packable
  have payments : ∀ tx ∈ l.filterMap pool.find, tx.data.kind = .payment := by
    intro tx mem
    obtain ⟨h, -, found⟩ := MemPool.mem_filterMap_find.mp mem
    exact (reachable.payments h tx found).1
  have mined := mined_of_template payments enforces.calculator built found
  obtain ⟨normal, -, filled⟩ := buildCandidateBlock_ok enforces.calculator built
  obtain ⟨above, height⟩ :=
    buildCandidateBlock_above (ForkDbOverlay.tip_ok sound canonical.represents last) built
  obtain ⟨nonce, -, rfl⟩ := mineBlockMemcpy_iff.mp ⟨batches, found⟩
  have filled' := candidateBlock_withNonce filled nonce
  -- The block is acceptable on the UTXO set on which its transactions can be mined together.
  have views := views_storage sound canonical.chain canonical.represents.holds
  have reads := views.reads
  rw [storedUtxos_eq sound] at packable
  have packable' : MemPool.Packable engine.blockValidator.consensusConsts
      (template.withNonce nonce).header cfg.rewardAddress (tables engine.db).utxo
      (l.filterMap pool.find) :=
    ⟨packable.distinct, packable.owned, packable.fits, packable.pays, packable.outputs,
      packable.apart, packable.coinbase, packable.fees⟩
  obtain ⟨structured, accepted⟩ := packable'.accepted reachable distinct
  rw [← filled'] at structured accepted
  have normal' : (template.withNonce nonce).header.isGenesis = false := normal
  have passes : ∀ later, nowSecs ≤ later →
      engine.blockValidator.validate later (template.withNonce nonce) engine.db = .ok () := by
    intro later le
    rw [BlockValidator.validate, mined.header later le, bind_ok,
      validateBlockStructure_ok structured, bind_ok]
    exact (validateTransactionsUnder_iff reads normal' structured).mpr accepted
  obtain ⟨shape, -⟩ := validate_eq_ok reads normal' (passes nowSecs (UInt64.le_refl _))
  have links : Links w (template.withNonce nonce) := by
    refine ⟨⟨top, last, above⟩, shape, ?_⟩
    have tall := canonical.chain.tip_height last
    change template.header.height.toNat = w.length
    rw [height]
    exact tall
  have size : (template.withNonce nonce).data.transactions.length ≤ 2 ^ 32 := by
    rw [filled']
    change (l.filterMap pool.find).length + 1 ≤ 2 ^ 32
    omega
  have identified : ∀ b, b = g ∨ Fitting U b → b = g ∨ U b := fun b => Or.imp_right And.left
  have chain : IsChain (w ++ [template.withNonce nonce]) := by
    apply canonical.chain.links links
    intro mem
    obtain ⟨a, old, same⟩ := List.mem_map.mp mem
    have own := free a _ (identified a (secure.inside a old)) (.inr inside) same
    obtain ⟨i, at_i⟩ := List.mem_iff_getElem?.mp old
    have position := canonical.chain.height at_i
    have bound := (List.getElem?_eq_some_iff.mp at_i).1
    rw [own, links.height] at position
    omega
  obtain ⟨rest, rfl⟩ := secure.first
  have known : ∀ a ∈ rest, Fitting U a := by
    intro a mem
    refine (secure.inside a (List.mem_cons_of_mem g mem)).resolve_left ?_
    rintro rfl
    have distinct := canonical.chain.distinct
    rw [List.map_cons, List.nodup_cons] at distinct
    exact distinct.1 (List.mem_map_of_mem mem)
  obtain ⟨s, grown⟩ := secure.toInvariant.regrows launched fun a mem => (known a mem).2
  refine ⟨⟨inside, size⟩, rest, known, fun later le =>
    ⟨⟨canonical.chain, ?_, s, grown, ?_⟩, chain⟩⟩
  · rw [last, Option.map_some]
    exact congrArg some above.symm
  · rw [secure.exact] at views
    exact (views.validate_iff (views_growFrom canonical.chain grown)).mp (passes later le)

end Templates

section Run

variable [Primitives] [Floats] {DB : Type} [FullNodeStorage DB] [LawfulStorage DB]
  {U : Block → Prop} {engine : StryiConsensusEngine DB} {g b block : Block} {w : List Block}
  {validator : BlockValidator} {chainMetadata : ChainMetadata} {pool : MemPool}
  {runtime : ConsensusRuntime DB} {delivery : Delivery} {node : MiningNode DB}
  {event : MiningEvent} {attempt : Attempt} {nowSecs : UInt64}

theorem MemPool.Reachable.run (reachable : pool.Reachable) (calls : List MemPool.Call) :
    (pool.run calls).Reachable := by
  induction calls generalizing pool with
  | nil => exact reachable
  | cons call calls ih =>
    exact ih ⟨MemPool.indexed_call reachable.indexed call,
      MemPool.tracked_call reachable.indexed reachable.tracked call,
      MemPool.payments_call reachable.payments call⟩

omit [LawfulStorage DB] in
/-- A block only removes transactions from the pool. -/
theorem ConsensusRuntime.applyBlock_mempool (runtime : ConsensusRuntime DB) (delivery : Delivery) :
    ∃ calls, (runtime.applyBlock delivery).2.mempool = runtime.mempool.run calls := by
  have published : ∀ transition : CommittedTransition, ∃ calls,
      publishTransition runtime.mempool transition = runtime.mempool.run calls := by
    intro transition
    refine ⟨transition.attached.map fun attached => .updateOnBlock attached.data, ?_⟩
    rw [MemPool.run, List.foldl_map]
    rfl
  unfold ConsensusRuntime.applyBlock
  cases onBlock delivery.nowSecs delivery.faults delivery.block runtime.engine with
  | error error engine => exact ⟨[], rfl⟩
  | ok verdict engine =>
    cases verdict with
    | applied transition => exact published transition
    | causedReorganization transition => exact published transition
    | alreadyIncludedInChain => exact ⟨[], rfl⟩
    | alreadyKnownInForkTree => exact ⟨[], rfl⟩
    | buffered => exact ⟨[], rfl⟩
    | rejected error => exact ⟨[], rfl⟩

omit [Floats] [LawfulStorage DB] in
/-- A block that extends the canonical chain is published as the only attached one. -/
theorem Step.published {verdict : ConsensusVerdict} {engine' : StryiConsensusEngine DB}
    (step : Step engine nowSecs block verdict engine')
    (extends' : engine.classifyBlock block = .extendsCanonical)
    (accepted : ∀ error, verdict ≠ .rejected error) :
    ∃ transition, verdict = .applied transition ∧ transition.attached = [block] := by
  cases step with
  | applied shape height extends' valid top committed => exact ⟨_, rfl, rfl⟩
  | rejected error => exact absurd rfl (accepted error)
  | included held => rw [extends'] at held; cases held
  | known held => rw [extends'] at held; cases held
  | orphan orphan => rw [extends'] at orphan; cases orphan
  | forked shape height creates => rw [extends'] at creates; cases creates
  | extended shape height held => rw [extends'] at held; cases held
  | replaced shape height creates => rw [extends'] at creates; cases creates
  | overtaken shape height held => rw [extends'] at held; cases held

namespace MiningNode

/-- What a pool hands to the miner. -/
def Chosen (bestTxs : List Transaction) : Prop :=
  ∃ pool : MemPool, pool.Reachable ∧ bestTxs = pool.getBestTransactions 10000

/-- What every state of a fair run satisfies: the engine is secure, chosen transactions come from a
pool, and whatever a search may return or has returned is valid on its ancestors. -/
structure Mines (U : Block → Prop) (g : Block) (validator : BlockValidator)
    (chainMetadata : ChainMetadata) (node : MiningNode DB) : Prop where
  secure : ∃ w, Secure (Fitting U) g node.runtime.engine w
  rules : node.runtime.engine.blockValidator = validator
  constants : node.consensusConsts = validator.consensusConsts
  pool : node.runtime.mempool.Reachable
  chosen : ∀ bestTxs, node.round = .chosen bestTxs → Chosen bestTxs
  searches : ∀ attempt ∈ node.searches, ∀ batches block,
    mineBlockMemcpy batches attempt.block = some block → U block →
      Sought DB U validator g chainMetadata ⟨attempt.startedAt, block⟩
  found : ∀ attempt ∈ node.localBlocks, Sought DB U validator g chainMetadata attempt

/-- A block at the engine. -/
theorem Mines.applyBlock (mines : Mines U g validator chainMetadata node)
    (free : HashesIdentify fun b => b = g ∨ U b) (inside : Fitting U delivery.block)
    (detaches : DetachesFresh node.runtime.engine delivery) :
    Mines U g validator chainMetadata
      { node with runtime := (node.runtime.applyBlock delivery).2 } := by
  have identified : HashesIdentify fun b => b = g ∨ Fitting U b :=
    fun a b ha hb same => free a b (ha.imp_right And.left) (hb.imp_right And.left) same
  obtain ⟨w, secure⟩ := mines.secure
  have all : ∀ other ∈ [delivery], Fitting U other.block := by simpa using inside
  have reached := secure.reached identified.collisionFree all ⟨⟨inside.2, detaches⟩, trivial⟩
  obtain ⟨calls, mempool⟩ := node.runtime.applyBlock_mempool delivery
  refine ⟨?_, ?_, mines.constants, ?_, mines.chosen, mines.searches, mines.found⟩
  · rw [ConsensusRuntime.applyBlock_engine]
    exact reached
  · rw [ConsensusRuntime.applyBlock_engine, deliver_blockValidator]
    exact mines.rules
  · rw [mempool]
    exact mines.pool.run calls

/-- A template of chosen transactions. -/
theorem Mines.sought (mines : Mines U g validator chainMetadata node)
    (free : HashesIdentify fun b => b = g ∨ U b)
    (launched : ∃ (consensusConsts : ConsensusConsts) (blockValidator : BlockValidator)
      (first : StryiConsensusEngine DB),
      launch consensusConsts blockValidator g chainMetadata = .ok first)
    (enforces : EnforcesGenesis g validator) {template : Block} {bestTxs : List Transaction}
    (round : node.round = .chosen bestTxs)
    (built : node.candidate nowSecs bestTxs = some template)
    (packable : MemPool.Packable node.consensusConsts template.header node.cfg.rewardAddress
      (storedUtxos node.runtime.engine.db) bestTxs) (batches : List (List UInt32))
    (found : mineBlockMemcpy batches template = some block) (inside : U block) :
    Sought DB U validator g chainMetadata ⟨nowSecs, block⟩ := by
  obtain ⟨w, secure⟩ := mines.secure
  obtain ⟨pool, reachable, rfl⟩ := mines.chosen bestTxs round
  rw [candidate, toOption_eq_some, mines.constants] at built
  rw [mines.constants] at packable
  obtain rfl := mines.rules
  exact secure.sought free launched enforces reachable packable built found inside

/-- Every event of a fair run. -/
theorem Mines.step (mines : Mines U g validator chainMetadata node)
    (free : HashesIdentify fun b => b = g ∨ U b)
    (launched : ∃ (consensusConsts : ConsensusConsts) (blockValidator : BlockValidator)
      (first : StryiConsensusEngine DB),
      launch consensusConsts blockValidator g chainMetadata = .ok first)
    (enforces : EnforcesGenesis g validator) (fair : node.Fair U event) :
    Mines U g validator chainMetadata (node.step event) := by
  cases event with
  | tick =>
    unfold MiningNode.step
    dsimp only
    split
    · split
      · exact ⟨mines.secure, mines.rules, mines.constants, mines.pool, nofun, mines.searches,
          mines.found⟩
      · exact mines
    · exact mines
  | choose =>
    unfold MiningNode.step
    dsimp only
    split
    · refine ⟨mines.secure, mines.rules, mines.constants, mines.pool, ?_, mines.searches,
        mines.found⟩
      intro bestTxs round
      dsimp only at round
      split at round
      · cases round
      · rw [Round.chosen.injEq] at round
        exact ⟨_, mines.pool, round.symm⟩
    · exact mines
  | template nowSecs =>
    unfold MiningNode.step
    dsimp only
    split
    · rename_i bestTxs round
      split
      · rename_i template built
        refine ⟨mines.secure, mines.rules, mines.constants, mines.pool, nofun, ?_, mines.found⟩
        intro attempt mem batches block found inside
        rcases List.mem_append.mp mem with old | new
        · exact mines.searches attempt old batches block found inside
        · obtain rfl := List.mem_singleton.mp new
          exact mines.sought free launched enforces round built (fair bestTxs template round built)
            batches found inside
      · exact ⟨mines.secure, mines.rules, mines.constants, mines.pool, nofun, mines.searches,
          mines.found⟩
    · exact mines
  | tipChanged =>
    unfold MiningNode.step
    dsimp only
    split
    · exact ⟨mines.secure, mines.rules, mines.constants, mines.pool, mines.chosen, mines.searches,
        mines.found⟩
    · exact mines
  | searched i batches =>
    unfold MiningNode.step
    dsimp only
    have fewer : ∀ attempt ∈ node.searches.eraseIdx i, attempt ∈ node.searches :=
      fun attempt mem => List.mem_of_mem_eraseIdx mem
    split
    · rename_i attempt at_i
      split
      · rename_i block found
        refine ⟨mines.secure, mines.rules, mines.constants, mines.pool, mines.chosen, ?_, ?_⟩
        · exact fun attempt mem => mines.searches attempt (fewer attempt mem)
        · intro done mem
          rcases List.mem_append.mp mem with old | new
          · exact mines.found done old
          · obtain rfl := List.mem_singleton.mp new
            exact mines.searches attempt (List.mem_of_getElem? at_i) batches block found
              (fair attempt block at_i found)
      · refine ⟨mines.secure, mines.rules, mines.constants, mines.pool, mines.chosen, ?_,
          mines.found⟩
        exact fun attempt mem => mines.searches attempt (fewer attempt mem)
    · exact mines
  | localBlock nowSecs faults =>
    unfold MiningNode.step
    dsimp only
    split
    · rename_i attempt localBlocks queue
      have sought := mines.found attempt (by rw [queue]; exact List.mem_cons_self)
      have next := mines.applyBlock free sought.inside
        (fair attempt (by rw [queue]; rfl))
      refine ⟨next.secure, next.rules, next.constants, next.pool, next.chosen, next.searches, ?_⟩
      intro attempt mem
      apply mines.found
      rw [queue]
      exact List.mem_cons_of_mem _ mem
    · exact mines
  | block delivery =>
    exact mines.applyBlock free ⟨fair.1, fair.2.fits⟩ fair.2.detaches
  | pool call =>
    exact ⟨mines.secure, mines.rules, mines.constants, mines.pool.run [call], mines.chosen,
      mines.searches, mines.found⟩

end MiningNode

end Run

namespace Sample

end Sample

end StryiChain
