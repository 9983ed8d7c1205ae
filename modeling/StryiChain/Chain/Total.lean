import StryiChain.Chain.Exact
import StryiChain.Chain.Views

/-!
# Calls that cannot fail

An error of `on_block` stops the node. With a backend that does not fail by itself no call
returns one, as long as every canonical block above the fork point of a delivered block is fresh
and blocks have at most `2 ^ 32` transactions.
-/

namespace StryiChain

open LawfulStorage StryiConsensusEngine

section Secure

variable [Primitives]

/-- A block of a set that commits to its transactions: it is not genesis, its Merkle root is
theirs and none of them is repeated. -/
structure Vetted (U : Block → Prop) (b : Block) : Prop where
  inside : U b
  normal : b.header.isGenesis = false
  merkle : b.isMerkleRootValid = true
  unique : b.data.transactions.Nodup

/-- Blocks of the set that commit to their transactions are told apart by their hashes. -/
def CollisionFree (U : Block → Prop) : Prop :=
  ∀ a b, Vetted U a → Vetted U b → a.blockHash = b.blockHash → a = b

variable {DB : Type} [FullNodeStorage DB] [LawfulStorage DB]

/-- The invariant of a run in which no call fails. -/
structure Secure (U : Block → Prop) (g : Block) (engine : StryiConsensusEngine DB)
    (w : List Block) : Prop extends Invariant g engine w where
  exact : (tables engine.db).utxo = Coins.ledger w
  archived : (tables engine.db).Archived
  bodies : ∀ hash b, (tables engine.db).block hash = some b → b = g ∨ Vetted U b
  held : ∀ key e, engine.forks.read key = some e →
    ∀ b ∈ e.blocks, U b ∧ b.data.transactions.length ≤ 2 ^ 32

/-- The canonical blocks above the fork point of a block that passes the first checks are fresh. -/
def ForksFresh (engine : StryiConsensusEngine DB) (b : Block) : Prop :=
  verifyGenesisWorkShape b = .ok () → engine.validateHeight b = true →
    ∀ (lca : BlockHash) (p q : List Block), forkRoot engine b = some lca →
      canonicalBlocks engine.db = p ++ q → p.getLast?.map Block.blockHash = some lca →
      Coins.FreshAbove p q

/-- The heights of the tip and of the branches leave room for another block. -/
def HeightsBelow (engine : StryiConsensusEngine DB) : Prop :=
  (∀ tip, engine.chainIndex.tip = some tip → tip.height.toNat < 2 ^ 64 - 2) ∧
    ∀ key e, engine.forks.read key = some e → ∀ b ∈ e.blocks,
      b.header.height.toNat < 2 ^ 64 - 2

variable {U : Block → Prop} {engine engine' : StryiConsensusEngine DB} {g a b : Block}
  {w w' p q bs : List Block} {nowSecs : UInt64} {verdict : ConsensusVerdict}

omit [LawfulStorage DB] in
theorem ForksFresh.detachesFresh {delivery : Delivery}
    (fresh : ForksFresh engine delivery.block) : DetachesFresh engine delivery := by
  intro lca p q overtakes split last
  obtain ⟨shape, height⟩ := overtakes.checks
  exact fresh shape height lca p q overtakes.forkRoot_eq split last

/-- Blocks that were admitted above another one commit to their transactions. -/
theorem Admissible.vetted {rules : ConsensusConsts} (admissible : Admissible rules (p ++ bs))
    (chain : IsChain (p ++ bs)) (ne : p ≠ []) (mem : b ∈ bs) (inside : U b) : Vetted U b := by
  obtain ⟨front, back, rfl⟩ := List.append_of_mem mem
  have admitted := admissible (p ++ front) back b (by simp) (by simp [ne])
  have pos := List.length_pos_iff.mpr ne
  have normal := chain.normal (i := p.length + front.length) (b := b) (by simp) (by omega)
  exact ⟨inside, normal.1, admitted.merkle, admitted.structured.unique⟩

/-- The body stored under the hash of a vetted block outside the chain is that block. -/
theorem Secure.body_eq (secure : Secure U g engine w) (free : CollisionFree U)
    (vetted : Vetted U b) (new : b.blockHash ∉ w.map Block.blockHash) :
    ∀ saved, (tables engine.db).block b.blockHash = some saved → saved = b := by
  intro saved found
  have key := (wellFormed secure.canonical.sound).body found
  rcases secure.bodies _ _ found with rfl | other
  · exfalso
    obtain ⟨rest, rfl⟩ := secure.first
    apply new
    rw [← key]
    exact List.mem_map_of_mem List.mem_cons_self
  · exact free saved b other vetted key

/-- A branch of vetted blocks can be attached. -/
theorem Secure.attachable (secure : Secure U g engine w) (free : CollisionFree U)
    {lca : BlockHash} (branch : Branch engine.blockValidator.consensusConsts w p q bs lca)
    (room : (p ++ bs).length < 2 ^ 64)
    (inside : ∀ b ∈ bs, U b ∧ b.data.transactions.length ≤ 2 ^ 32) :
    Attachable (tables engine.db) p bs := by
  refine ⟨branch.chain, room, ?_, fun b mem => (inside b mem).2⟩
  intro b mem
  have vetted := branch.admissible.vetted branch.chain branch.ne_nil mem (inside b mem).1
  exact secure.body_eq free vetted (branch.apart b mem)

/-- The registry only takes in the delivered block. -/
theorem Step.forks_provenance (inv : Invariant g engine w)
    (step : Step engine nowSecs b verdict engine') :
    ∀ key e, engine'.forks.read key = some e → ∀ x ∈ e.blocks,
      x = b ∨ ∃ key' e', engine.forks.read key' = some e' ∧ x ∈ e'.blocks := by
  have pruned : ∀ {index : ChainIndex} {key : BlockHash} {e : ForkEntry},
      (pruneForks index engine.forks).read key = some e → engine.forks.read key = some e := by
    intro index key e found
    exact ((pruneForks_read fun held => (inv.registry.entry held).1).mp found).1
  cases step with
  | rejected error => exact fun key e found x mem => .inr ⟨key, e, found, mem⟩
  | included => exact fun key e found x mem => .inr ⟨key, e, found, mem⟩
  | known => exact fun key e found x mem => .inr ⟨key, e, found, mem⟩
  | orphan orphan => exact fun key e found x mem => .inr ⟨key, e, found, mem⟩
  | applied shape height extends' valid top committed =>
    exact fun key e found x mem => .inr ⟨key, e, found, mem⟩
  | forked shape height creates work view valid top light =>
    intro key e found x mem
    rcases read_inserted found with ⟨-, rfl⟩ | old
    · exact .inl (List.mem_singleton.mp mem)
    · exact .inr ⟨key, e, old, mem⟩
  | @extended lca entry rewound overlay tip shape height extends' found view replayed valid top
      light =>
    intro key e read x mem
    rcases read_inserted read with ⟨-, rfl⟩ | old
    · rcases List.mem_append.mp mem with inside | last
      · exact .inr ⟨_, entry, found, inside⟩
      · exact .inl (List.mem_singleton.mp last)
    · exact .inr ⟨key, e, (read_remove old).2, mem⟩
  | replaced shape height creates work view valid top heavy reorganized =>
    obtain ⟨-, -, -, -, -, -, -, -, -, -, rfl⟩ := reorganized.done
    exact fun key e found x mem => .inr ⟨key, e, pruned found, mem⟩
  | overtaken shape height extends' found view replayed valid top heavy reorganized =>
    obtain ⟨-, -, -, -, -, -, -, -, -, -, rfl⟩ := reorganized.done
    exact fun key e read x mem => .inr ⟨key, e, pruned (read_remove read).2, mem⟩

/-- A launched engine is secure. -/
theorem Secure.launched {consensusConsts : ConsensusConsts} {blockValidator : BlockValidator}
    {chainMetadata : ChainMetadata}
    (launched : launch consensusConsts blockValidator g chainMetadata = .ok engine) :
    Secure U g engine [g] := by
  obtain ⟨inv, -, started⟩ := Invariant.launched launched
  have fields := launched
  simp only [launch, StryiConsensusEngine.new, bind_eq_ok, mapError_eq_ok, pure_eq_ok,
    Prod.exists] at fields
  obtain ⟨-, db, -, index, -, same⟩ := fields
  refine ⟨inv, ?_, ?_, ?_, ?_⟩
  · rw [started]
    rfl
  · rw [started]
    exact inv.genesis.archived chainMetadata
  · intro hash b found
    rw [started] at found
    exact .inl (Tables.genesis_block found)
  · intro key e found
    rw [← same] at found
    simp at found

/-- Every step keeps the engine secure. -/
theorem Secure.step (secure : Secure U g engine w) (free : CollisionFree U) (inside : U b)
    (fits : b.data.transactions.length ≤ 2 ^ 32)
    (detaches : DetachesFresh engine ⟨nowSecs, .none, b⟩)
    (step : Step engine nowSecs b verdict engine') : ∃ w', Secure U g engine' w' := by
  obtain ⟨w', inv', moves⟩ := secure.toInvariant.step step
  have exact' := Moves.exact secure.toInvariant moves secure.exact detaches
  have canonical := secure.canonical
  have held' : ∀ key e, engine'.forks.read key = some e →
      ∀ x ∈ e.blocks, U x ∧ x.data.transactions.length ≤ 2 ^ 32 := by
    intro key e found x mem
    rcases step.forks_provenance secure.toInvariant key e found x mem with rfl | old
    · exact ⟨inside, fits⟩
    · obtain ⟨key', e', found', mem'⟩ := old
      exact secure.held key' e' found' x mem'
  cases moves with
  | stays same =>
    exact ⟨w, inv', exact', by rw [same]; exact secure.archived,
      by rw [same]; exact secure.bodies, held'⟩
  | grows follows appended =>
    have chain' := inv'.canonical.chain
    have vetted : Vetted U b :=
      inv'.admissible.vetted chain' canonical.chain.ne_nil (by simp) inside
    have new : b.blockHash ∉ w.map Block.blockHash := by
      have distinct := chain'.distinct
      rw [List.map_append, List.nodup_append] at distinct
      exact fun mem => distinct.2.2 _ mem b.blockHash (by simp) rfl
    have accepts := secure.archived.accepts canonical.represents.holds follows.toLinks
      (secure.body_eq free vetted new) fits
    refine ⟨_, inv', exact', ?_, ?_, held'⟩
    · rw [appended]
      exact secure.archived.appended canonical.represents.holds follows.toLinks accepts
    · intro hash x found
      rw [appended] at found
      rcases Tables.appended_block found with old | rfl
      · exact secure.bodies hash x old
      · exact .inr vetted
  | @switches p q bs lca overtakes below branch heavier room reorganized =>
    have blocks : ∀ x ∈ bs ++ [b], U x ∧ x.data.transactions.length ≤ 2 ^ 32 := by
      intro x mem
      rcases List.mem_append.mp mem with old | last
      · rcases below with rfl | ⟨key, e, found, rfl⟩
        · cases old
        · exact secure.held key e found x old
      · rw [List.mem_singleton.mp last]
        exact ⟨inside, fits⟩
    have attachable := secure.attachable free branch room blocks
    have chain := canonical.chain
    have holds := canonical.represents.holds
    rw [branch.split] at chain holds
    refine ⟨_, inv', exact', ?_, ?_, held'⟩
    · rw [reorganized]
      exact secure.archived.reorganized holds chain branch.ne_nil attachable
    · intro hash x found
      rw [reorganized] at found
      rcases Tables.reorganized_block found with old | new
      · exact secure.bodies hash x old
      · exact .inr (branch.admissible.vetted branch.chain branch.ne_nil new (blocks x new).1)

end Secure

section Success

variable [Primitives] {DB : Type} [FullNodeStorage DB] [LawfulStorage DB] {U : Block → Prop}
  {engine : StryiConsensusEngine DB} {g a b : Block} {w p q bs : List Block} {nowSecs : UInt64}

/-- The call returns a verdict. -/
def Returns (result : EStateM.Result StryiCoreError (StryiConsensusEngine DB) ConsensusVerdict) :
    Prop := ∃ verdict engine', result = .ok verdict engine'

/-- The block passes every check of `on_block`. -/
def Acceptable (engine : StryiConsensusEngine DB) (nowSecs : UInt64) (b : Block) : Prop :=
  verifyGenesisWorkShape b = .ok () ∧ engine.validateHeight b = true ∧ Validated engine nowSecs b

/-- The call returns a verdict, which is no rejection of a block that is valid. -/
def Settles (valid : Prop)
    (result : EStateM.Result StryiCoreError (StryiConsensusEngine DB) ConsensusVerdict) : Prop :=
  ∃ verdict engine', result = .ok verdict engine' ∧ (valid → ∀ error, verdict ≠ .rejected error)

omit [Primitives] [FullNodeStorage DB] [LawfulStorage DB] in
/-- A step that reads and succeeds hands on its result. -/
theorem lift_bind_ok {α β : Type} {x : Except StryiCoreError α} {a : α} (ok : x = .ok a)
    (f : α → EngineM DB β) : (EngineM.lift x >>= f) engine = f a engine := by
  rw [EngineM.lift_bind_run, ok]

omit [LawfulStorage DB] in
theorem commit_ok (transition : ChainTransition) {result : ChainTransitionResult} {db : DB}
    (committed : commitTransition engine.db transition = .ok (result, db)) :
    commit .none transition engine = .ok result { engine with db } := by
  rw [commit, EngineM.get_bind_run, EngineM.lift_bind_run]
  have outcome : (withFault Faults.none.commit (commitTransition engine.db transition)).mapError
      (StryiCoreError.storageError .other) = .ok (result, db) := by
    rw [committed]
    rfl
  rw [outcome]
  rfl

/-- The index has the top of the chain as its tip. -/
theorem Invariant.exists_tip (inv : Invariant g engine w) :
    ∃ top, w.getLast? = some top ∧
      engine.chainIndex.tip = some ⟨top.header.height, top.blockHash, chainWork w⟩ := by
  obtain ⟨top, last⟩ : ∃ top, w.getLast? = some top := by
    rw [← Option.isSome_iff_exists, List.getLast?_isSome]
    exact inv.canonical.chain.ne_nil
  refine ⟨top, last, ?_⟩
  rw [inv.canonical.indexOf.tip, tipOf, last]
  rfl

omit [Primitives] in
theorem expectTip_ok {index : ChainIndex} {tip : TipInfo} (top : index.tip = some tip) :
    expectTip index = .ok tip := by
  rw [expectTip, top, okOr_some]

/-- The chain leaves room for another block. -/
theorem Invariant.room (inv : Invariant g engine w) (below : HeightsBelow engine) :
    w.length + 1 < 2 ^ 64 := by
  obtain ⟨top, last, tip⟩ := inv.exists_tip
  have bound := below.1 _ tip
  have height := inv.canonical.chain.tip_height last
  dsimp only at bound
  omega

/-- The blocks of a branch apply on the ledger below it. -/
theorem Branch.applies {lca : BlockHash} (inv : Invariant g engine w)
    (branch : Branch engine.blockValidator.consensusConsts w p q bs lca) :
    Coins.Applies (Coins.ledger p) bs := by
  obtain ⟨rest, first⟩ : ∃ rest, p ++ bs = g :: rest := by
    obtain ⟨rest, first⟩ := inv.first
    rw [branch.split] at first
    obtain ⟨x, front, rfl⟩ := List.exists_cons_of_ne_nil branch.ne_nil
    rw [List.cons_append, List.cons.injEq] at first
    exact ⟨front ++ bs, by rw [first.1]; rfl⟩
  have admissible := branch.admissible
  rw [first] at admissible
  have all := admissible.applies inv.genesis
  rw [← first, Coins.applies_append] at all
  exact all.2

/-- A branch above fresh blocks replaces them. -/
theorem performReorg_ok (secure : Secure U g engine w) (free : CollisionFree U) {lca : BlockHash}
    (branch : Branch engine.blockValidator.consensusConsts w p q bs lca) (ne : bs ≠ [])
    (room : (p ++ bs).length < 2 ^ 64) (fresh : Coins.FreshAbove p q)
    (inside : ∀ b ∈ bs, U b ∧ b.data.transactions.length ≤ 2 ^ 32) :
    Returns (performReorg .none lca bs engine) := by
  have attachable := secure.attachable free branch room inside
  have canonical := secure.canonical
  have exact := secure.exact
  rw [branch.split] at canonical exact
  obtain ⟨a, last, rfl⟩ := Option.map_eq_some_iff.mp branch.ancestor
  have work := canonical.indexOf.work_eq last
  obtain ⟨works, added⟩ := branchWork_ok branch.chain branch.ne_nil room.le
  have applies := branch.applies secure.toInvariant
  obtain ⟨delta, prepared⟩ := prepareDelta_ok canonical exact fresh last branch.chain ne applies
  have replacement := secure.replacement branch ne prepared
  obtain ⟨⟨result, db⟩, committed⟩ := reorganize_ok replacement secure.archived attachable ne
  have known : okOr (engine.chainIndex.work a.blockHash)
      (StryiCoreError.consensusChainSelectionFailed
        "Fork ancestor is outside canonical history") = .ok (chainWork p) := by
    rw [work, okOr_some]
  have phase : readPhase Faults.none.prepare
      (prepareDelta engine.chainIndex engine.db a.blockHash bs) = .ok delta := prepared
  rw [performReorg, EngineM.get_bind_run, lift_bind_ok known, lift_bind_ok added,
    lift_bind_ok phase, EngineM.bind_run, commit_ok (.reorganize delta) committed]
  exact ⟨_, _, rfl⟩

/-- A block on the canonical tip is judged, and appended if it is valid. -/
theorem handleExtendCanonical_ok (secure : Secure U g engine w) (free : CollisionFree U)
    (inside : U b) (fits : b.data.transactions.length ≤ 2 ^ 32) (below : HeightsBelow engine)
    (shape : verifyGenesisWorkShape b = .ok ()) (height : engine.validateHeight b = true)
    (extends' : engine.classifyBlock b = .extendsCanonical) :
    Returns (handleExtendCanonical nowSecs .none b engine) := by
  have canonical := secure.canonical
  have spec := classifyBlock_spec engine b
  rw [extends'] at spec
  obtain ⟨unknown, above⟩ := spec
  obtain ⟨top, last, tip⟩ := secure.exists_tip
  rw [tip] at above
  have parent : b.header.previousBlockHash = top.blockHash := by simpa using above
  have indexOf : IndexOf (w ++ []) engine.chainIndex := by
    rw [List.append_nil]
    exact canonical.indexOf
  have next := (validateHeight_canonical indexOf last parent).mp height
  have normal := normal_of_height shape (by omega)
  have views := views_storage canonical.sound canonical.chain canonical.represents.holds
  have contained : Contained (engine.blockValidator.validate nowSecs b engine.db) :=
    views.contained_validate normal (List.mem_of_getLast? last) parent
  obtain ⟨verdict, judged⟩ := judge_ok contained
  rw [handleExtendCanonical, EngineM.get_bind_run]
  have phase : readPhase Faults.none.check
      (judge (engine.blockValidator.validate nowSecs b engine.db)) = .ok verdict := judged
  rw [lift_bind_ok phase]
  cases verdict with
  | some error => exact ⟨_, _, rfl⟩
  | none =>
    obtain ⟨normal', admitted⟩ :=
      validate_eq_ok views.reads normal (judge_eq_ok_none.mp judged)
    have work : verifiedBlockWork b = .ok b.work := verifiedBlockWork_eq_ok.mpr ⟨shape, rfl⟩
    have room := secure.toInvariant.room below
    have total : addWork (chainWork w) b.work = .ok (chainWork w + b.work) :=
      addWork_eq_ok.mpr ⟨chainWork_add_lt (by omega) b, rfl⟩
    have follows : Follows w b := by
      refine ⟨⟨⟨top, last, parent⟩, normal', ?_⟩, room⟩
      rw [next, canonical.chain.tip_height last]
    have vetted : Vetted U b := ⟨inside, normal, admitted.merkle, admitted.structured.unique⟩
    have accepts := secure.archived.accepts canonical.represents.holds follows.toLinks
      (secure.body_eq free vetted (secure.unknown unknown).1) fits
    obtain ⟨result, db, committed⟩ := append_ok canonical.sound canonical.chain
      canonical.represents follows admitted.accepted.applicable accepts
    dsimp only
    rw [lift_bind_ok (expectTip_ok tip), lift_bind_ok work, lift_bind_ok total, EngineM.bind_run,
      commit_ok (.append b) committed]
    exact ⟨_, _, rfl⟩

/-- The canonical blocks above the fork point are fresh, wherever the chain is split at it. -/
theorem ForksFresh.above (fresh : ForksFresh engine b) (inv : Invariant g engine w)
    {lca : BlockHash} (shape : verifyGenesisWorkShape b = .ok ())
    (height : engine.validateHeight b = true) (root : forkRoot engine b = some lca)
    (split : w = p ++ q) (ancestor : p.getLast?.map Block.blockHash = some lca) :
    Coins.FreshAbove p q := by
  apply fresh shape height lca p q root _ ancestor
  rw [canonicalBlocks_eq inv.canonical, split]

/-- The view of the chain below a fork point can be built. -/
theorem Secure.overlay (secure : Secure U g engine w) (split : w = p ++ q)
    (last : p.getLast? = some a) (fresh : Coins.FreshAbove p q) :
    ∃ overlay, buildForkOverlay engine.chainIndex engine.db a.blockHash = .ok overlay ∧
      overlay.Replayed engine.db p q [] ∧ overlay.coins = Coins.ledger p := by
  have canonical := secure.canonical
  have exact := secure.exact
  rw [split] at canonical exact
  obtain ⟨overlay, view⟩ := buildForkOverlay_ok canonical exact fresh last
  have replayed := buildForkOverlay_eq_ok canonical last view
  refine ⟨overlay, view, replayed, ?_⟩
  have applies := canonical.applies
  rw [Coins.applies_append] at applies
  rw [replayed.coins_eq, Coins.applyAll_nil, exact, Coins.unwind_eq applies.2 fresh]

/-- The view of a branch can be built. -/
theorem Secure.replayed (secure : Secure U g engine w) {e : ForkEntry}
    (branches : Branches engine.blockValidator.consensusConsts w e p q)
    (fresh : Coins.FreshAbove p q) :
    ∃ rewound overlay,
      buildForkOverlay engine.chainIndex engine.db e.commonAncestor = .ok rewound ∧
      replayAll .other rewound e.blocks = .ok overlay ∧
      overlay.Replayed engine.db p q e.blocks ∧
      overlay.coins = Coins.ledger (p ++ e.blocks) := by
  obtain ⟨a, ancestor, hash⟩ := Option.map_eq_some_iff.mp branches.ancestor
  obtain ⟨rewound, view, start, coins⟩ := secure.overlay branches.split ancestor fresh
  rw [hash] at view
  have applies : Coins.Applies rewound.coins e.blocks := by
    rw [coins]
    exact branches.toBranch.applies secure.toInvariant
  have chain : IsChain (p ++ [] ++ e.blocks) := by
    rw [List.append_nil]
    exact branches.chain
  obtain ⟨overlay, replay⟩ := replayAll_ok .other start branches.ne_nil chain applies
  obtain ⟨-, -, replayed⟩ := replayAll_eq_ok start chain.distinct
    (chain.left (by simpa using branches.ne_nil)) replay
  rw [List.nil_append] at replayed
  refine ⟨rewound, overlay, view, replay, replayed, ?_⟩
  rw [replayed.coins_eq, Coins.ledger_append, ← coins, start.coins_eq, Coins.applyAll_nil]

/-- Validation above a replayed branch never ends in an error of the storage. -/
theorem Secure.contained (secure : Secure U g engine w) (split : w = p ++ q) (ne : p ≠ [])
    (chain : IsChain (p ++ bs)) {overlay : ForkDbOverlay DB}
    (replayed : overlay.Replayed engine.db p q bs) (normal : b.header.isGenesis = false)
    (last : (p ++ bs).getLast? = some a) (parent : b.header.previousBlockHash = a.blockHash) :
    Contained (engine.blockValidator.validate nowSecs b overlay) := by
  have canonical := secure.canonical
  rw [split] at canonical
  have views := views_overlay canonical.sound canonical.chain canonical.represents.holds chain ne
    replayed
  exact views.contained_validate normal (List.mem_of_getLast? last) parent

/-- A block on a lower canonical block is judged, and kept as a branch or made canonical. -/
theorem handleCreatesForkFromCanonical_ok (secure : Secure U g engine w) (free : CollisionFree U)
    (inside : U b) (fits : b.data.transactions.length ≤ 2 ^ 32) (below : HeightsBelow engine)
    (fresh : ForksFresh engine b) {lca : BlockHash} (shape : verifyGenesisWorkShape b = .ok ())
    (height : engine.validateHeight b = true)
    (creates : engine.classifyBlock b = .createsForkFromCanonical lca) :
    Returns (handleCreatesForkFromCanonical nowSecs .none b lca engine) := by
  have canonical := secure.canonical
  have spec := classifyBlock_spec engine b
  rw [creates] at spec
  obtain ⟨unknown, same, known⟩ := spec
  have root : forkRoot engine b = some lca := by simp only [forkRoot, creates]
  obtain ⟨p, q, a, split, last, hash⟩ := exists_below (canonical.indexOf.has_iff.mp known)
  have ancestor : p.getLast?.map Block.blockHash = some lca := by rw [last, Option.map_some, hash]
  obtain ⟨overlay, view, replayed, -⟩ := secure.overlay split last
    (fresh.above secure.toInvariant shape height root split ancestor)
  rw [hash] at view
  have parent : b.header.previousBlockHash = a.blockHash := by rw [hash, same]
  have indexOf := canonical.indexOf
  have chain := canonical.chain
  rw [split] at indexOf chain
  have next := (validateHeight_canonical indexOf last parent).mp height
  have normal := normal_of_height shape (by omega)
  have ne : p ≠ [] := by
    intro empty
    rw [empty] at last
    cases last
  have contained : Contained (engine.blockValidator.validate nowSecs b overlay) := by
    apply secure.contained split ne _ replayed normal _ parent
    · rw [List.append_nil]
      exact chain.left ne
    · rw [List.append_nil]
      exact last
  obtain ⟨verdict, judged⟩ := judge_ok contained
  have phase : readPhase Faults.none.check (checkNewFork engine.blockValidator engine.chainIndex
      engine.db nowSecs b lca) = .ok verdict := by
    rw [checkNewFork, view, bind_ok]
    exact judged
  have work : engine.chainIndex.work lca = some (chainWork p) := by
    rw [← hash]
    exact indexOf.work_eq last
  have found : okOr (engine.chainIndex.work lca)
      (StryiCoreError.consensusChainSelectionFailed
        "Fork ancestor is outside canonical history") = .ok (chainWork p) := by
    rw [work, okOr_some]
  rw [handleCreatesForkFromCanonical, EngineM.get_bind_run, lift_bind_ok found, lift_bind_ok phase]
  cases verdict with
  | some error => exact ⟨_, _, rfl⟩
  | none =>
    have valid := judge_eq_ok_none.mp judged
    obtain ⟨p', q', branch⟩ := secure.newBranch shape height creates view valid
    have room := secure.toInvariant.room below
    have shorter : p.length ≤ w.length := by
      rw [split, List.length_append]
      omega
    have shorter' : p'.length ≤ w.length := by
      rw [branch.split, List.length_append]
      omega
    have own : verifiedBlockWork b = .ok b.work := verifiedBlockWork_eq_ok.mpr ⟨shape, rfl⟩
    have total : addWork (chainWork p) b.work = .ok (chainWork p + b.work) :=
      addWork_eq_ok.mpr ⟨chainWork_add_lt (by omega) b, rfl⟩
    obtain ⟨top, -, tip⟩ := secure.exists_tip
    dsimp only
    rw [lift_bind_ok own, lift_bind_ok total, lift_bind_ok (expectTip_ok tip)]
    split
    · apply performReorg_ok secure free branch (by simp)
      · rw [List.length_append, List.length_singleton]
        omega
      · exact fresh.above secure.toInvariant shape height root branch.split branch.ancestor
      · intro x mem
        rw [List.mem_singleton.mp mem]
        exact ⟨inside, fits⟩
    · exact ⟨_, _, rfl⟩

/-- A block on the tip of a branch is judged, and kept with it or made canonical with it. -/
theorem handleExtendsFork_ok (secure : Secure U g engine w) (free : CollisionFree U)
    (inside : U b) (fits : b.data.transactions.length ≤ 2 ^ 32) (below : HeightsBelow engine)
    (fresh : ForksFresh engine b) {lca : BlockHash} (shape : verifyGenesisWorkShape b = .ok ())
    (height : engine.validateHeight b = true)
    (extends' : engine.classifyBlock b = .extendsFork b.header.previousBlockHash lca) :
    Returns (handleExtendsFork nowSecs .none b engine) := by
  have canonical := secure.canonical
  have spec := classifyBlock_spec engine b
  rw [extends'] at spec
  obtain ⟨unknown, -, absent, e, found, rfl⟩ := spec
  have root : forkRoot engine b = some e.commonAncestor := by simp only [forkRoot, extends']
  obtain ⟨keyed, p, q, branches⟩ := secure.registry.entry found
  obtain ⟨top, last, hash⟩ := Option.map_eq_some_iff.mp branches.tip
  have split := branches.split
  obtain ⟨rewound, overlay, view, replay, replayed, -⟩ := secure.replayed branches
    (fresh.above secure.toInvariant shape height root split branches.ancestor)
  have next := (validateHeight_fork absent found last).mp height
  have normal := normal_of_height shape (by omega)
  have parent : b.header.previousBlockHash = top.blockHash := by rw [hash, keyed]
  have whole : (p ++ e.blocks).getLast? = some top := by simp [List.getLast?_append, last]
  have contained : Contained (engine.blockValidator.validate nowSecs b overlay) :=
    secure.contained split branches.ne_nil branches.chain replayed normal whole parent
  obtain ⟨verdict, judged⟩ := judge_ok contained
  have phase : readPhase Faults.none.check (checkFork engine.blockValidator engine.chainIndex
      engine.db nowSecs b e) = .ok verdict := by
    rw [checkFork, view, bind_ok, replay, bind_ok]
    exact judged
  have held : okOr (ForkRegistry.get engine.forks b.header.previousBlockHash)
      (StryiCoreError.consensusChainSelectionFailed "Fork parent is absent") = .ok e := by
    rw [found, okOr_some]
  rw [handleExtendsFork, EngineM.get_bind_run]
  dsimp only
  rw [lift_bind_ok held, lift_bind_ok phase]
  cases verdict with
  | some error => exact ⟨_, _, rfl⟩
  | none =>
    have valid := judge_eq_ok_none.mp judged
    obtain ⟨p', q', branches', branch⟩ :=
      secure.longerBranch shape height extends' found view replay valid
    have own : verifiedBlockWork b = .ok b.work := verifiedBlockWork_eq_ok.mpr ⟨shape, rfl⟩
    have bound := below.2 _ e found top (List.mem_of_getLast? last)
    have whole' : (p' ++ e.blocks).getLast? = some top := by simp [List.getLast?_append, last]
    have length := branches'.chain.tip_height whole'
    have total : addWork e.cumulativeWork b.work = .ok (e.cumulativeWork + b.work) := by
      rw [branches'.work]
      exact addWork_eq_ok.mpr ⟨chainWork_add_lt (by omega) b, rfl⟩
    obtain ⟨_, -, tip⟩ := secure.exists_tip
    dsimp only
    rw [lift_bind_ok own, lift_bind_ok total, lift_bind_ok (expectTip_ok tip)]
    split
    · have reorganizes : Returns
          (performReorg .none e.commonAncestor (e.blocks ++ [b]) engine) := by
        apply performReorg_ok secure free branch (by simp)
        · rw [← List.append_assoc, List.length_append, List.length_singleton]
          omega
        · exact fresh.above secure.toInvariant shape height root branch.split branch.ancestor
        · intro x mem
          rcases List.mem_append.mp mem with old | new
          · exact secure.held _ e found x old
          · rw [List.mem_singleton.mp new]
            exact ⟨inside, fits⟩
      obtain ⟨verdict, engine', done⟩ := reorganizes
      rw [EngineM.bind_run, done]
      exact ⟨verdict, _, rfl⟩
    · exact ⟨_, _, rfl⟩

/-- A call on a secure engine returns a verdict. -/
theorem onBlock_returns (secure : Secure U g engine w) (free : CollisionFree U) (inside : U b)
    (fits : b.data.transactions.length ≤ 2 ^ 32) (below : HeightsBelow engine)
    (fresh : ForksFresh engine b) : Returns (onBlock nowSecs .none b engine) := by
  rw [onBlock, EngineM.get_bind_run]
  cases shape : verifyGenesisWorkShape b with
  | error error => exact ⟨_, _, rfl⟩
  | ok _ =>
    dsimp only
    by_cases height : engine.validateHeight b = false
    · rw [if_pos height]
      exact ⟨_, _, rfl⟩
    · rw [if_neg height]
      rw [Bool.not_eq_false] at height
      cases class' : engine.classifyBlock b with
      | known location => cases location <;> exact ⟨_, _, rfl⟩
      | extendsCanonical =>
        exact handleExtendCanonical_ok secure free inside fits below shape height class'
      | createsForkFromCanonical lca =>
        exact handleCreatesForkFromCanonical_ok secure free inside fits below fresh shape height
          class'
      | extendsFork parent lca =>
        have spec := classifyBlock_spec engine b
        rw [class'] at spec
        rw [spec.2.1] at class'
        exact handleExtendsFork_ok secure free inside fits below fresh shape height class'
      | orphan parent => exact ⟨_, _, rfl⟩

/-- It takes a block that is valid on its branch. -/
theorem onBlock_settles (secure : Secure U g engine w) (free : CollisionFree U) (inside : U b)
    (fits : b.data.transactions.length ≤ 2 ^ 32) (below : HeightsBelow engine)
    (fresh : ForksFresh engine b) :
    Settles (Acceptable engine nowSecs b) (onBlock nowSecs .none b engine) := by
  obtain ⟨verdict, engine', done⟩ : Returns (onBlock nowSecs .none b engine) :=
    onBlock_returns secure free inside fits below fresh
  refine ⟨verdict, engine', done, ?_⟩
  rintro ⟨shape, height, valid⟩ error rfl
  exact onBlock_spares shape height valid done

end Success

section Run

variable [Primitives] {DB : Type} [FullNodeStorage DB] [LawfulStorage DB] {U : Block → Prop}
  {engine : StryiConsensusEngine DB} {g : Block} {w : List Block} {delivery : Delivery}
  {deliveries : List Delivery} {consensusConsts : ConsensusConsts}
  {blockValidator : BlockValidator} {chainMetadata : ChainMetadata}

/-- A call on a backend that does not fail by itself, below the last heights, with a block that has
at most `2 ^ 32` transactions and leaves the canonical chain below fresh blocks only. -/
structure Benign (engine : StryiConsensusEngine DB) (delivery : Delivery) : Prop where
  faultless : delivery.faults = .none
  below : HeightsBelow engine
  fits : delivery.block.data.transactions.length ≤ 2 ^ 32
  fresh : ForksFresh engine delivery.block

/-- The call returns a verdict: it neither fails nor panics. -/
def Answers (engine : StryiConsensusEngine DB) (delivery : Delivery) : Prop :=
  Returns (onBlock delivery.nowSecs delivery.faults delivery.block engine)

/-- A benign call is answered and leaves the engine secure. -/
theorem Secure.deliver (secure : Secure U g engine w) (free : CollisionFree U)
    (inside : U delivery.block) (benign : Benign engine delivery) :
    Answers engine delivery ∧ ∃ w', Secure U g (StryiChain.deliver engine delivery) w' := by
  have answers : Answers engine delivery := by
    rw [Answers, benign.faultless]
    exact onBlock_returns secure free inside benign.fits benign.below benign.fresh
  refine ⟨answers, ?_⟩
  obtain ⟨verdict, engine', done⟩ := answers
  rw [StryiChain.deliver, done]
  exact secure.step free inside benign.fits (ForksFresh.detachesFresh benign.fresh)
    (onBlock_ok done)

theorem Secure.run (secure : Secure U g engine w) (free : CollisionFree U)
    (inside : ∀ delivery ∈ deliveries, U delivery.block)
    (benign : Along Benign engine deliveries) : Along Answers engine deliveries := by
  induction deliveries generalizing engine w with
  | nil => exact trivial
  | cons delivery deliveries ih =>
    obtain ⟨answers, w', secure'⟩ :=
      secure.deliver free (inside delivery List.mem_cons_self) benign.1
    exact ⟨answers, ih secure' (fun later mem => inside later (List.mem_cons_of_mem _ mem))
      benign.2⟩

/-- The block of a call has at most `2 ^ 32` transactions, and if it makes its branch the canonical
one then what the chain leaves is fresh. -/
structure Careful (engine : StryiConsensusEngine DB) (delivery : Delivery) : Prop where
  fits : delivery.block.data.transactions.length ≤ 2 ^ 32
  detaches : DetachesFresh engine delivery

/-- Whatever fails, a run of careful calls keeps the engine secure. -/
theorem Secure.reached (secure : Secure U g engine w) (free : CollisionFree U)
    (inside : ∀ delivery ∈ deliveries, U delivery.block)
    (careful : Along Careful engine deliveries) :
    ∃ w', Secure U g (deliverAll engine deliveries) w' := by
  induction deliveries generalizing engine w with
  | nil => exact ⟨w, secure⟩
  | cons delivery deliveries ih =>
    have next : ∃ w', Secure U g (StryiChain.deliver engine delivery) w' := by
      unfold StryiChain.deliver
      cases run : onBlock delivery.nowSecs delivery.faults delivery.block engine with
      | ok verdict engine' =>
        exact secure.step free (inside delivery List.mem_cons_self) careful.1.fits
          careful.1.detaches (onBlock_ok run)
      | error error engine' =>
        obtain rfl := onBlock_error run
        exact ⟨w, secure⟩
    obtain ⟨w', secure'⟩ := next
    exact ih secure' (fun later mem => inside later (List.mem_cons_of_mem _ mem)) careful.2

/-- Every call of a benign run is answered. -/
theorem onBlock_never_fails
    (launched : launch consensusConsts blockValidator g chainMetadata = .ok engine)
    (free : CollisionFree fun b => b ∈ deliveries.map Delivery.block)
    (benign : Along Benign engine deliveries) : Along Answers engine deliveries := by
  apply (Secure.launched launched).run free _ benign
  intro delivery mem
  exact List.mem_map_of_mem mem

omit [LawfulStorage DB] in
/-- Blocks that are all fresh may be left from anywhere. -/
theorem ForksFresh.of_all {rest : List Block} {b : Block}
    (blocks : canonicalBlocks engine.db = g :: rest) (fresh : Coins.FreshAbove [g] rest) :
    ForksFresh engine b := by
  intro _ _ lca p q _ split last
  exact fresh.split (blocks ▸ split) (by rintro rfl; simp at last)

omit [FullNodeStorage DB] [LawfulStorage DB] in
/-- The heights are read off the tip and the registry. -/
theorem heightsBelow_iff : HeightsBelow engine ↔
    (engine.chainIndex.tip.all fun tip => tip.height.toNat < 2 ^ 64 - 2) = true ∧
    ((ForkRegistry.all engine.forks).all fun e => e.blocks.all fun b =>
      b.header.height.toNat < 2 ^ 64 - 2) = true := by
  simp only [HeightsBelow, Option.all_eq_true, List.all_eq_true, decide_eq_true_eq, mem_all,
    forall_exists_index]
  constructor
  · rintro ⟨tip, forks⟩
    exact ⟨tip, fun e key found => forks key e found⟩
  · rintro ⟨tip, forks⟩
    exact ⟨tip, fun key e found => forks e key found⟩

instance : Decidable (HeightsBelow engine) := decidable_of_iff _ heightsBelow_iff.symm

end Run

open Sample in
/-- A branch that leaves the chain below both gifts cannot be checked: the call fails, although no
two blocks and no two transactions share a hash. -/
theorem onBlock_fails_below_repeated :
    ([genesis, given, again, other].map Block.blockHash).Nodup ∧
    ((([genesis, given, again, other].flatMap fun b => b.data.transactions).dedup).map
      fun tx => tx.data.hash).Nodup ∧
    ∃ engine, start = .ok engine ∧
      Along (fun engine _ => HeightsBelow engine) engine ([given, again, other].map call) ∧
      ¬ Along Answers engine ([given, again, other].map call) := by
  refine ⟨by decide +kernel, by decide +kernel, ?_⟩
  have fails : start.toOption.any (fun engine =>
      let engine1 := deliver engine (call given)
      let engine2 := deliver engine1 (call again)
      HeightsBelow engine ∧ HeightsBelow engine1 ∧ HeightsBelow engine2 ∧
        (match onBlock 1000 .none other engine2 with
          | .ok _ _ => false
          | .error _ _ => true) = true) = true := by decide +kernel
  obtain ⟨engine, started, run⟩ := exists_ok_of_any fails
  rw [decide_eq_true_eq] at run
  obtain ⟨below, below1, below2, failed⟩ := run
  refine ⟨engine, started, ⟨below, below1, below2, trivial⟩, ?_⟩
  rintro ⟨-, -, ⟨verdict, engine', answer⟩, -⟩
  have answer' : onBlock 1000 .none other
      (deliver (deliver engine (call given)) (call again)) = .ok verdict engine' := answer
  rw [answer'] at failed
  cases failed

open Sample in
/-- A run through a reorganization in which every call is answered. -/
theorem onBlock_never_fails_sample : ∃ engine, start = .ok engine ∧
    CollisionFree (fun b => b ∈ ([rival, other, next].map call).map Delivery.block) ∧
    Along Benign engine ([rival, other, next].map call) ∧
    Along Answers engine ([rival, other, next].map call) := by
  have chains : start.toOption.any (fun engine =>
      let engine1 := deliver engine (call rival)
      let engine2 := deliver engine1 (call other)
      (HeightsBelow engine ∧ HeightsBelow engine1 ∧ HeightsBelow engine2) ∧
      canonicalBlocks engine.db = [genesis] ∧
      canonicalBlocks engine1.db = [genesis, rival] ∧
      canonicalBlocks engine2.db = [genesis, rival]) = true := by decide +kernel
  obtain ⟨engine, started, reads⟩ := exists_ok_of_any chains
  rw [decide_eq_true_eq] at reads
  obtain ⟨⟨below, below1, below2⟩, chain, chain1, chain2⟩ := reads
  have fresh : Coins.FreshAbove [genesis] [rival] := by decide +kernel
  have free : CollisionFree (fun b => b ∈ ([rival, other, next].map call).map Delivery.block) := by
    have apart : ∀ a ∈ [rival, other, next], ∀ b ∈ [rival, other, next],
        a.blockHash = b.blockHash → a = b := by decide +kernel
    intro a b ha hb same
    exact apart a ha.inside b hb.inside same
  have benign : Along Benign engine ([rival, other, next].map call) :=
    ⟨⟨rfl, below, by decide, .of_all chain trivial⟩,
      ⟨rfl, below1, by decide, .of_all chain1 fresh⟩,
      ⟨rfl, below2, by decide, .of_all chain2 fresh⟩, trivial⟩
  exact ⟨engine, started, free, benign, onBlock_never_fails started free benign⟩

end StryiChain
