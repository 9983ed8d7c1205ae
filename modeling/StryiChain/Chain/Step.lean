import StryiChain.Consensus.Engine

/-!
# What one call of `on_block` can do

The handlers read, decide, commit and only then change the engine. `Step` lists everything a call
that returns a verdict can have done, with what it has checked on the way; a call that returns an
error has done nothing.
-/

namespace StryiChain

variable [Primitives] {DB : Type} [FullNodeStorage DB]

section Run

variable {α β : Type}

omit [Primitives] [FullNodeStorage DB] in
theorem EngineM.bind_run (x : EngineM DB α) (f : α → EngineM DB β)
    (engine : StryiConsensusEngine DB) :
    (x >>= f) engine = match x engine with
      | .ok a engine => f a engine
      | .error error engine => .error error engine := by
  change EStateM.bind x f engine = _
  unfold EStateM.bind
  cases x engine <;> rfl

omit [Primitives] [FullNodeStorage DB] in
theorem EngineM.lift_run (x : Except StryiCoreError α) (engine : StryiConsensusEngine DB) :
    EngineM.lift x engine = match x with
      | .ok a => .ok a engine
      | .error error => .error error engine := by
  cases x <;> rfl

omit [Primitives] [FullNodeStorage DB] in
/-- A step that reads either fails and leaves the engine alone, or hands on its result. -/
theorem EngineM.lift_bind_run (x : Except StryiCoreError α) (f : α → EngineM DB β)
    (engine : StryiConsensusEngine DB) :
    (EngineM.lift x >>= f) engine = match x with
      | .ok a => f a engine
      | .error error => .error error engine := by
  rw [bind_run, lift_run]
  cases x <;> rfl

omit [Primitives] [FullNodeStorage DB] in
theorem EngineM.get_bind_run (f : StryiConsensusEngine DB → EngineM DB β)
    (engine : StryiConsensusEngine DB) :
    ((get : EngineM DB (StryiConsensusEngine DB)) >>= f) engine = f engine engine := rfl

end Run

open StryiConsensusEngine

variable {engine engine' : StryiConsensusEngine DB} {nowSecs : UInt64} {faults : Faults}
  {block : Block} {verdict : ConsensusVerdict} {error : StryiCoreError}

/-- A commit either fails and leaves the engine alone, or replaces its storage. -/
theorem commit_run (faults : Faults) (transition : ChainTransition)
    (engine : StryiConsensusEngine DB) :
    (∃ error, commit faults transition engine = .error error engine) ∨
    ∃ result db, commitTransition engine.db transition = .ok (result, db) ∧
      commit faults transition engine = .ok result { engine with db } := by
  rw [commit, EngineM.get_bind_run, EngineM.lift_bind_run]
  cases run : (withFault faults.commit (commitTransition engine.db transition)).mapError
      (StryiCoreError.storageError .other) with
  | error error => exact .inl ⟨error, rfl⟩
  | ok outcome =>
    obtain ⟨result, db⟩ := outcome
    rw [mapError_eq_ok, withFault_eq_ok] at run
    exact .inr ⟨result, db, run.2, rfl⟩

omit [Primitives] in
theorem readPhase_eq_ok {α : Type} {fault : Option (StorageLayer × StorageError)}
    {phase : Except StryiCoreError α} {a : α} (run : readPhase fault phase = .ok a) :
    phase = .ok a := by
  rw [readPhase, withFault_eq_ok] at run
  exact run.2

omit [Primitives] [FullNodeStorage DB] in
/-- A step that reads, before a part that fails without a change or ends as wanted. -/
theorem ends_after_lift {α : Type} {x : Except StryiCoreError α}
    {f : α → EngineM DB ConsensusVerdict}
    {ends : ConsensusVerdict → StryiConsensusEngine DB → Prop}
    (rest : ∀ a, x = .ok a → (∃ error, f a engine = .error error engine) ∨
      ∃ verdict engine', f a engine = .ok verdict engine' ∧ ends verdict engine') :
    (∃ error, (EngineM.lift x >>= f) engine = .error error engine) ∨
      ∃ verdict engine', (EngineM.lift x >>= f) engine = .ok verdict engine' ∧
        ends verdict engine' := by
  rw [EngineM.lift_bind_run]
  cases read : x with
  | error error => exact .inl ⟨error, rfl⟩
  | ok a => exact rest a read

/-- What `perform_reorg` has done when it returns a verdict. -/
structure Reorganized (engine : StryiConsensusEngine DB) (lca : BlockHash)
    (forkBlocks : List Block) (verdict : ConsensusVerdict) (engine' : StryiConsensusEngine DB) :
    Prop where
  done : ∃ lcaWork works delta result db, engine.chainIndex.work lca = some lcaWork ∧
    branchWork lcaWork forkBlocks = .ok works ∧
    prepareDelta engine.chainIndex engine.db lca forkBlocks = .ok delta ∧
    commitTransition engine.db (.reorganize delta) = .ok (result, db) ∧
    verdict = .causedReorganization ⟨result.newHead, result.chainWork, forkBlocks,
      result.detached⟩ ∧
    engine' = { engine with
      db
      chainIndex := reindex engine.chainIndex result.detached (forkBlocks.zip works)
      forks := pruneForks (reindex engine.chainIndex result.detached (forkBlocks.zip works))
        engine.forks }

theorem performReorg_run (faults : Faults) (lca : BlockHash) (forkBlocks : List Block)
    (engine : StryiConsensusEngine DB) :
    (∃ error, performReorg faults lca forkBlocks engine = .error error engine) ∨
    ∃ verdict engine', performReorg faults lca forkBlocks engine = .ok verdict engine' ∧
      Reorganized engine lca forkBlocks verdict engine' := by
  rw [performReorg, EngineM.get_bind_run]
  refine ends_after_lift fun lcaWork found => ends_after_lift fun works added =>
    ends_after_lift fun delta prepared => ?_
  rw [EngineM.bind_run]
  rcases commit_run faults (.reorganize delta) engine with ⟨error, failed⟩ |
    ⟨result, db, committed, commits⟩
  · exact .inl ⟨error, by rw [failed]⟩
  · rw [commits]
    rw [okOr_eq_ok] at found
    exact .inr ⟨_, _, rfl, ⟨lcaWork, works, delta, result, db, found, added,
      readPhase_eq_ok prepared, committed, rfl, rfl⟩⟩

/-- Everything that a call of `on_block` which returns a verdict can have done. -/
inductive Step (engine : StryiConsensusEngine DB) (nowSecs : UInt64) (block : Block) :
    ConsensusVerdict → StryiConsensusEngine DB → Prop
  | rejected (error : StryiCoreError) : Step engine nowSecs block (.rejected error) engine
  | included (held : engine.classifyBlock block = .known .canonicalChain) :
      Step engine nowSecs block .alreadyIncludedInChain engine
  | known (held : engine.classifyBlock block = .known .forkTree) :
      Step engine nowSecs block .alreadyKnownInForkTree engine
  | orphan {parent : BlockHash} (orphan : engine.classifyBlock block = .orphan parent) :
      Step engine nowSecs block .buffered engine
  | applied {tip : TipInfo} {result : ChainTransitionResult} {db : DB}
      (shape : verifyGenesisWorkShape block = .ok ()) (height : engine.validateHeight block = true)
      (extends' : engine.classifyBlock block = .extendsCanonical)
      (valid : engine.blockValidator.validate nowSecs block engine.db = .ok ())
      (top : engine.chainIndex.tip = some tip)
      (committed : commitTransition engine.db (.append block) = .ok (result, db)) :
      Step engine nowSecs block
        (.applied ⟨result.newHead, result.chainWork, [block], result.detached⟩)
        { engine with db, chainIndex := engine.chainIndex.insert block (tip.work + block.work) }
  | forked {lca : BlockHash} {lcaWork : Nat} {overlay : ForkDbOverlay DB} {tip : TipInfo}
      (shape : verifyGenesisWorkShape block = .ok ()) (height : engine.validateHeight block = true)
      (creates : engine.classifyBlock block = .createsForkFromCanonical lca)
      (work : engine.chainIndex.work lca = some lcaWork)
      (view : buildForkOverlay engine.chainIndex engine.db lca = .ok overlay)
      (valid : engine.blockValidator.validate nowSecs block overlay = .ok ())
      (top : engine.chainIndex.tip = some tip) (light : lcaWork + block.work ≤ tip.work) :
      Step engine nowSecs block .buffered
        { engine with
          forks := ForkRegistry.insert engine.forks
            ⟨block.blockHash, lcaWork + block.work, lca, [block]⟩ }
  | extended {lca : BlockHash} {entry : ForkEntry} {rewound overlay : ForkDbOverlay DB}
      {tip : TipInfo}
      (shape : verifyGenesisWorkShape block = .ok ()) (height : engine.validateHeight block = true)
      (extends' : engine.classifyBlock block =
        .extendsFork block.header.previousBlockHash lca)
      (found : ForkRegistry.get engine.forks block.header.previousBlockHash = some entry)
      (view : buildForkOverlay engine.chainIndex engine.db entry.commonAncestor = .ok rewound)
      (replayed : replayAll .other rewound entry.blocks = .ok overlay)
      (valid : engine.blockValidator.validate nowSecs block overlay = .ok ())
      (top : engine.chainIndex.tip = some tip)
      (light : entry.cumulativeWork + block.work ≤ tip.work) :
      Step engine nowSecs block .buffered
        { engine with
          forks := ForkRegistry.insert
            (ForkRegistry.remove engine.forks block.header.previousBlockHash)
            ⟨block.blockHash, entry.cumulativeWork + block.work, entry.commonAncestor,
              entry.blocks ++ [block]⟩ }
  | replaced {lca : BlockHash} {lcaWork : Nat} {overlay : ForkDbOverlay DB} {tip : TipInfo}
      {verdict : ConsensusVerdict} {engine' : StryiConsensusEngine DB}
      (shape : verifyGenesisWorkShape block = .ok ()) (height : engine.validateHeight block = true)
      (creates : engine.classifyBlock block = .createsForkFromCanonical lca)
      (work : engine.chainIndex.work lca = some lcaWork)
      (view : buildForkOverlay engine.chainIndex engine.db lca = .ok overlay)
      (valid : engine.blockValidator.validate nowSecs block overlay = .ok ())
      (top : engine.chainIndex.tip = some tip) (heavy : tip.work < lcaWork + block.work)
      (reorganized : Reorganized engine lca [block] verdict engine') :
      Step engine nowSecs block verdict engine'
  | overtaken {lca : BlockHash} {entry : ForkEntry} {rewound overlay : ForkDbOverlay DB}
      {tip : TipInfo} {verdict : ConsensusVerdict} {engine' : StryiConsensusEngine DB}
      (shape : verifyGenesisWorkShape block = .ok ()) (height : engine.validateHeight block = true)
      (extends' : engine.classifyBlock block =
        .extendsFork block.header.previousBlockHash lca)
      (found : ForkRegistry.get engine.forks block.header.previousBlockHash = some entry)
      (view : buildForkOverlay engine.chainIndex engine.db entry.commonAncestor = .ok rewound)
      (replayed : replayAll .other rewound entry.blocks = .ok overlay)
      (valid : engine.blockValidator.validate nowSecs block overlay = .ok ())
      (top : engine.chainIndex.tip = some tip)
      (heavy : tip.work < entry.cumulativeWork + block.work)
      (reorganized : Reorganized engine entry.commonAncestor (entry.blocks ++ [block]) verdict
        engine') :
      Step engine nowSecs block verdict
        { engine' with
          forks := ForkRegistry.remove engine'.forks block.header.previousBlockHash }

/-- The outcome of a call: an error that has changed nothing, or a step. -/
def Outcome (engine : StryiConsensusEngine DB) (nowSecs : UInt64) (block : Block)
    (result : EStateM.Result StryiCoreError (StryiConsensusEngine DB) ConsensusVerdict) : Prop :=
  (∃ error, result = .error error engine) ∨
    ∃ verdict engine', result = .ok verdict engine' ∧ Step engine nowSecs block verdict engine'

omit [Primitives] in
theorem judge_eq_ok_none {outcome : Except StryiCoreError Unit} :
    judge outcome = .ok none ↔ outcome = .ok () := by
  unfold judge
  split
  · simp
  · split <;> simp

theorem handleExtendCanonical_run (shape : verifyGenesisWorkShape block = .ok ())
    (height : engine.validateHeight block = true)
    (extends' : engine.classifyBlock block = .extendsCanonical) :
    Outcome engine nowSecs block (handleExtendCanonical nowSecs faults block engine) := by
  rw [handleExtendCanonical, EngineM.get_bind_run]
  refine ends_after_lift fun verdict checked => ?_
  cases verdict with
  | some error => exact .inr ⟨_, _, rfl, .rejected error⟩
  | none =>
    have valid := judge_eq_ok_none.mp (readPhase_eq_ok checked)
    refine ends_after_lift fun tip top => ends_after_lift fun work own =>
      ends_after_lift fun total added => ?_
    rw [expectTip, okOr_eq_ok] at top
    obtain ⟨-, rfl⟩ := verifiedBlockWork_eq_ok.mp own
    obtain ⟨-, rfl⟩ := addWork_eq_ok.mp added
    rw [EngineM.bind_run]
    rcases commit_run faults (.append block) engine with ⟨error, failed⟩ |
      ⟨result, db, committed, commits⟩
    · exact .inl ⟨error, by rw [failed]⟩
    · rw [commits]
      exact .inr ⟨_, _, rfl, .applied shape height extends' valid top committed⟩

theorem handleCreatesForkFromCanonical_run {lca : BlockHash}
    (shape : verifyGenesisWorkShape block = .ok ()) (height : engine.validateHeight block = true)
    (creates : engine.classifyBlock block = .createsForkFromCanonical lca) :
    Outcome engine nowSecs block
      (handleCreatesForkFromCanonical nowSecs faults block lca engine) := by
  rw [handleCreatesForkFromCanonical, EngineM.get_bind_run]
  refine ends_after_lift fun lcaWork found => ends_after_lift fun verdict checked => ?_
  rw [okOr_eq_ok] at found
  cases verdict with
  | some error => exact .inr ⟨_, _, rfl, .rejected error⟩
  | none =>
    have phase := readPhase_eq_ok checked
    rw [checkNewFork, bind_eq_ok] at phase
    obtain ⟨overlay, view, judged⟩ := phase
    have valid := judge_eq_ok_none.mp judged
    refine ends_after_lift fun work own => ends_after_lift fun total added =>
      ends_after_lift fun tip top => ?_
    obtain ⟨-, rfl⟩ := verifiedBlockWork_eq_ok.mp own
    obtain ⟨-, rfl⟩ := addWork_eq_ok.mp added
    rw [expectTip, okOr_eq_ok] at top
    by_cases heavy : tip.work < lcaWork + block.work
    · rw [if_pos heavy]
      rcases performReorg_run faults lca [block] engine with ⟨error, failed⟩ |
        ⟨verdict, engine', done, reorganized⟩
      · exact .inl ⟨error, failed⟩
      · exact .inr ⟨_, _, done,
          .replaced shape height creates found view valid top heavy reorganized⟩
    · rw [if_neg heavy]
      exact .inr ⟨_, _, rfl, .forked shape height creates found view valid top (by omega)⟩

theorem handleExtendsFork_run {lca : BlockHash}
    (shape : verifyGenesisWorkShape block = .ok ()) (height : engine.validateHeight block = true)
    (extends' : engine.classifyBlock block = .extendsFork block.header.previousBlockHash lca) :
    Outcome engine nowSecs block (handleExtendsFork nowSecs faults block engine) := by
  rw [handleExtendsFork, EngineM.get_bind_run]
  refine ends_after_lift fun entry found => ends_after_lift fun verdict checked => ?_
  rw [okOr_eq_ok] at found
  cases verdict with
  | some error => exact .inr ⟨_, _, rfl, .rejected error⟩
  | none =>
    have phase := readPhase_eq_ok checked
    simp only [checkFork, bind_eq_ok] at phase
    obtain ⟨rewound, view, overlay, replayed, judged⟩ := phase
    have valid := judge_eq_ok_none.mp judged
    refine ends_after_lift fun work own => ends_after_lift fun total added =>
      ends_after_lift fun tip top => ?_
    obtain ⟨-, rfl⟩ := verifiedBlockWork_eq_ok.mp own
    obtain ⟨-, rfl⟩ := addWork_eq_ok.mp added
    rw [expectTip, okOr_eq_ok] at top
    by_cases heavy : tip.work < entry.cumulativeWork + block.work
    · rw [if_pos heavy, EngineM.bind_run]
      rcases performReorg_run faults entry.commonAncestor (entry.blocks ++ [block])
        engine with ⟨error, failed⟩ | ⟨verdict, engine', done, reorganized⟩
      · exact .inl ⟨error, by rw [failed]⟩
      · rw [done]
        exact .inr ⟨_, _, rfl, .overtaken shape height extends' found view replayed valid top
          heavy reorganized⟩
    · rw [if_neg heavy]
      exact .inr ⟨_, _, rfl, .extended shape height extends' found view replayed valid top
        (by omega)⟩

/-- The block has passed header, structure and transactions on the view of its own branch: the
canonical storage, the overlay at its parent, or the overlay with the branch of its parent. -/
def Validated (engine : StryiConsensusEngine DB) (nowSecs : UInt64) (b : Block) : Prop :=
  match engine.classifyBlock b with
  | .extendsCanonical => engine.blockValidator.validate nowSecs b engine.db = .ok ()
  | .createsForkFromCanonical lca => ∃ overlay,
      buildForkOverlay engine.chainIndex engine.db lca = .ok overlay ∧
      engine.blockValidator.validateForFork nowSecs b overlay = .ok ()
  | .extendsFork parent _ => ∃ entry rewound overlay,
      ForkRegistry.get engine.forks parent = some entry ∧
      buildForkOverlay engine.chainIndex engine.db entry.commonAncestor = .ok rewound ∧
      replayAll .other rewound entry.blocks = .ok overlay ∧
      engine.blockValidator.validateForFork nowSecs b overlay = .ok ()
  | .known _ | .orphan _ => False

/-- The block is neither canonical nor part of a branch. -/
structure Unknown (engine : StryiConsensusEngine DB) (block : Block) : Prop where
  index : engine.chainIndex.has block.blockHash = false
  tips : ForkRegistry.has engine.forks block.blockHash = false
  blocks : ForkRegistry.hasBlock engine.forks block.blockHash = false

omit [FullNodeStorage DB] in
/-- What each disposition says. -/
theorem classifyBlock_spec (engine : StryiConsensusEngine DB) (block : Block) :
    match engine.classifyBlock block with
    | .known _ => True
    | .extendsCanonical => Unknown engine block ∧
        engine.chainIndex.tip.any (fun tip => block.header.previousBlockHash = tip.hash) = true
    | .createsForkFromCanonical lca => Unknown engine block ∧
        lca = block.header.previousBlockHash ∧ engine.chainIndex.has lca = true
    | .extendsFork parent lca => Unknown engine block ∧ parent = block.header.previousBlockHash ∧
        engine.chainIndex.has parent = false ∧
        ∃ entry, ForkRegistry.get engine.forks parent = some entry ∧ lca = entry.commonAncestor
    | .orphan parent => Unknown engine block ∧ parent = block.header.previousBlockHash ∧
        engine.chainIndex.has parent = false ∧ ForkRegistry.get engine.forks parent = none := by
  unfold classifyBlock
  dsimp only
  by_cases canonical : engine.chainIndex.has block.blockHash = true
  · rw [if_pos canonical]
    trivial
  rw [if_neg canonical]
  by_cases held : ForkRegistry.has engine.forks block.blockHash = true ∨
      ForkRegistry.hasBlock engine.forks block.blockHash = true
  · rw [if_pos held]
    trivial
  rw [if_neg held]
  rw [not_or, Bool.not_eq_true, Bool.not_eq_true] at held
  rw [Bool.not_eq_true] at canonical
  have unknown : Unknown engine block := ⟨canonical, held.1, held.2⟩
  by_cases above : engine.chainIndex.tip.any
      (fun tip => block.header.previousBlockHash = tip.hash) = true
  · rw [if_pos above]
    exact ⟨unknown, above⟩
  rw [if_neg above]
  by_cases parent : engine.chainIndex.has block.header.previousBlockHash = true
  · rw [if_pos parent]
    exact ⟨unknown, rfl, parent⟩
  rw [if_neg parent]
  rw [Bool.not_eq_true] at parent
  cases found : ForkRegistry.get engine.forks block.header.previousBlockHash with
  | some entry => exact ⟨unknown, rfl, parent, entry, found, rfl⟩
  | none => exact ⟨unknown, rfl, parent, found⟩

/-- A call of `on_block` is a step, or an error that has changed nothing. -/
theorem onBlock_outcome (engine : StryiConsensusEngine DB) (nowSecs : UInt64) (faults : Faults)
    (block : Block) : Outcome engine nowSecs block (onBlock nowSecs faults block engine) := by
  rw [onBlock, EngineM.get_bind_run]
  cases shape : verifyGenesisWorkShape block with
  | error error => exact .inr ⟨_, _, rfl, .rejected error⟩
  | ok _ =>
    dsimp only
    by_cases height : engine.validateHeight block = false
    · rw [if_pos height]
      exact .inr ⟨_, _, rfl, .rejected _⟩
    · rw [if_neg height]
      rw [Bool.not_eq_false] at height
      cases class' : engine.classifyBlock block with
      | known location =>
        cases location with
        | canonicalChain => exact .inr ⟨_, _, rfl, .included class'⟩
        | forkTree => exact .inr ⟨_, _, rfl, .known class'⟩
      | extendsCanonical => exact handleExtendCanonical_run shape height class'
      | createsForkFromCanonical lca =>
        exact handleCreatesForkFromCanonical_run shape height class'
      | extendsFork parent lca =>
        have spec := classifyBlock_spec engine block
        rw [class'] at spec
        rw [spec.2.1] at class'
        exact handleExtendsFork_run shape height class'
      | orphan parent => exact .inr ⟨_, _, rfl, .orphan class'⟩

theorem onBlock_ok {verdict : ConsensusVerdict}
    (run : onBlock nowSecs faults block engine = .ok verdict engine') :
    Step engine nowSecs block verdict engine' := by
  rcases onBlock_outcome engine nowSecs faults block with ⟨error, failed⟩ | ⟨v, e, done, step⟩
  · rw [failed] at run
    cases run
  · rw [done] at run
    cases run
    exact step

theorem onBlock_error (run : onBlock nowSecs faults block engine = .error error engine') :
    engine' = engine := by
  rcases onBlock_outcome engine nowSecs faults block with ⟨error, failed⟩ | ⟨v, e, done, step⟩
  · rw [failed] at run
    cases run
    rfl
  · rw [done] at run
    cases run

/-- A block that is known already or has no known parent changes nothing. -/
theorem Step.idle {verdict : ConsensusVerdict}
    (idle : (∃ location, engine.classifyBlock block = .known location) ∨
      ∃ parent, engine.classifyBlock block = .orphan parent)
    (step : Step engine nowSecs block verdict engine') : engine' = engine := by
  have contradiction : ∀ {disposition : BlockDisposition},
      engine.classifyBlock block = disposition → (∀ location, disposition ≠ .known location) →
      (∀ parent, disposition ≠ .orphan parent) → False := by
    rintro disposition rfl known orphan
    rcases idle with ⟨location, held⟩ | ⟨parent, lost⟩
    · exact known location held
    · exact orphan parent lost
  cases step with
  | rejected error => rfl
  | included held => rfl
  | known held => rfl
  | orphan orphan => rfl
  | applied shape height extends' => exact (contradiction extends' nofun nofun).elim
  | forked shape height creates => exact (contradiction creates nofun nofun).elim
  | extended shape height extends' => exact (contradiction extends' nofun nofun).elim
  | replaced shape height creates => exact (contradiction creates nofun nofun).elim
  | overtaken shape height extends' => exact (contradiction extends' nofun nofun).elim

section Rejections

/-- Part of a handler that rejects nothing. -/
def Spares (x : EngineM DB ConsensusVerdict) : Prop :=
  ∀ engine error engine', x engine ≠ .ok (.rejected error) engine'

omit [Primitives] [FullNodeStorage DB] in
theorem Spares.pure {verdict : ConsensusVerdict} (kept : ∀ error, verdict ≠ .rejected error) :
    Spares (Pure.pure verdict : EngineM DB ConsensusVerdict) := by
  intro engine error engine' run
  cases run
  exact kept error rfl

omit [Primitives] [FullNodeStorage DB] in
/-- What comes after a part that returns. -/
theorem Spares.afterOk {α : Type} {x : EngineM DB α} {f : α → EngineM DB ConsensusVerdict}
    (rest : ∀ engine a reached, x engine = .ok a reached → Spares (f a)) : Spares (x >>= f) := by
  intro engine error engine' run
  rw [EngineM.bind_run] at run
  cases first : x engine with
  | error error reached =>
    rw [first] at run
    cases run
  | ok a reached =>
    rw [first] at run
    exact rest engine a reached first reached error engine' run

omit [Primitives] [FullNodeStorage DB] in
theorem Spares.bind {α : Type} {x : EngineM DB α} {f : α → EngineM DB ConsensusVerdict}
    (rest : ∀ a, Spares (f a)) : Spares (x >>= f) :=
  .afterOk fun _ a _ _ => rest a

omit [Primitives] [FullNodeStorage DB] in
/-- A verdict is handed on. -/
theorem Spares.andThen {x : EngineM DB ConsensusVerdict}
    {f : ConsensusVerdict → EngineM DB ConsensusVerdict} (spares : Spares x)
    (rest : ∀ verdict, (∀ error, verdict ≠ .rejected error) → Spares (f verdict)) :
    Spares (x >>= f) := by
  refine .afterOk fun engine verdict reached run => rest verdict ?_
  rintro error rfl
  exact spares engine error reached run

omit [Primitives] [FullNodeStorage DB] in
/-- After a check that finds no fault with the block only the rest matters. -/
theorem Spares.checked {check : Except StryiCoreError (Option StryiCoreError)}
    {fault : Option (StorageLayer × StorageError)}
    {f : Option StryiCoreError → EngineM DB ConsensusVerdict} (valid : check = .ok none)
    (rest : Spares (f none)) : Spares (EngineM.lift (readPhase fault check) >>= f) := by
  refine .afterOk fun engine found reached run => ?_
  rw [EngineM.lift_run] at run
  cases phase : readPhase fault check with
  | error error =>
    rw [phase] at run
    cases run
  | ok same =>
    rw [phase] at run
    cases run
    obtain rfl : none = found := Except.ok.inj (valid.symm.trans (readPhase_eq_ok phase))
    exact rest

theorem performReorg_spares (faults : Faults) (lca : BlockHash) (bs : List Block) :
    Spares (performReorg faults lca bs : EngineM DB ConsensusVerdict) := by
  unfold performReorg
  refine .bind fun engine => .bind fun lcaWork => .bind fun works => .bind fun delta =>
    .bind fun transition => .bind fun _ => .bind fun _ => .pure ?_
  intro error same
  cases same

/-- A handler whose check passes rejects nothing. -/
theorem handleExtendCanonical_spares
    (valid : engine.blockValidator.validate nowSecs block engine.db = .ok ()) :
    handleExtendCanonical nowSecs faults block engine ≠ .ok (.rejected error) engine' := by
  rw [handleExtendCanonical, EngineM.get_bind_run]
  refine Spares.checked (judge_eq_ok_none.mpr valid) ?_ engine error engine'
  refine .bind fun tip => .bind fun work => .bind fun cumulativeWork =>
    .bind fun transition => .bind fun _ => .pure ?_
  intro error same
  cases same

theorem handleCreatesForkFromCanonical_spares {lca : BlockHash}
    (valid : checkNewFork engine.blockValidator engine.chainIndex engine.db nowSecs block lca =
      .ok none) :
    handleCreatesForkFromCanonical nowSecs faults block lca engine ≠
      .ok (.rejected error) engine' := by
  rw [handleCreatesForkFromCanonical, EngineM.get_bind_run]
  refine Spares.bind (fun lcaWork => .checked valid ?_) engine error engine'
  refine .bind fun work => .bind fun forkWork => .bind fun tip => ?_
  split
  · exact performReorg_spares faults lca [block]
  · refine .bind fun _ => .pure ?_
    intro error same
    cases same

theorem handleExtendsFork_spares {e : ForkEntry}
    (found : ForkRegistry.get engine.forks block.header.previousBlockHash = some e)
    (valid : checkFork engine.blockValidator engine.chainIndex engine.db nowSecs block e =
      .ok none) :
    handleExtendsFork nowSecs faults block engine ≠ .ok (.rejected error) engine' := by
  rw [handleExtendsFork, EngineM.get_bind_run, EngineM.lift_bind_run,
    (okOr_eq_ok _ _ _).mpr found]
  refine Spares.checked valid ?_ engine error engine'
  refine .bind fun work => .bind fun forkWork => .bind fun tip => ?_
  have buffered : ∀ error, ConsensusVerdict.buffered ≠ .rejected error := by
    intro error same
    cases same
  split
  · exact (performReorg_spares faults _ _).andThen fun verdict kept => .bind fun _ => .pure kept
  · exact .bind fun _ => .bind fun _ => .pure buffered

/-- A block that passes every check is not rejected, wherever the backend fails. -/
theorem onBlock_spares (shape : verifyGenesisWorkShape block = .ok ())
    (height : engine.validateHeight block = true) (valid : Validated engine nowSecs block) :
    onBlock nowSecs faults block engine ≠ .ok (.rejected error) engine' := by
  rw [onBlock, EngineM.get_bind_run, shape]
  dsimp only
  rw [if_neg (by rw [height]; decide)]
  cases class' : engine.classifyBlock block with
  | known location =>
    rw [Validated, class'] at valid
    exact valid.elim
  | orphan parent =>
    rw [Validated, class'] at valid
    exact valid.elim
  | extendsCanonical =>
    rw [Validated, class'] at valid
    exact handleExtendCanonical_spares valid
  | createsForkFromCanonical lca =>
    rw [Validated, class'] at valid
    obtain ⟨overlay, view, passes⟩ := valid
    apply handleCreatesForkFromCanonical_spares
    rw [checkNewFork, view, bind_ok]
    exact judge_eq_ok_none.mpr passes
  | extendsFork parent lca =>
    have spec := classifyBlock_spec engine block
    rw [class'] at spec
    rw [Validated, class'] at valid
    obtain ⟨e, rewound, overlay, found, view, replayed, passes⟩ := valid
    rw [spec.2.1] at found
    apply handleExtendsFork_spares found
    rw [checkFork, view, bind_ok, replayed, bind_ok]
    exact judge_eq_ok_none.mpr passes

end Rejections

section Atomicity

/-- What a buffered block may do to the registry: nothing, enter as an entry of its own, or extend
one entry, which moves under its new tip. -/
def RegistryGrows (forks : ForkRegistry) (block : Block) (forks' : ForkRegistry) : Prop :=
  forks' = forks ∨
  (∃ entry : ForkEntry, entry.blocks = [block] ∧ entry.tip = block.blockHash ∧
    forks.read block.blockHash = none ∧
    forks'.read = Function.update forks.read block.blockHash (some entry)) ∨
  ∃ (key : BlockHash) (entry extended : ForkEntry), forks.read key = some entry ∧
    forks.read block.blockHash = none ∧ extended.tip = block.blockHash ∧
    extended.commonAncestor = entry.commonAncestor ∧
    extended.blocks = entry.blocks ++ [block] ∧
    forks'.read = Function.update (Function.update forks.read key none) block.blockHash
      (some extended)

/-- What a verdict says about the engine after the call. -/
def Undisturbed (engine : StryiConsensusEngine DB) (block : Block) (verdict : ConsensusVerdict)
    (engine' : StryiConsensusEngine DB) : Prop :=
  match verdict with
  | .rejected _ | .alreadyIncludedInChain | .alreadyKnownInForkTree => engine' = engine
  | .buffered => engine'.db = engine.db ∧ engine'.chainIndex = engine.chainIndex ∧
      RegistryGrows engine.forks block engine'.forks
  | .applied _ | .causedReorganization _ => True

theorem Step.undisturbed {verdict : ConsensusVerdict}
    (step : Step engine nowSecs block verdict engine') :
    Undisturbed engine block verdict engine' := by
  have absent : Unknown engine block → engine.forks.read block.blockHash = none := by
    intro unknown
    have tips := unknown.tips
    rw [ForkRegistry.has] at tips
    simpa using tips
  have spec := classifyBlock_spec engine block
  cases step with
  | rejected error => rfl
  | included => rfl
  | known => rfl
  | orphan orphan => exact ⟨rfl, rfl, .inl rfl⟩
  | applied shape height extends' valid top committed => trivial
  | @forked lca lcaWork overlay tip shape height creates work view valid top light =>
    rw [creates] at spec
    exact ⟨rfl, rfl, .inr (.inl ⟨⟨block.blockHash, lcaWork + block.work, lca, [block]⟩, rfl, rfl,
      absent spec.1, Table.read_insert _ _ _⟩)⟩
  | @extended lca entry rewound overlay tip shape height extends' found view replayed valid top
      light =>
    rw [extends'] at spec
    refine ⟨rfl, rfl, .inr (.inr ⟨_, entry, ⟨block.blockHash, entry.cumulativeWork + block.work,
      entry.commonAncestor, entry.blocks ++ [block]⟩, found, absent spec.1, rfl, rfl, rfl, ?_⟩)⟩
    change Table.read (AList.insert _ _ (AList.erase _ _)) = _
    rw [Table.read_insert, Table.read_erase]
  | replaced shape height creates work view valid top heavy reorganized =>
    obtain ⟨-, -, -, -, -, -, -, -, -, rfl, -⟩ := reorganized.done
    trivial
  | overtaken shape height extends' found view replayed valid top heavy reorganized =>
    obtain ⟨-, -, -, -, -, -, -, -, -, rfl, -⟩ := reorganized.done
    trivial

/-- A call that returns an error, a rejection or a known block changes nothing, wherever the
backend fails; a call that buffers the block changes the registry at most, and there only by this
block. -/
theorem onBlock_atomic (engine : StryiConsensusEngine DB) (nowSecs : UInt64) (faults : Faults)
    (block : Block) :
    match onBlock nowSecs faults block engine with
    | .error _ engine' => engine' = engine
    | .ok verdict engine' => Undisturbed engine block verdict engine' := by
  cases run : onBlock nowSecs faults block engine with
  | error error engine' => exact onBlock_error run
  | ok verdict engine' => exact (onBlock_ok run).undisturbed

end Atomicity

end StryiChain
