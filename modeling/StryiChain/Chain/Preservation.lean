import StryiChain.Chain.Invariant

/-!
# Every step keeps the invariant

One lemma for each kind of step: an appended block, a new branch, an extended branch, and a
branch that replaces the top of the canonical chain.
-/

namespace StryiChain

open LawfulStorage StryiConsensusEngine

variable [Primitives] {DB : Type} [FullNodeStorage DB] [LawfulStorage DB]
  {engine engine' : StryiConsensusEngine DB} {g b a : Block} {w p q bs : List Block}
  {nowSecs : UInt64} {verdict : ConsensusVerdict}

section Delivered

omit [Primitives] in
/-- Only genesis sits at height zero. -/
theorem normal_of_height (shape : verifyGenesisWorkShape b = .ok ())
    (pos : 0 < b.header.height.toNat) : b.header.isGenesis = false := by
  by_contra marked
  rw [Bool.not_eq_false] at marked
  simp only [verifyGenesisWorkShape, verifyGenesisHeaderWorkShape, failIf_eq_ok, marked, true_and,
    not_or, not_not] at shape
  rw [shape.1] at pos
  simp at pos

omit [FullNodeStorage DB] [LawfulStorage DB] in
/-- The index knows the height of a canonical block. -/
theorem IndexOf.height_eq {index : ChainIndex} (indexOf : IndexOf (p ++ q) index)
    (last : p.getLast? = some a) : index.height a.blockHash = some a.header.height := by
  rw [ChainIndex.height, indexOf.entry (getElem?_append_last last)]
  rfl

omit [FullNodeStorage DB] [LawfulStorage DB] in
/-- The height check against a canonical parent. -/
theorem validateHeight_canonical (indexOf : IndexOf (p ++ q) engine.chainIndex)
    (last : p.getLast? = some a) (parent : b.header.previousBlockHash = a.blockHash) :
    engine.validateHeight b = true ↔ b.header.height.toNat = a.header.height.toNat + 1 := by
  simp only [validateHeight, parent, indexOf.height_eq last, Option.some_or, Option.all_some,
    decide_eq_true_eq, checkedAdd_eq_some, UInt64.toNat_one]

omit [Primitives] [FullNodeStorage DB] [LawfulStorage DB] in
/-- The height check against the tip of a branch. -/
theorem validateHeight_fork {e : ForkEntry}
    (absent : engine.chainIndex.has b.header.previousBlockHash = false)
    (found : ForkRegistry.get engine.forks b.header.previousBlockHash = some e)
    (last : e.blocks.getLast? = some a) :
    engine.validateHeight b = true ↔ b.header.height.toNat = a.header.height.toNat + 1 := by
  have none : engine.chainIndex.height b.header.previousBlockHash = none := by
    rw [ChainIndex.has, Option.isSome_eq_false_iff, Option.isNone_iff_eq_none] at absent
    rw [ChainIndex.height, absent]
    rfl
  simp only [validateHeight, none, found, Option.none_or, Option.bind_some, last, Option.map_some,
    Option.all_some, decide_eq_true_eq, checkedAdd_eq_some, UInt64.toNat_one]

/-- The hash of a block that is not known yet is nowhere in the engine. -/
theorem Invariant.unknown (inv : Invariant g engine w) (unknown : Unknown engine b) :
    b.blockHash ∉ w.map Block.blockHash ∧ ∀ {key : BlockHash} {e : ForkEntry},
      engine.forks.read key = some e → ∀ a ∈ e.blocks, a.blockHash ≠ b.blockHash := by
  refine ⟨fun mem => ?_, hasBlock_eq_false.mp unknown.blocks⟩
  have absent := unknown.index
  rw [inv.canonical.indexOf.has_iff.mpr mem] at absent
  cases absent

end Delivered

/-- An appended block. -/
theorem Invariant.applied (inv : Invariant g engine w) {tip : TipInfo}
    {result : ChainTransitionResult} {db : DB}
    (extends' : engine.classifyBlock b = .extendsCanonical)
    (valid : engine.blockValidator.validate nowSecs b engine.db = .ok ())
    (top : engine.chainIndex.tip = some tip)
    (committed : commitTransition engine.db (.append b) = .ok (result, db)) :
    Invariant g { engine with
      db, chainIndex := engine.chainIndex.insert b (tip.work + b.work) } (w ++ [b]) ∧
      tables db = (tables engine.db).appended w b := by
  obtain ⟨sound, chain, represents, indexOf, applies, below⟩ := inv.canonical
  have spec := classifyBlock_spec engine b
  rw [extends'] at spec
  obtain ⟨new, apart⟩ := inv.unknown spec.1
  obtain ⟨follows, applicable, sound', tables', -⟩ :=
    append_eq_ok sound chain represents committed
  have chain' := chain.links follows.toLinks new
  have admitted := (validate_eq_ok (fun o => getUtxo_eq o sound) follows.normal.1 valid).2
  have work : tip.work + b.work = chainWork (w ++ [b]) := by
    rw [indexOf.tip, tipOf, Option.map_eq_some_iff] at top
    obtain ⟨last, -, rfl⟩ := top
    simp
  refine ⟨⟨⟨sound', chain', ?_, ?_, ?_, ?_⟩, inv.genesis, ?_, ?_, ?_, ?_⟩, tables'⟩
  · rw [tables']
    exact represents.appended chain' below applicable follows.room
  · rw [work]
    exact indexOf.insert chain'
  · rw [Coins.applies_append]
    exact ⟨applies, applicable.mono below, trivial⟩
  · rw [tables', Coins.ledger_concat]
    exact Coins.apply_mono below b
  · obtain ⟨rest, rfl⟩ := inv.first
    exact ⟨rest ++ [b], rfl⟩
  · exact inv.admissible.concat (admitted.mono below)
  · intro key e found
    obtain ⟨keyed, p, q, branches⟩ := inv.registry.entry found
    exact ⟨keyed, p, q ++ [b], branches.append (apart found)⟩
  · exact inv.registry.disjoint

section Candidate

variable {lca : BlockHash} {overlay : ForkDbOverlay DB}

/-- A block that validates over a replayed branch is admitted on its ledger. -/
theorem Canonical.admitted {index : ChainIndex} {s : DB} {validator : BlockValidator}
    (canonical : Canonical index s (p ++ q)) (replayed : overlay.Replayed s p q bs)
    (normal : b.header.isGenesis = false)
    (valid : validator.validate nowSecs b overlay = .ok ()) :
    b.Normal ∧ Admitted validator.consensusConsts (Coins.ledger (p ++ bs)) b := by
  have reads : Reads overlay overlay.coins := fun o => ForkDbOverlay.getUtxo_ok replayed.sound o
  obtain ⟨normal', admitted⟩ := validate_eq_ok reads normal valid
  refine ⟨normal', admitted.mono ?_⟩
  rw [replayed.coins_eq, Coins.ledger_append]
  exact Coins.applyAll_mono canonical.unwind_below bs

/-- A block on a canonical parent that validates over the rewound view is a branch. -/
theorem Invariant.newBranch (inv : Invariant g engine w)
    (shape : verifyGenesisWorkShape b = .ok ()) (height : engine.validateHeight b = true)
    (creates : engine.classifyBlock b = .createsForkFromCanonical lca)
    (view : buildForkOverlay engine.chainIndex engine.db lca = .ok overlay)
    (valid : engine.blockValidator.validate nowSecs b overlay = .ok ()) :
    ∃ p q, Branch engine.blockValidator.consensusConsts w p q [b] lca := by
  have spec := classifyBlock_spec engine b
  rw [creates] at spec
  obtain ⟨unknown, rfl, known⟩ := spec
  have indexOf := inv.canonical.indexOf
  obtain ⟨p, q, a, rfl, last, hash⟩ := exists_below (indexOf.has_iff.mp known)
  have above := (validateHeight_canonical indexOf last hash.symm).mp height
  rw [← hash] at view
  have replayed := buildForkOverlay_eq_ok inv.canonical last view
  obtain ⟨normal, admitted⟩ :=
    inv.canonical.admitted replayed (normal_of_height shape (by omega)) valid
  have ancestor : p.getLast?.map Block.blockHash = some b.header.previousBlockHash := by
    rw [last, Option.map_some, hash]
  have nil := Branch.nil inv.canonical.chain ancestor inv.admissible
  have links : Links (p ++ []) b := by
    rw [List.append_nil]
    refine ⟨⟨a, last, hash.symm⟩, normal, ?_⟩
    rw [above, (inv.canonical.chain.left nil.ne_nil).tip_height last]
  exact ⟨p, q, nil.concat links (inv.unknown unknown).1 (by simp) admitted⟩

/-- A block on the tip of a branch that validates over its replay extends the branch. -/
theorem Invariant.longerBranch (inv : Invariant g engine w) {e : ForkEntry}
    {rewound : ForkDbOverlay DB} (shape : verifyGenesisWorkShape b = .ok ())
    (height : engine.validateHeight b = true)
    (extends' : engine.classifyBlock b = .extendsFork b.header.previousBlockHash lca)
    (found : ForkRegistry.get engine.forks b.header.previousBlockHash = some e)
    (view : buildForkOverlay engine.chainIndex engine.db e.commonAncestor = .ok rewound)
    (replay : replayAll .other rewound e.blocks = .ok overlay)
    (valid : engine.blockValidator.validate nowSecs b overlay = .ok ()) :
    ∃ p q, Branches engine.blockValidator.consensusConsts w e p q ∧
      Branch engine.blockValidator.consensusConsts w p q (e.blocks ++ [b]) e.commonAncestor := by
  have spec := classifyBlock_spec engine b
  rw [extends'] at spec
  obtain ⟨unknown, -, absent, -⟩ := spec
  obtain ⟨keyed, p, q, branches⟩ := inv.registry.entry found
  obtain ⟨new, newer⟩ := inv.unknown unknown
  obtain ⟨top, last, hash⟩ := Option.map_eq_some_iff.mp branches.tip
  obtain ⟨a, ancestor, hash'⟩ := Option.map_eq_some_iff.mp branches.ancestor
  have above := (validateHeight_fork absent found last).mp height
  have canonical := inv.canonical
  rw [branches.split] at canonical
  rw [← hash'] at view
  have start := buildForkOverlay_eq_ok canonical ancestor view
  obtain ⟨-, -, replayed⟩ := replayAll_eq_ok start
    (by simpa using branches.chain.distinct)
    (by simpa using branches.chain.left branches.ne_nil) replay
  rw [List.nil_append] at replayed
  obtain ⟨normal, admitted⟩ :=
    canonical.admitted replayed (normal_of_height shape (by omega)) valid
  have whole : (p ++ e.blocks).getLast? = some top := by simp [List.getLast?_append, last]
  have links : Links (p ++ e.blocks) b := by
    refine ⟨⟨top, whole, ?_⟩, normal, ?_⟩
    · rw [hash, keyed]
    · rw [above, branches.chain.tip_height whole]
  exact ⟨p, q, branches, branches.toBranch.concat links new (newer found) admitted⟩

end Candidate

/-- The tip of the index carries the work of the chain. -/
theorem Invariant.tip_work (inv : Invariant g engine w) {tip : TipInfo}
    (top : engine.chainIndex.tip = some tip) : tip.work = chainWork w := by
  rw [inv.canonical.indexOf.tip, tipOf, Option.map_eq_some_iff] at top
  obtain ⟨last, -, rfl⟩ := top
  rfl

/-- The index knows the work below a branch. -/
theorem Invariant.lca_work (inv : Invariant g engine w) {lca : BlockHash} {lcaWork : Nat}
    (branch : Branch engine.blockValidator.consensusConsts w p q bs lca)
    (work : engine.chainIndex.work lca = some lcaWork) : lcaWork = chainWork p := by
  obtain ⟨a, last, rfl⟩ := Option.map_eq_some_iff.mp branch.ancestor
  have indexOf := inv.canonical.indexOf
  rw [branch.split] at indexOf
  rw [indexOf.work_eq last, Option.some.injEq] at work
  exact work.symm

/-- A block on a canonical parent that carries more work than what it replaces. -/
theorem Invariant.heavier_new (inv : Invariant g engine w) {lca : BlockHash} {lcaWork : Nat}
    {tip : TipInfo} (branch : Branch engine.blockValidator.consensusConsts w p q [b] lca)
    (work : engine.chainIndex.work lca = some lcaWork) (top : engine.chainIndex.tip = some tip)
    (heavy : tip.work < lcaWork + b.work) : chainWork w < chainWork (p ++ [b]) := by
  rw [inv.tip_work top, inv.lca_work branch work] at heavy
  simpa using heavy

/-- A block that makes a branch heavier than the canonical chain. -/
theorem Invariant.heavier_longer (inv : Invariant g engine w) {e : ForkEntry} {tip : TipInfo}
    (branches : Branches engine.blockValidator.consensusConsts w e p q)
    (top : engine.chainIndex.tip = some tip) (heavy : tip.work < e.cumulativeWork + b.work) :
    chainWork w < chainWork (p ++ (e.blocks ++ [b])) := by
  rw [inv.tip_work top, branches.work] at heavy
  rw [← List.append_assoc, chainWork_append (p ++ e.blocks)]
  simpa using heavy

/-- The registry may be exchanged for another one that is in order. -/
theorem Invariant.withForks (inv : Invariant g engine w) {forks : ForkRegistry}
    (ok : RegistryOk engine.blockValidator.consensusConsts w forks) :
    Invariant g { engine with forks } w :=
  ⟨inv.canonical, inv.genesis, inv.first, inv.admissible, ok⟩

section Buffered

variable {lca : BlockHash} {overlay : ForkDbOverlay DB} {tip : TipInfo}

/-- A new branch. -/
theorem Invariant.forked (inv : Invariant g engine w) {lcaWork : Nat}
    (shape : verifyGenesisWorkShape b = .ok ()) (height : engine.validateHeight b = true)
    (creates : engine.classifyBlock b = .createsForkFromCanonical lca)
    (work : engine.chainIndex.work lca = some lcaWork)
    (view : buildForkOverlay engine.chainIndex engine.db lca = .ok overlay)
    (valid : engine.blockValidator.validate nowSecs b overlay = .ok ())
    (top : engine.chainIndex.tip = some tip) (light : lcaWork + b.work ≤ tip.work) :
    Invariant g { engine with
      forks := ForkRegistry.insert engine.forks
        ⟨b.blockHash, lcaWork + b.work, lca, [b]⟩ } w := by
  obtain ⟨p, q, branch⟩ := inv.newBranch shape height creates view valid
  have spec := classifyBlock_spec engine b
  rw [creates] at spec
  obtain ⟨-, newer⟩ := inv.unknown spec.1
  obtain rfl : lcaWork = chainWork p := inv.lca_work branch work
  rw [inv.tip_work top] at light
  refine inv.withForks (inv.registry.insert ⟨branch, rfl, ?_, light⟩ ?_)
  · simp
  · intro key e found a here a' there same
    rw [List.mem_singleton.mp here] at same
    exact newer found a' there same.symm

/-- A longer branch. -/
theorem Invariant.extended (inv : Invariant g engine w) {e : ForkEntry}
    {rewound : ForkDbOverlay DB} (shape : verifyGenesisWorkShape b = .ok ())
    (height : engine.validateHeight b = true)
    (extends' : engine.classifyBlock b = .extendsFork b.header.previousBlockHash lca)
    (found : ForkRegistry.get engine.forks b.header.previousBlockHash = some e)
    (view : buildForkOverlay engine.chainIndex engine.db e.commonAncestor = .ok rewound)
    (replay : replayAll .other rewound e.blocks = .ok overlay)
    (valid : engine.blockValidator.validate nowSecs b overlay = .ok ())
    (top : engine.chainIndex.tip = some tip) (light : e.cumulativeWork + b.work ≤ tip.work) :
    Invariant g { engine with
      forks := ForkRegistry.insert
        (ForkRegistry.remove engine.forks b.header.previousBlockHash)
        ⟨b.blockHash, e.cumulativeWork + b.work, e.commonAncestor, e.blocks ++ [b]⟩ } w := by
  obtain ⟨p, q, branches, branch⟩ :=
    inv.longerBranch shape height extends' found view replay valid
  have spec := classifyBlock_spec engine b
  rw [extends'] at spec
  obtain ⟨-, newer⟩ := inv.unknown spec.1
  rw [inv.tip_work top] at light
  refine inv.withForks ((inv.registry.remove b.header.previousBlockHash).insert
    ⟨branch, by simp, ?_, light⟩ ?_)
  · dsimp only
    rw [branches.work, ← List.append_assoc, chainWork_append (p ++ e.blocks)]
    simp
  · intro key e' held a here a' there same
    -- The blocks of the branch are in no other entry, and the new one is in none at all.
    obtain ⟨other, held⟩ := read_remove held
    rcases List.mem_append.mp here with old | last
    · exact other (inv.registry.disjoint held found there old same.symm)
    · rw [List.mem_singleton.mp last] at same
      exact newer held a' there same.symm

end Buffered

section Reorganized

variable {lca : BlockHash}

/-- The entries that survive a reorganization are branches of the new chain. -/
theorem RegistryOk.reorganized {rules : ConsensusConsts} {forks : ForkRegistry}
    {index : ChainIndex} (ok : RegistryOk rules (p ++ q) forks) (chain : IsChain (p ++ q))
    (branch : Branch rules (p ++ q) p q bs lca) (indexOf : IndexOf (p ++ bs) index)
    (heavier : chainWork (p ++ q) ≤ chainWork (p ++ bs)) :
    RegistryOk rules (p ++ bs) (pruneForks index forks) := by
  have kept : ∀ {key : BlockHash} {e : ForkEntry}, (pruneForks index forks).read key = some e →
      forks.read key = some e ∧ ¬ Stale index e :=
    fun found => (pruneForks_read fun held => (ok.entry held).1).mp found
  refine ⟨fun {key e} found => ?_,
    fun found found' => ok.disjoint (kept found).1 (kept found').1⟩
  obtain ⟨held, live⟩ := kept found
  obtain ⟨keyed, p', q', branches⟩ := ok.entry held
  rw [Stale, not_or, Bool.not_eq_false, Bool.not_eq_true, List.any_eq_false] at live
  have apart : ∀ b ∈ e.blocks, b.blockHash ∉ (p ++ bs).map Block.blockHash := fun b mem inside =>
    live.2 b mem (indexOf.has_iff.mpr inside)
  obtain ⟨q'', branches'⟩ := branches.reorganize chain branch.apart
    (indexOf.has_iff.mp live.1) apart heavier
  exact ⟨keyed, p', q'', branches'⟩

/-- What a prepared branch replaces in the storage of the engine. -/
theorem Invariant.replacement (inv : Invariant g engine w)
    (branch : Branch engine.blockValidator.consensusConsts w p q bs lca) (ne : bs ≠ [])
    {delta : ForkDbDelta}
    (prepared : prepareDelta engine.chainIndex engine.db lca bs = .ok delta) :
    Replacement engine.db p q bs delta := by
  have canonical := inv.canonical
  rw [branch.split] at canonical
  obtain ⟨a, last, rfl⟩ := Option.map_eq_some_iff.mp branch.ancestor
  exact prepareDelta_eq_ok canonical last branch.chain.distinct ne prepared

/-- A branch that replaces the top of the canonical chain. -/
theorem Invariant.reorganized (inv : Invariant g engine w)
    (branch : Branch engine.blockValidator.consensusConsts w p q bs lca) (ne : bs ≠ [])
    (heavier : chainWork w < chainWork (p ++ bs))
    (reorganized : Reorganized engine lca bs verdict engine') :
    Invariant g engine' (p ++ bs) ∧ (p ++ bs).length < 2 ^ 64 ∧
      tables engine'.db = (tables engine.db).reorganized p q bs := by
  obtain ⟨lcaWork, works, delta, result, db, work, branchWorks, prepared, committed, rfl, rfl⟩ :=
    reorganized.done
  obtain rfl := inv.lca_work branch work
  have replacement := inv.replacement branch ne prepared
  obtain rfl := branch.split
  have nep := branch.ne_nil
  have chain := branch.chain
  have canonical := inv.canonical
  obtain ⟨sound', tables', room, detached, -, -⟩ := reorganize_eq_ok replacement committed
  have indexOf := canonical.indexOf.reindex canonical.chain chain nep branchWorks
  rw [← detached] at indexOf
  obtain ⟨rest, first⟩ : ∃ rest, p = g :: rest := by
    obtain ⟨rest, first⟩ := inv.first
    obtain ⟨b, front, rfl⟩ := List.exists_cons_of_ne_nil nep
    rw [List.cons_append, List.cons.injEq] at first
    exact ⟨front, by rw [first.1]⟩
  refine ⟨⟨⟨sound', chain, ?_, indexOf, ?_, ?_⟩, inv.genesis, ⟨rest ++ bs, by rw [first]; rfl⟩,
    branch.admissible, ?_⟩, room, tables'⟩
  · rw [tables']
    exact canonical.represents.reorganized canonical.chain chain nep room
  · have admissible := branch.admissible
    rw [first, List.cons_append] at admissible ⊢
    exact admissible.applies inv.genesis
  · rw [tables', Coins.ledger_append]
    exact Coins.applyAll_mono canonical.unwind_below bs
  · exact inv.registry.reorganized canonical.chain branch indexOf heavier.le

end Reorganized

/-- Where a block that does not extend the canonical tip leaves the canonical chain. -/
def forkRoot (engine : StryiConsensusEngine DB) (b : Block) : Option BlockHash :=
  match engine.classifyBlock b with
  | .createsForkFromCanonical lca => some lca
  | .extendsFork _ root => some root
  | _ => none

/-- The block passes the checks of its branch and makes it heavier than the canonical chain, which
the branch leaves at the given hash. -/
inductive Overtakes (engine : StryiConsensusEngine DB) (nowSecs : UInt64) (b : Block) :
    BlockHash → Prop
  | new {lca : BlockHash} {lcaWork : Nat} {tip : TipInfo}
      (shape : verifyGenesisWorkShape b = .ok ()) (height : engine.validateHeight b = true)
      (creates : engine.classifyBlock b = .createsForkFromCanonical lca)
      (valid : checkNewFork engine.blockValidator engine.chainIndex engine.db nowSecs b lca =
        .ok none)
      (work : engine.chainIndex.work lca = some lcaWork)
      (top : engine.chainIndex.tip = some tip) (heavy : tip.work < lcaWork + b.work) :
      Overtakes engine nowSecs b lca
  | longer {lca : BlockHash} {e : ForkEntry} {tip : TipInfo}
      (shape : verifyGenesisWorkShape b = .ok ()) (height : engine.validateHeight b = true)
      (extends' : engine.classifyBlock b = .extendsFork b.header.previousBlockHash lca)
      (found : ForkRegistry.get engine.forks b.header.previousBlockHash = some e)
      (valid : checkFork engine.blockValidator engine.chainIndex engine.db nowSecs b e = .ok none)
      (top : engine.chainIndex.tip = some tip) (heavy : tip.work < e.cumulativeWork + b.work) :
      Overtakes engine nowSecs b e.commonAncestor

omit [LawfulStorage DB] in
theorem Overtakes.checks {lca : BlockHash} (overtakes : Overtakes engine nowSecs b lca) :
    verifyGenesisWorkShape b = .ok () ∧ engine.validateHeight b = true := by
  cases overtakes with
  | new shape height creates valid work top heavy => exact ⟨shape, height⟩
  | longer shape height extends' found valid top heavy => exact ⟨shape, height⟩

omit [LawfulStorage DB] in
theorem Overtakes.forkRoot_eq {lca : BlockHash} (overtakes : Overtakes engine nowSecs b lca) :
    forkRoot engine b = some lca := by
  cases overtakes with
  | new shape height creates valid work top heavy => simp only [forkRoot, creates]
  | longer shape height extends' found valid top heavy =>
    have spec := classifyBlock_spec engine b
    rw [extends'] at spec
    obtain ⟨-, -, -, e, held, rfl⟩ := spec
    rw [found, Option.some.injEq] at held
    subst held
    simp only [forkRoot, extends']

/-- How the canonical chain moves when a block is delivered. -/
inductive Moves (engine : StryiConsensusEngine DB) (nowSecs : UInt64) (b : Block) (w : List Block)
    (engine' : StryiConsensusEngine DB) : List Block → Prop
  | stays (same : engine'.db = engine.db) : Moves engine nowSecs b w engine' w
  | grows (follows : Follows w b)
      (appended : tables engine'.db = (tables engine.db).appended w b) :
      Moves engine nowSecs b w engine' (w ++ [b])
  | switches {p q bs : List Block} {lca : BlockHash} (overtakes : Overtakes engine nowSecs b lca)
      (below : bs = [] ∨ ∃ key e, engine.forks.read key = some e ∧ bs = e.blocks)
      (branch : Branch engine.blockValidator.consensusConsts w p q (bs ++ [b]) lca)
      (heavier : chainWork w < chainWork (p ++ (bs ++ [b])))
      (room : (p ++ (bs ++ [b])).length < 2 ^ 64)
      (reorganized : tables engine'.db = (tables engine.db).reorganized p q (bs ++ [b])) :
      Moves engine nowSecs b w engine' (p ++ (bs ++ [b]))

/-- Every step keeps the invariant. -/
theorem Invariant.step (inv : Invariant g engine w) (step : Step engine nowSecs b verdict engine') :
    ∃ w', Invariant g engine' w' ∧ Moves engine nowSecs b w engine' w' := by
  cases step with
  | rejected error => exact ⟨w, inv, .stays rfl⟩
  | included => exact ⟨w, inv, .stays rfl⟩
  | known => exact ⟨w, inv, .stays rfl⟩
  | orphan orphan => exact ⟨w, inv, .stays rfl⟩
  | applied shape height extends' valid top committed =>
    obtain ⟨inv', appended⟩ := inv.applied extends' valid top committed
    have canonical := inv.canonical
    obtain ⟨follows, -⟩ :=
      append_eq_ok canonical.sound canonical.chain canonical.represents committed
    exact ⟨w ++ [b], inv', .grows follows appended⟩
  | forked shape height creates work view valid top light =>
    exact ⟨w, inv.forked shape height creates work view valid top light, .stays rfl⟩
  | extended shape height extends' found view replayed valid top light =>
    exact ⟨w, inv.extended shape height extends' found view replayed valid top light, .stays rfl⟩
  | @replaced lca lcaWork overlay tip verdict engine' shape height creates work view valid top heavy
      reorganized =>
    obtain ⟨p, q, branch⟩ := inv.newBranch shape height creates view valid
    have checked : checkNewFork engine.blockValidator engine.chainIndex engine.db nowSecs b lca =
        .ok none := by
      rw [checkNewFork, view, bind_ok]
      exact judge_eq_ok_none.mpr valid
    have overtakes := Overtakes.new shape height creates checked work top heavy
    have heavier := inv.heavier_new branch work top heavy
    obtain ⟨inv', room, reorganized'⟩ := inv.reorganized branch (by simp) heavier reorganized
    exact ⟨p ++ ([] ++ [b]), inv', .switches overtakes (.inl rfl) branch heavier room reorganized'⟩
  | @overtaken lca e rewound overlay tip verdict engine' shape height extends' found view replayed
      valid top heavy reorganized =>
    obtain ⟨p, q, branches, branch⟩ :=
      inv.longerBranch shape height extends' found view replayed valid
    have checked : checkFork engine.blockValidator engine.chainIndex engine.db nowSecs b e =
        .ok none := by
      rw [checkFork, view, bind_ok, replayed, bind_ok]
      exact judge_eq_ok_none.mpr valid
    have overtakes := Overtakes.longer shape height extends' found checked top heavy
    have heavier := inv.heavier_longer branches top heavy
    obtain ⟨inv', room, reorganized'⟩ := inv.reorganized branch (by simp) heavier reorganized
    exact ⟨_, inv'.withForks (inv'.registry.remove _),
      .switches overtakes (.inr ⟨_, _, found, rfl⟩) branch heavier room reorganized'⟩

end StryiChain
