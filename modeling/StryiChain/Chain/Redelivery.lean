import StryiChain.Chain.Total

/-!
# Blocks that are delivered again

The height check comes before classification and looks for the parent among the canonical blocks
and the tips of the branches only. A known block can stand anywhere: above the middle of a branch
the check finds no parent and lets the block pass, and everywhere else it finds the right one.
Genesis alone fails it, being its own parent. What a call takes in is known to the next call.
-/

namespace StryiChain

open LawfulStorage StryiConsensusEngine

section Verdicts

/-- The verdict reports a new canonical chain. -/
def ConsensusVerdict.Commits : ConsensusVerdict → Prop
  | .applied _ | .causedReorganization _ => True
  | .buffered | .alreadyIncludedInChain | .alreadyKnownInForkTree | .rejected _ => False

variable [Primitives] {DB : Type} [FullNodeStorage DB]

/-- A block is recognised when it is delivered again. Canonical blocks and blocks of a branch are
named as such and leave the engine alone; any block that is delivered twice leaves it as after the
first call, and the second call reports no new chain. The second call may meet other failures of
the backend if the first one has returned a verdict. -/
structure Recognised (engine : StryiConsensusEngine DB) (b : Block) : Prop where
  canonical : b ∈ canonicalBlocks engine.db → ∀ nowSecs faults,
    onBlock nowSecs faults b engine = .ok .alreadyIncludedInChain engine
  branch : (∃ key e, engine.forks.read key = some e ∧ b ∈ e.blocks) → ∀ nowSecs faults,
    onBlock nowSecs faults b engine = .ok .alreadyKnownInForkTree engine
  again : ∀ nowSecs faults faults',
    (∃ verdict engine', onBlock nowSecs faults b engine = .ok verdict engine') ∨ faults' = faults →
    deliver (deliver engine ⟨nowSecs, faults, b⟩) ⟨nowSecs, faults', b⟩ =
      deliver engine ⟨nowSecs, faults, b⟩ ∧
    ∀ verdict engine', onBlock nowSecs faults' b (deliver engine ⟨nowSecs, faults, b⟩) =
      .ok verdict engine' → ¬ verdict.Commits

end Verdicts

section Held

variable [Primitives] {DB : Type} {engine : StryiConsensusEngine DB} {b : Block}

theorem classifyBlock_canonical (has : engine.chainIndex.has b.blockHash = true) :
    engine.classifyBlock b = .known .canonicalChain := by
  rw [classifyBlock, if_pos has]

theorem classifyBlock_branch (absent : engine.chainIndex.has b.blockHash = false)
    (has : ForkRegistry.has engine.forks b.blockHash = true ∨
      ForkRegistry.hasBlock engine.forks b.blockHash = true) :
    engine.classifyBlock b = .known .forkTree := by
  rw [classifyBlock, if_neg (by rw [absent]; decide), if_pos has]

theorem classifyBlock_registered (has : ForkRegistry.has engine.forks b.blockHash = true) :
    ∃ location, engine.classifyBlock b = .known location := by
  cases canonical : engine.chainIndex.has b.blockHash with
  | true => exact ⟨_, classifyBlock_canonical canonical⟩
  | false => exact ⟨_, classifyBlock_branch canonical (.inl has)⟩

omit [Primitives] in
theorem has_insert (forks : ForkRegistry) (e : ForkEntry) :
    ForkRegistry.has (ForkRegistry.insert forks e) e.tip = true := by
  rw [ForkRegistry.has, read_inserted_self]
  rfl

end Held

section Taken

variable [Primitives] {DB : Type} [FullNodeStorage DB] {engine engine' : StryiConsensusEngine DB}
  {g b : Block} {w p q bs : List Block} {nowSecs : UInt64} {faults : Faults}
  {verdict : ConsensusVerdict}

/-- The verdicts of a call that takes nothing in. -/
inductive Idle (engine : StryiConsensusEngine DB) (b : Block) : ConsensusVerdict → Prop
  | rejected (error : StryiCoreError) : Idle engine b (.rejected error)
  | included (held : engine.classifyBlock b = .known .canonicalChain) :
      Idle engine b .alreadyIncludedInChain
  | known (held : engine.classifyBlock b = .known .forkTree) :
      Idle engine b .alreadyKnownInForkTree
  | orphan {parent : BlockHash} (orphan : engine.classifyBlock b = .orphan parent) :
      Idle engine b .buffered

omit [FullNodeStorage DB] in
theorem Idle.keeps (idle : Idle engine b verdict) : ¬ verdict.Commits := by
  cases idle <;> exact id

/-- Known blocks and orphans are not validated. -/
theorem not_acceptable (idle : (∃ location, engine.classifyBlock b = .known location) ∨
    ∃ parent, engine.classifyBlock b = .orphan parent) : ¬ Acceptable engine nowSecs b := by
  intro acceptable
  have valid := acceptable.2.2
  rcases idle with ⟨location, held⟩ | ⟨parent, orphan⟩
  · rwa [Validated, held] at valid
  · rwa [Validated, orphan] at valid

/-- A call that takes nothing in has not found the block acceptable. -/
theorem Idle.refused (idle : Idle engine b verdict)
    (run : onBlock nowSecs faults b engine = .ok verdict engine') :
    ¬ Acceptable engine nowSecs b := by
  cases idle with
  | rejected error =>
    rintro ⟨shape, height, valid⟩
    exact onBlock_spares shape height valid run
  | included held => exact not_acceptable (.inl ⟨_, held⟩)
  | known held => exact not_acceptable (.inl ⟨_, held⟩)
  | orphan orphan => exact not_acceptable (.inr ⟨_, orphan⟩)

variable [LawfulStorage DB]

/-- The top block of a branch is canonical after the reorganization. -/
theorem Invariant.has_reorganized (inv : Invariant g engine w) {lca : BlockHash}
    (branch : Branch engine.blockValidator.consensusConsts w p q (bs ++ [b]) lca)
    (heavier : chainWork w < chainWork (p ++ (bs ++ [b])))
    (reorganized : Reorganized engine lca (bs ++ [b]) verdict engine') :
    engine'.chainIndex.has b.blockHash = true := by
  obtain ⟨inv', -, -⟩ := inv.reorganized branch (by simp) heavier reorganized
  apply inv'.canonical.indexOf.has_iff.mpr
  simp

/-- A step that leaves the engine alone takes nothing in; every other one holds the block
afterwards, which has passed every check. -/
theorem Step.taken (inv : Invariant g engine w) (step : Step engine nowSecs b verdict engine') :
    (engine' = engine ∧ Idle engine b verdict) ∨
    (Acceptable engine nowSecs b ∧ ∃ location, engine'.classifyBlock b = .known location) := by
  cases step with
  | rejected error => exact .inl ⟨rfl, .rejected error⟩
  | included held => exact .inl ⟨rfl, .included held⟩
  | known held => exact .inl ⟨rfl, .known held⟩
  | orphan orphan => exact .inl ⟨rfl, .orphan orphan⟩
  | applied shape height extends' valid top committed =>
    obtain ⟨inv', -⟩ := inv.applied extends' valid top committed
    have has : (engine.chainIndex.insert b _).has b.blockHash = true :=
      inv'.canonical.indexOf.has_iff.mpr (by simp)
    refine .inr ⟨⟨shape, height, ?_⟩, _, classifyBlock_canonical has⟩
    rw [Validated, extends']
    exact valid
  | forked shape height creates work view valid top light =>
    refine .inr ⟨⟨shape, height, ?_⟩, classifyBlock_registered (has_insert _ _)⟩
    rw [Validated, creates]
    exact ⟨_, view, valid⟩
  | extended shape height extends' found view replayed valid top light =>
    refine .inr ⟨⟨shape, height, ?_⟩, classifyBlock_registered (has_insert _ _)⟩
    rw [Validated, extends']
    exact ⟨_, _, _, found, view, replayed, valid⟩
  | replaced shape height creates work view valid top heavy reorganized =>
    obtain ⟨p, q, branch⟩ := inv.newBranch shape height creates view valid
    have heavier : chainWork w < chainWork (p ++ ([] ++ [b])) :=
      inv.heavier_new branch work top heavy
    have has := inv.has_reorganized branch heavier reorganized
    refine .inr ⟨⟨shape, height, ?_⟩, _, classifyBlock_canonical has⟩
    rw [Validated, creates]
    exact ⟨_, view, valid⟩
  | @overtaken lca e rewound overlay tip verdict engine' shape height extends' found view replayed
      valid top heavy reorganized =>
    obtain ⟨p, q, branches, branch⟩ :=
      inv.longerBranch shape height extends' found view replayed valid
    have heavier := inv.heavier_longer branches top heavy
    have has := inv.has_reorganized branch heavier reorganized
    refine .inr ⟨⟨shape, height, ?_⟩, _, classifyBlock_canonical has⟩
    rw [Validated, extends']
    exact ⟨_, _, _, found, view, replayed, valid⟩

/-- A block that fails a check changes nothing. -/
theorem deliver_refused (inv : Invariant g engine w) (refused : ¬ Acceptable engine nowSecs b)
    (faults : Faults) : deliver engine ⟨nowSecs, faults, b⟩ = engine ∧
      ∀ verdict engine', onBlock nowSecs faults b engine = .ok verdict engine' →
        ¬ verdict.Commits := by
  have idle : ∀ verdict engine', onBlock nowSecs faults b engine = .ok verdict engine' →
      engine' = engine ∧ Idle engine b verdict := by
    intro verdict engine' run
    exact ((onBlock_ok run).taken inv).resolve_right fun accepted => refused accepted.1
  refine ⟨?_, fun verdict engine' run => (idle verdict engine' run).2.keeps⟩
  unfold deliver
  cases run : onBlock nowSecs faults b engine with
  | ok verdict engine' => exact (idle verdict engine' run).1
  | error error engine' => exact onBlock_error run

/-- A second call with a block that the first one has judged or failed on in the same way. -/
theorem deliver_again (inv : Invariant g engine w) {faults' : Faults}
    (same : (∃ verdict engine', onBlock nowSecs faults b engine = .ok verdict engine') ∨
      faults' = faults) :
    deliver (deliver engine ⟨nowSecs, faults, b⟩) ⟨nowSecs, faults', b⟩ =
      deliver engine ⟨nowSecs, faults, b⟩ ∧
    ∀ verdict engine', onBlock nowSecs faults' b (deliver engine ⟨nowSecs, faults, b⟩) =
      .ok verdict engine' → ¬ verdict.Commits := by
  cases run : onBlock nowSecs faults b engine with
  | error error engine' =>
    obtain rfl := onBlock_error run
    have failed : ∀ verdict engine'', onBlock nowSecs faults b engine' ≠ .ok verdict engine'' := by
      intro verdict engine'' done
      rw [run] at done
      cases done
    have stays : deliver engine' ⟨nowSecs, faults, b⟩ = engine' := by
      unfold deliver
      rw [run]
    have equal : faults' = faults := by
      refine same.resolve_left ?_
      rintro ⟨verdict, engine'', done⟩
      exact failed verdict engine'' done
    rw [equal, stays, stays]
    exact ⟨rfl, fun verdict engine'' done => absurd done (failed verdict engine'')⟩
  | ok verdict engine' =>
    have step := onBlock_ok run
    have reached : deliver engine ⟨nowSecs, faults, b⟩ = engine' := by
      unfold deliver
      rw [run]
    rw [reached]
    rcases step.taken inv with ⟨rfl, idle⟩ | ⟨-, known⟩
    · exact deliver_refused inv (idle.refused run) faults'
    · obtain ⟨w', inv', -⟩ := inv.step step
      exact deliver_refused inv' (not_acceptable (.inl known)) faults'

end Taken

section Heights

variable [Primitives] {DB : Type} [FullNodeStorage DB] [LawfulStorage DB]
  {engine : StryiConsensusEngine DB} {g a b : Block} {w : List Block}

omit [LawfulStorage DB] in
/-- A known block that passes the first two checks is named by its place. -/
theorem onBlock_known {location : KnownLocation}
    (shape : verifyGenesisWorkShape b = .ok ()) (height : engine.validateHeight b = true)
    (held : engine.classifyBlock b = .known location) (nowSecs : UInt64) (faults : Faults) :
    onBlock nowSecs faults b engine = handleKnown location engine := by
  rw [onBlock, EngineM.get_bind_run, shape]
  dsimp only
  rw [if_neg (by rw [height]; decide), held]

/-- The height check of a block whose parent the engine holds, wherever that is. -/
theorem Invariant.validateHeight_above (inv : Invariant g engine w)
    (known : a ∈ w ∨ ∃ key e, engine.forks.read key = some e ∧ a ∈ e.blocks)
    (parent : b.header.previousBlockHash = a.blockHash)
    (above : a.header.height.toNat + 1 = b.header.height.toNat) :
    engine.validateHeight b = true := by
  have indexOf := inv.canonical.indexOf
  cases has : engine.chainIndex.has b.header.previousBlockHash with
  | true =>
    obtain ⟨p, q, a', split, last, hash⟩ := exists_below (indexOf.has_iff.mp has)
    have held : a' ∈ w := split ▸ List.mem_append_left q (List.mem_of_getLast? last)
    rw [parent] at hash
    have canonical : a ∈ w := by
      refine known.resolve_right ?_
      rintro ⟨key, e, found, mem⟩
      obtain ⟨-, p', q', branches⟩ := inv.registry.entry found
      exact branches.apart a mem (hash ▸ List.mem_map_of_mem held)
    obtain rfl := inv.canonical.chain.eq_of_hash held canonical hash
    rw [split] at indexOf
    exact (validateHeight_canonical indexOf last parent).mpr above.symm
  | false =>
    have apart : a ∉ w := by
      intro mem
      rw [parent, indexOf.has_iff.mpr (List.mem_map_of_mem mem)] at has
      cases has
    obtain ⟨key, e, held, mem⟩ := known.resolve_left apart
    cases found : ForkRegistry.get engine.forks b.header.previousBlockHash with
    | none =>
      -- The parent is inside a branch, where the check does not look.
      rw [ChainIndex.has, Option.isSome_eq_false_iff, Option.isNone_iff_eq_none] at has
      rw [validateHeight, ChainIndex.height, has, found]
      rfl
    | some e' =>
      obtain ⟨keyed, p, q, branches⟩ := inv.registry.entry found
      obtain ⟨top, last, tip⟩ := Option.map_eq_some_iff.mp branches.tip
      have inside := List.mem_of_getLast? last
      have hash : top.blockHash = a.blockHash := by rw [tip, keyed, parent]
      obtain rfl := inv.registry.disjoint found held inside mem hash
      obtain rfl : e' = e := Option.some.inj (found.symm.trans held)
      obtain rfl := branches.chain.eq_of_hash (List.mem_append_right p inside)
        (List.mem_append_right p mem) hash
      exact (validateHeight_fork has found last).mpr above.symm

/-- Every canonical block above genesis is recognised. -/
theorem Invariant.names_canonical (inv : Invariant g engine w) (mem : b ∈ w) (above : b ≠ g)
    (nowSecs : UInt64) (faults : Faults) :
    onBlock nowSecs faults b engine = .ok .alreadyIncludedInChain engine := by
  have chain := inv.canonical.chain
  have has := inv.canonical.indexOf.has_iff.mpr (List.mem_map_of_mem mem)
  obtain ⟨front, back, split⟩ := List.append_of_mem mem
  have ne : front ≠ [] := by
    rintro rfl
    obtain ⟨rest, first⟩ := inv.first
    rw [first, List.nil_append, List.cons.injEq] at split
    exact above split.1.symm
  rw [split] at chain
  obtain ⟨a, last, parent, height⟩ := chain.below ne
  have known : a ∈ w := split ▸ List.mem_append_left _ (List.mem_of_getLast? last)
  have shape := verifyGenesisWorkShape_of_normal (chain.linksAt ne).normal.1
  exact onBlock_known shape (inv.validateHeight_above (.inl known) parent height)
    (classifyBlock_canonical has) nowSecs faults

/-- Every block of a branch is recognised. -/
theorem Invariant.names_branch (inv : Invariant g engine w) {key : BlockHash} {e : ForkEntry}
    (found : engine.forks.read key = some e) (mem : b ∈ e.blocks) (nowSecs : UInt64)
    (faults : Faults) :
    onBlock nowSecs faults b engine = .ok .alreadyKnownInForkTree engine := by
  obtain ⟨-, p, q, branches⟩ := inv.registry.entry found
  have absent : engine.chainIndex.has b.blockHash = false := by
    rw [← Bool.not_eq_true]
    exact fun has => branches.apart b mem (inv.canonical.indexOf.has_iff.mp has)
  have has : ForkRegistry.hasBlock engine.forks b.blockHash = true := by
    rw [← Bool.not_eq_false]
    exact fun none => hasBlock_eq_false.mp none found b mem rfl
  obtain ⟨front, back, split⟩ := List.append_of_mem mem
  have chain := branches.chain
  have ne : p ++ front ≠ [] := by simp [branches.ne_nil]
  rw [split, ← List.append_assoc] at chain
  obtain ⟨a, last, parent, height⟩ := chain.below ne
  have known : a ∈ w ∨ ∃ key e, engine.forks.read key = some e ∧ a ∈ e.blocks := by
    rcases List.mem_append.mp (List.mem_of_getLast? last) with below | inside
    · rw [branches.split]
      exact .inl (List.mem_append_left q below)
    · exact .inr ⟨key, e, found, split ▸ List.mem_append_left _ inside⟩
  have shape := verifyGenesisWorkShape_of_normal (chain.linksAt ne).normal.1
  exact onBlock_known shape (inv.validateHeight_above known parent height)
    (classifyBlock_branch absent (.inr has)) nowSecs faults

/-- Genesis names itself as its parent, and is too low to stand above itself. -/
theorem Invariant.rejects_genesis (inv : Invariant g engine w) (nowSecs : UInt64)
    (faults : Faults) : onBlock nowSecs faults g engine =
      .ok (.rejected (.consensusValidationFailed "Block height must follow its parent"))
        engine := by
  obtain ⟨marker, shape, height, -⟩ := inv.genesis
  obtain ⟨rest, first⟩ := inv.first
  have parent : g.header.previousBlockHash = g.blockHash := by
    have fields := shape
    simp only [verifyGenesisWorkShape, verifyGenesisHeaderWorkShape, failIf_eq_ok, marker, true_and,
      not_or, not_not] at fields
    rw [fields.2.1, Block.blockHash, if_pos marker]
  have indexOf := inv.canonical.indexOf
  rw [first, ← List.singleton_append] at indexOf
  have low : engine.validateHeight g = false := by
    rw [← Bool.not_eq_true, validateHeight_canonical (a := g) indexOf rfl parent, height]
    decide
  rw [onBlock, EngineM.get_bind_run, shape]
  dsimp only
  rw [if_pos low]
  rfl

end Heights

section Run

variable [Primitives] {DB : Type} [FullNodeStorage DB] [LawfulStorage DB]
  {engine : StryiConsensusEngine DB} {consensusConsts : ConsensusConsts}
  {blockValidator : BlockValidator} {g : Block} {chainMetadata : ChainMetadata} {w : List Block}

/-- A block is recognised unless it is genesis. -/
theorem Invariant.recognised_iff (inv : Invariant g engine w) (b : Block) :
    Recognised engine b ↔ b ≠ g := by
  have chain := canonicalBlocks_eq inv.canonical
  constructor
  · rintro recognised rfl
    obtain ⟨rest, first⟩ := inv.first
    have named := recognised.canonical (by rw [chain, first]; exact List.mem_cons_self) 0 .none
    rw [inv.rejects_genesis] at named
    cases named
  · intro above
    refine ⟨fun mem => ?_, ?_, fun nowSecs faults faults' => deliver_again inv⟩
    · rw [chain] at mem
      exact inv.names_canonical mem above
    · rintro ⟨key, e, found, mem⟩
      exact inv.names_branch found mem

/-- In every state of every run every block but genesis is recognised when it is delivered again,
and genesis is rejected each time. -/
theorem redelivery_recognised_iff
    (launched : launch consensusConsts blockValidator g chainMetadata = .ok engine)
    (deliveries : List Delivery) :
    (∀ b, Recognised (deliverAll engine deliveries) b ↔ b ≠ g) ∧
    ∀ nowSecs faults, onBlock nowSecs faults g (deliverAll engine deliveries) =
      .ok (.rejected (.consensusValidationFailed "Block height must follow its parent"))
        (deliverAll engine deliveries) := by
  obtain ⟨w, inv⟩ := (Invariant.launched launched).1.run deliveries
  exact ⟨inv.recognised_iff, inv.rejects_genesis⟩

end Run

open Sample in
/-- A state with a block that is canonical and a block that is not. -/
theorem redelivery_recognised_iff_sample : ∃ engine, start = .ok engine ∧
    (∀ b, Recognised (deliverAll engine ([rival, other].map call)) b ↔ b ≠ genesis) ∧
    ∀ nowSecs faults, onBlock nowSecs faults genesis
        (deliverAll engine ([rival, other].map call)) =
      .ok (.rejected (.consensusValidationFailed "Block height must follow its parent"))
        (deliverAll engine ([rival, other].map call)) := by
  obtain ⟨engine, started⟩ := start_ok
  exact ⟨engine, started, redelivery_recognised_iff started ([rival, other].map call)⟩

open Sample in
/-- A new node rejects its own genesis. -/
theorem redelivery_rejects_genesis : ∃ engine, start = .ok engine ∧
    genesis ∈ canonicalBlocks engine.db ∧
    onBlock 1000 .none genesis engine =
      .ok (.rejected (.consensusValidationFailed "Block height must follow its parent")) engine ∧
    ¬ Recognised engine genesis := by
  obtain ⟨engine, started, chain, -⟩ := run_chains
  have inv := (Invariant.launched started).1
  refine ⟨engine, started, ?_, inv.rejects_genesis 1000 .none, ?_⟩
  · rw [chain]
    exact List.mem_cons_self
  · rw [inv.recognised_iff]
    exact fun apart => apart rfl

end StryiChain
