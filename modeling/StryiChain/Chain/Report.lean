import StryiChain.Chain.Run

/-!
# What a committed transition reports

The report of a call mixes what the storage returns with what the engine holds. It is exactly the
change from the old canonical chain to the new one, and the work of the canonical tip grows with
every report and stays with every other verdict.
-/

namespace StryiChain

open LawfulStorage StryiConsensusEngine

section Report

variable [Primitives] {DB : Type} [FullNodeStorage DB]

/-- The cumulative work of the canonical tip. -/
def tipWork (engine : StryiConsensusEngine DB) : Option Nat :=
  engine.chainIndex.tip.map TipInfo.work

/-- A transition that takes one chain to another: the blocks above the last common one are the
detached blocks, from the tip downwards, and the attached blocks, from the parent upwards. -/
structure Describes (transition : CommittedTransition) (before after : List Block) : Prop where
  ancestor : ∃ common detached, common ≠ [] ∧ before = common ++ detached ∧
    after = common ++ transition.attached ∧
    transition.detached = (detached.map Block.point).reverse
  attached : transition.attached ≠ []
  apart : ∀ b ∈ transition.attached, b.blockHash ∉ before.map Block.blockHash

/-- The head and the work of a transition are those that the storage holds, and the work is that
of the canonical blocks above genesis. -/
structure Recorded (transition : CommittedTransition) (db : DB) : Prop where
  state : ∃ state, chainState db = .ok (some state) ∧ transition.newHead = state.latestBlock ∧
    transition.chainWork = state.chainWork
  work : transition.chainWork =
    (((canonicalBlocks db).filter fun b => !b.header.isGenesis).map fun b =>
      2 ^ 256 / (b.header.hashThreshold.toNat + 1)).sum

/-- What a verdict says about the change of the canonical chain. -/
def Reported (engine : StryiConsensusEngine DB) (verdict : ConsensusVerdict)
    (engine' : StryiConsensusEngine DB) : Prop :=
  match verdict with
  | .applied transition | .causedReorganization transition =>
      (∃ work work', tipWork engine = some work ∧ tipWork engine' = some work' ∧ work < work') ∧
        Describes transition (canonicalBlocks engine.db) (canonicalBlocks engine'.db) ∧
        Recorded transition engine'.db
  | .buffered | .alreadyIncludedInChain | .alreadyKnownInForkTree | .rejected _ =>
      tipWork engine' = tipWork engine ∧ canonicalBlocks engine'.db = canonicalBlocks engine.db

/-- A call that fails changes nothing, and every other one reports what it has changed. -/
def CallReported (engine : StryiConsensusEngine DB) (delivery : Delivery) : Prop :=
  match onBlock delivery.nowSecs delivery.faults delivery.block engine with
  | .error _ engine' => engine' = engine
  | .ok verdict engine' => Reported engine verdict engine'

/-- No addition of work to a chain that the engine knows can overflow a `U512`. -/
structure WorkFits (engine : StryiConsensusEngine DB) : Prop where
  index : ∀ hash work, engine.chainIndex.work hash = some work → ∀ b : Block,
    addWork work b.work = .ok (work + b.work)
  forks : ∀ key e, engine.forks.read key = some e → ∀ b : Block,
    addWork e.cumulativeWork b.work = .ok (e.cumulativeWork + b.work)

variable [LawfulStorage DB] {engine engine' : StryiConsensusEngine DB} {g b : Block}
  {w w' p q bs : List Block} {nowSecs : UInt64} {verdict : ConsensusVerdict}

omit [Primitives] in
/-- Only the blocks above genesis carry work. -/
theorem chainWork_eq_sum (w : List Block) : chainWork w =
    ((w.filter fun b => !b.header.isGenesis).map fun b =>
      2 ^ 256 / (b.header.hashThreshold.toNat + 1)).sum := by
  induction w with
  | nil => rfl
  | cons b w ih =>
    rw [chainWork_cons, ih, Block.work]
    by_cases marker : b.header.isGenesis = true
    · simp [marker]
    · rw [Bool.not_eq_true] at marker
      simp [marker, blockWork]

/-- Heights are machine integers, which bounds the length of a chain. -/
theorem IsChain.length_le (chain : IsChain w) : w.length ≤ 2 ^ 64 := by
  obtain ⟨tip, last⟩ : ∃ tip, w.getLast? = some tip := by
    rw [← Option.isSome_iff_exists, List.getLast?_isSome]
    exact chain.ne_nil
  have height := chain.tip_height last
  have bound := tip.header.height.toNat_lt
  omega

theorem Invariant.workFits (inv : Invariant g engine w) : WorkFits engine := by
  have chain := inv.canonical.chain
  refine ⟨?_, ?_⟩
  · intro hash work found b
    have known : engine.chainIndex.entries.read hash ≠ none := by
      intro absent
      rw [ChainIndex.work, absent] at found
      cases found
    obtain ⟨p, q, a, split, last, rfl⟩ := exists_below (inv.canonical.indexOf.only known)
    have indexOf := inv.canonical.indexOf
    rw [split] at indexOf
    rw [indexOf.work_eq last, Option.some.injEq] at found
    subst found
    have length := chain.length_le
    rw [split, List.length_append] at length
    exact addWork_eq_ok.mpr ⟨chainWork_add_lt (by omega) b, rfl⟩
  · intro key e found b
    obtain ⟨-, p, q, branches⟩ := inv.registry.entry found
    rw [branches.work]
    exact addWork_eq_ok.mpr ⟨chainWork_add_lt branches.chain.length_le b, rfl⟩

theorem Invariant.tipWork_eq (inv : Invariant g engine w) : tipWork engine = some (chainWork w) := by
  obtain ⟨state, hstate⟩ := exists_stateOf inv.canonical.chain
  obtain ⟨top, last, -⟩ := stateOf_eq_some hstate
  rw [tipWork, inv.canonical.indexOf.tip, tipOf, last]
  rfl

/-- A head and a work that belong to the new chain are recorded. -/
theorem Invariant.recorded (inv : Invariant g engine w) {transition : CommittedTransition}
    (head : w.getLast?.map Block.point = some transition.newHead)
    (work : transition.chainWork = chainWork w) : Recorded transition engine.db := by
  obtain ⟨state, hstate⟩ := exists_stateOf inv.canonical.chain
  obtain ⟨top, last, latest, -, total⟩ := stateOf_eq_some hstate
  refine ⟨⟨state, ?_, ?_, ?_⟩, ?_⟩
  · rw [chainState_eq inv.canonical.sound, inv.canonical.represents.state, hstate]
  · rw [last, Option.map_some, Option.some.injEq] at head
    rw [latest, ← head]
    rfl
  · rw [work, total]
  · rw [canonicalBlocks_eq inv.canonical, work, chainWork_eq_sum]

/-- A transition between two chains of which the second is heavier is reported in full. -/
theorem Invariant.reported (inv : Invariant g engine w) (inv' : Invariant g engine' w')
    {transition : CommittedTransition} (describes : Describes transition w w')
    (heavier : chainWork w < chainWork w')
    (head : w'.getLast?.map Block.point = some transition.newHead)
    (work : transition.chainWork = chainWork w') :
    (∃ work work', tipWork engine = some work ∧ tipWork engine' = some work' ∧ work < work') ∧
      Describes transition (canonicalBlocks engine.db) (canonicalBlocks engine'.db) ∧
      Recorded transition engine'.db := by
  refine ⟨⟨_, _, inv.tipWork_eq, inv'.tipWork_eq, heavier⟩, ?_, inv'.recorded head work⟩
  rw [canonicalBlocks_eq inv.canonical, canonicalBlocks_eq inv'.canonical]
  exact describes

/-- A branch that replaces the top of the chain is reported. -/
theorem Invariant.reported_reorganized (inv : Invariant g engine w) {lca : BlockHash}
    (branch : Branch engine.blockValidator.consensusConsts w p q bs lca) (ne : bs ≠ [])
    (heavier : chainWork w < chainWork (p ++ bs))
    (reorganized : Reorganized engine lca bs verdict engine') : Reported engine verdict engine' := by
  obtain ⟨inv', -, -⟩ := inv.reorganized branch ne heavier reorganized
  obtain ⟨lcaWork, works, delta, result, db, -, -, prepared, committed, rfl, -⟩ :=
    reorganized.done
  have replacement := inv.replacement branch ne prepared
  obtain ⟨-, -, -, detached, head, work⟩ := reorganize_eq_ok replacement committed
  apply inv.reported inv' _ heavier head work
  exact ⟨⟨p, q, branch.ne_nil, branch.split, rfl, detached⟩, ne, branch.apart⟩

/-- Every step reports what it has done. -/
theorem Step.reported (inv : Invariant g engine w)
    (step : Step engine nowSecs b verdict engine') : Reported engine verdict engine' := by
  cases step with
  | rejected error => exact ⟨rfl, rfl⟩
  | included => exact ⟨rfl, rfl⟩
  | known => exact ⟨rfl, rfl⟩
  | orphan orphan => exact ⟨rfl, rfl⟩
  | forked shape height creates work view valid top light => exact ⟨rfl, rfl⟩
  | extended shape height extends' found view replayed valid top light => exact ⟨rfl, rfl⟩
  | @applied tip result db shape height extends' valid top committed =>
    obtain ⟨inv', -⟩ := inv.applied extends' valid top committed
    have canonical := inv.canonical
    obtain ⟨follows, -, -, -, rfl⟩ :=
      append_eq_ok canonical.sound canonical.chain canonical.represents committed
    have spec := classifyBlock_spec engine b
    rw [extends'] at spec
    apply inv.reported inv'
    · refine ⟨⟨w, [], canonical.chain.ne_nil, by simp, rfl, rfl⟩, by simp, ?_⟩
      intro x mem
      rw [List.mem_singleton.mp mem]
      exact (inv.unknown spec.1).1
    · have pos := b.work_pos follows.normal.1
      simp only [chainWork_append, chainWork_cons, chainWork_nil]
      omega
    · simp [Block.point]
    · rfl
  | replaced shape height creates work view valid top heavy reorganized =>
    obtain ⟨p, q, branch⟩ := inv.newBranch shape height creates view valid
    have heavier := inv.heavier_new branch work top heavy
    exact inv.reported_reorganized branch (by simp) heavier reorganized
  | @overtaken lca e rewound overlay tip verdict engine' shape height extends' found view replayed
      valid top heavy reorganized =>
    obtain ⟨p, q, branches, branch⟩ :=
      inv.longerBranch shape height extends' found view replayed valid
    have heavier := inv.heavier_longer branches top heavy
    have reported := inv.reported_reorganized branch (by simp) heavier reorganized
    obtain ⟨_, _, _, _, _, -, -, -, -, rfl, -⟩ := reorganized.done
    exact reported

end Report

section Run

variable [Primitives] {DB : Type} [FullNodeStorage DB] [LawfulStorage DB]
  {engine : StryiConsensusEngine DB} {g : Block} {consensusConsts : ConsensusConsts}
  {blockValidator : BlockValidator} {chainMetadata : ChainMetadata}

/-- In every run, whatever the backend does, each call reports exactly the change of the canonical
chain; the work of the tip grows with a transition, stays with every other outcome, and never
overflows. -/
theorem reports_exact
    (launched : launch consensusConsts blockValidator g chainMetadata = .ok engine)
    (deliveries : List Delivery) :
    WorkFits (deliverAll engine deliveries) ∧
      ∀ delivery, CallReported (deliverAll engine deliveries) delivery := by
  obtain ⟨w, inv⟩ := (Invariant.launched launched).1.run deliveries
  refine ⟨inv.workFits, ?_⟩
  intro delivery
  rw [CallReported]
  cases run : onBlock delivery.nowSecs delivery.faults delivery.block
      (deliverAll engine deliveries) with
  | error error engine' => exact onBlock_error run
  | ok verdict engine' => exact (onBlock_ok run).reported inv

end Run

open Sample in
/-- The reports above a branch that is about to become canonical. -/
theorem reports_exact_sample : ∃ engine, start = .ok engine ∧
    WorkFits (deliverAll engine ([rival, other].map call)) ∧
    ∀ delivery, CallReported (deliverAll engine ([rival, other].map call)) delivery := by
  obtain ⟨engine, started⟩ := start_ok
  exact ⟨engine, started, reports_exact started ([rival, other].map call)⟩

end StryiChain
