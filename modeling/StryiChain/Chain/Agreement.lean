import StryiChain.Chain.Choice
import StryiChain.Storage.MemoryLawful

/-!
# Agreement between nodes

Nodes that start from one genesis block see different blocks, in different orders and over
different backends. Two of their chains that hold the same hash at some height are the same up to
there, and nodes on the same tip hold the same coins and judge every block alike. Whatever the
orders in which they receive the blocks, a single heaviest one brings them to the same chain.
-/

namespace StryiChain

open LawfulStorage StryiConsensusEngine

section Sources

variable [Primitives] {U : Block → Prop} {g a b : Block} {w w' : List Block}

/-- The invariant of an engine that was given blocks of the set alone. -/
structure Sourced {DB : Type} [FullNodeStorage DB] [LawfulStorage DB] (U : Block → Prop)
    (g : Block) (engine : StryiConsensusEngine DB) (w : List Block) : Prop
    extends Invariant g engine w where
  above : ∀ b ∈ w.tail, Vetted U b
  held : ∀ key e, engine.forks.read key = some e → ∀ b ∈ e.blocks, U b

/-- Chains above one genesis block that share a hash at some height are the same up to there. -/
theorem IsChain.agree (free : CollisionFree U) (chain : IsChain w) (chain' : IsChain w')
    (above : ∀ b ∈ w.tail, Vetted U b) (above' : ∀ b ∈ w'.tail, Vetted U b)
    (first : w[0]? = w'[0]?) {n : Nat} (at_n : w[n]? = some a) (at_n' : w'[n]? = some b)
    (same : a.blockHash = b.blockHash) : w.take (n + 1) = w'.take (n + 1) := by
  induction n generalizing a b with
  | zero =>
    rw [List.take_add_one, List.take_add_one, first]
    rfl
  | succ n ih =>
    -- The blocks above genesis commit to their bodies, so that the hash decides the block.
    have mem : a ∈ w.tail := by
      refine List.mem_of_getElem? (i := n) ?_
      rw [List.getElem?_tail, at_n]
    have mem' : b ∈ w'.tail := by
      refine List.mem_of_getElem? (i := n) ?_
      rw [List.getElem?_tail, at_n']
    obtain rfl : a = b := free a b (above a mem) (above' b mem') same
    have inside := (List.getElem?_eq_some_iff.mp at_n).1
    have inside' := (List.getElem?_eq_some_iff.mp at_n').1
    have below : w[n]? = some w[n] := List.getElem?_eq_getElem (by omega)
    have below' : w'[n]? = some w'[n] := List.getElem?_eq_getElem (by omega)
    have lower := ih below below' ((chain.linked below at_n).symm.trans (chain'.linked below' at_n'))
    have step : ∀ l : List Block, l[n + 1]? = some a → l.take (n + 1 + 1) = l.take (n + 1) ++ [a] := by
      intro l at_l
      rw [List.take_add_one, at_l]
      rfl
    rw [step w at_n, step w' at_n', lower]

variable {DB : Type} [FullNodeStorage DB] [LawfulStorage DB]
  {engine engine' : StryiConsensusEngine DB} {nowSecs : UInt64} {verdict : ConsensusVerdict}

theorem Sourced.launched {consensusConsts : ConsensusConsts} {blockValidator : BlockValidator}
    {chainMetadata : ChainMetadata}
    (launched : launch consensusConsts blockValidator g chainMetadata = .ok engine) :
    Sourced U g engine [g] := by
  have secure : Secure U g engine [g] := Secure.launched launched
  refine ⟨secure.toInvariant, ?_, ?_⟩
  · intro b mem
    cases mem
  · intro key e found b mem
    exact (secure.held key e found b mem).1

/-- A step with a block of the set takes in that block at most. -/
theorem Sourced.step (sourced : Sourced U g engine w) (inside : U b)
    (step : Step engine nowSecs b verdict engine') :
    ∃ w', Sourced U g engine' w' ∧ Moves engine nowSecs b w engine' w' := by
  obtain ⟨w', inv', moves⟩ := sourced.toInvariant.step step
  have held' : ∀ key e, engine'.forks.read key = some e → ∀ x ∈ e.blocks, U x := by
    intro key e found x mem
    rcases step.forks_provenance sourced.toInvariant key e found x mem with rfl | old
    · exact inside
    · obtain ⟨key', e', found', mem'⟩ := old
      exact sourced.held key' e' found' x mem'
  have chain' := inv'.canonical.chain
  have ne := sourced.canonical.chain.ne_nil
  refine ⟨w', ⟨inv', ?_, held'⟩, moves⟩
  cases moves with
  | stays same => exact sourced.above
  | grows follows appended =>
    intro x mem
    rw [List.tail_append_of_ne_nil ne] at mem
    rcases List.mem_append.mp mem with old | last
    · exact sourced.above x old
    · rw [List.mem_singleton.mp last]
      exact inv'.admissible.vetted chain' ne (by simp) inside
  | @switches p q bs lca overtakes below branch heavier room reorganized =>
    intro x mem
    rw [List.tail_append_of_ne_nil branch.ne_nil] at mem
    rcases List.mem_append.mp mem with old | new
    · apply sourced.above
      rw [branch.split, List.tail_append_of_ne_nil branch.ne_nil]
      exact List.mem_append_left q old
    · apply inv'.admissible.vetted chain' branch.ne_nil new
      rcases List.mem_append.mp new with held | last
      · rcases below with rfl | ⟨key, e, found, rfl⟩
        · cases held
        · exact sourced.held key e found x held
      · rw [List.mem_singleton.mp last]
        exact inside

/-- Every call with a block of the set, failed or not, takes in that block at most. -/
theorem Sourced.deliver (sourced : Sourced U g engine w) {delivery : Delivery}
    (inside : U delivery.block) :
    ∃ w', Sourced U g (StryiChain.deliver engine delivery) w' ∧
      Moves engine delivery.nowSecs delivery.block w (StryiChain.deliver engine delivery) w' := by
  unfold StryiChain.deliver
  cases run : onBlock delivery.nowSecs delivery.faults delivery.block engine with
  | ok verdict engine' => exact sourced.step inside (onBlock_ok run)
  | error error engine' =>
    obtain rfl := onBlock_error run
    exact ⟨w, sourced, .stays rfl⟩

theorem Sourced.run (sourced : Sourced U g engine w) {deliveries : List Delivery}
    (inside : ∀ delivery ∈ deliveries, U delivery.block) :
    ∃ w', Sourced U g (deliverAll engine deliveries) w' := by
  induction deliveries generalizing engine w with
  | nil => exact ⟨w, sourced⟩
  | cons delivery deliveries ih =>
    obtain ⟨w', sourced', -⟩ := sourced.deliver (inside delivery List.mem_cons_self)
    exact ih sourced' fun later mem => inside later (List.mem_cons_of_mem _ mem)

/-- The hash at a height is that of the canonical block there. -/
theorem Invariant.block_at (inv : Invariant g engine w) {height : UInt64} {hash : BlockHash}
    (read : getBlockHashByHeight engine.db height = .ok (some hash)) :
    ∃ b, w[height.toNat]? = some b ∧ b.blockHash = hash := by
  have canonical := inv.canonical
  have views := views_storage canonical.sound canonical.chain canonical.represents.holds
  rw [views.height, Except.ok.injEq, Option.map_eq_some_iff] at read
  exact read

variable {DB' : Type} [FullNodeStorage DB'] [LawfulStorage DB'] {other : StryiConsensusEngine DB'}

/-- Two engines that hold the same hash at some height hold the same blocks up to there. -/
theorem Sourced.agree (free : CollisionFree U) (sourced : Sourced U g engine w)
    (sourced' : Sourced U g other w') {height : UInt64} {hash : BlockHash}
    (here : getBlockHashByHeight engine.db height = .ok (some hash))
    (there : getBlockHashByHeight other.db height = .ok (some hash)) :
    w.take (height.toNat + 1) = w'.take (height.toNat + 1) := by
  obtain ⟨a, at_a, hash_a⟩ := sourced.block_at here
  obtain ⟨b, at_b, hash_b⟩ := sourced'.block_at there
  obtain ⟨rest, first⟩ := sourced.first
  obtain ⟨rest', first'⟩ := sourced'.first
  apply sourced.canonical.chain.agree free sourced'.canonical.chain sourced.above sourced'.above
    _ at_a at_b (hash_a.trans hash_b.symm)
  rw [first, first']
  rfl

/-- Engines with the same tip have the same chain. -/
theorem Sourced.same_tip (free : CollisionFree U) (sourced : Sourced U g engine w)
    (sourced' : Sourced U g other w')
    (same : engine.chainIndex.tip = other.chainIndex.tip) : w = w' := by
  obtain ⟨top, last, tip⟩ := sourced.exists_tip
  obtain ⟨top', last', tip'⟩ := sourced'.exists_tip
  rw [tip, tip', Option.some.injEq, TipInfo.mk.injEq] at same
  obtain ⟨height, hash, -⟩ := same
  have length := sourced.canonical.chain.tip_height last
  have length' := sourced'.canonical.chain.tip_height last'
  obtain ⟨rest, first⟩ := sourced.first
  obtain ⟨rest', first'⟩ := sourced'.first
  rw [List.getLast?_eq_getElem?] at last last'
  rw [← height] at length'
  rw [← length, Nat.add_sub_cancel] at last
  rw [← length', Nat.add_sub_cancel] at last'
  have whole := sourced.canonical.chain.agree free sourced'.canonical.chain sourced.above
    sourced'.above (by rw [first, first']; rfl) last last' hash
  rw [length, List.take_length, ← length, length', List.take_length] at whole
  exact whole

end Sources

section Ledgers

variable [Primitives] {DB DB' : Type} [FullNodeStorage DB] [FullNodeStorage DB']

/-- Two storages hold the same chain and coins, and accept the same blocks next. -/
structure SameLedger (s : DB) (s' : DB') : Prop where
  blocks : canonicalBlocks s = canonicalBlocks s'
  state : chainState s = chainState s'
  height : ∀ h, getBlockHashByHeight s h = getBlockHashByHeight s' h
  utxo : ∀ o, getUtxo s o = getUtxo s' o
  accepts : ∀ (validator : BlockValidator) (nowSecs : UInt64) (b : Block),
    validator.validate nowSecs b s = .ok () ↔ validator.validate nowSecs b s' = .ok ()

variable [LawfulStorage DB] [LawfulStorage DB'] {U : Block → Prop}
  {engine : StryiConsensusEngine DB} {other : StryiConsensusEngine DB'} {g : Block}
  {w : List Block} {consensusConsts : ConsensusConsts} {blockValidator : BlockValidator}
  {chainMetadata chainMetadata' : ChainMetadata} {deliveries deliveries' : List Delivery}

/-- The chain and the exact coins decide everything that a storage answers. -/
theorem Invariant.sameLedger (inv : Invariant g engine w) (inv' : Invariant g other w)
    (exact : (tables engine.db).utxo = Coins.ledger w)
    (exact' : (tables other.db).utxo = Coins.ledger w) : SameLedger engine.db other.db := by
  have canonical := inv.canonical
  have canonical' := inv'.canonical
  have views := views_storage canonical.sound canonical.chain canonical.represents.holds
  have views' := views_storage canonical'.sound canonical'.chain canonical'.represents.holds
  rw [exact] at views
  rw [exact'] at views'
  refine ⟨?_, ?_, ?_, ?_, ?_⟩
  · rw [canonicalBlocks_eq canonical, canonicalBlocks_eq canonical']
  · rw [chainState_eq canonical.sound, chainState_eq canonical'.sound, canonical.represents.state,
      canonical'.represents.state]
  · intro h
    rw [views.height, views'.height]
  · intro o
    rw [getUtxo_eq o canonical.sound, getUtxo_eq o canonical'.sound, exact, exact']
  · intro validator nowSecs b
    exact views.validate_iff views'

/-- Two nodes with the same tip have the same ledger, whatever has reached them, as long as the
blocks that each of them has detached were fresh. -/
theorem same_tip_same_ledger
    (launched : launch consensusConsts blockValidator g chainMetadata = .ok engine)
    (launched' : launch consensusConsts blockValidator g chainMetadata' = .ok other)
    (free : CollisionFree fun b => b ∈ (deliveries ++ deliveries').map Delivery.block)
    (fresh : Along DetachesFresh engine deliveries) (fresh' : Along DetachesFresh other deliveries')
    (same : (deliverAll engine deliveries).chainIndex.tip =
      (deliverAll other deliveries').chainIndex.tip) :
    SameLedger (deliverAll engine deliveries).db (deliverAll other deliveries').db := by
  obtain ⟨inv, -, started⟩ := Invariant.launched launched
  obtain ⟨inv', -, started'⟩ := Invariant.launched launched'
  obtain ⟨w, reached, exact⟩ := inv.exact_run (by rw [started]; rfl) fresh
  obtain ⟨w', reached', exact'⟩ := inv'.exact_run (by rw [started']; rfl) fresh'
  have inside : ∀ delivery ∈ deliveries,
      delivery.block ∈ (deliveries ++ deliveries').map Delivery.block := by
    intro delivery mem
    exact List.mem_map_of_mem (List.mem_append_left _ mem)
  have inside' : ∀ delivery ∈ deliveries',
      delivery.block ∈ (deliveries ++ deliveries').map Delivery.block := by
    intro delivery mem
    exact List.mem_map_of_mem (List.mem_append_right _ mem)
  obtain ⟨v, sourced⟩ := (Sourced.launched launched).run inside
  obtain ⟨v', sourced'⟩ := (Sourced.launched launched').run inside'
  obtain rfl : v = w := by
    rw [← canonicalBlocks_eq sourced.canonical, canonicalBlocks_eq reached.canonical]
  obtain rfl : v' = w' := by
    rw [← canonicalBlocks_eq sourced'.canonical, canonicalBlocks_eq reached'.canonical]
  obtain rfl := sourced.same_tip free sourced' same
  exact reached.sameLedger reached' exact exact'

end Ledgers

section Convergence

variable [Primitives] {DB DB' : Type} [FullNodeStorage DB] [FullNodeStorage DB'] [LawfulStorage DB]
  [LawfulStorage DB'] {U : Block → Prop} {engine : StryiConsensusEngine DB}
  {other : StryiConsensusEngine DB'} {g : Block} {w : List Block} {nowSecs : UInt64}
  {candidates candidates' : List Candidate} {consensusConsts : ConsensusConsts}
  {blockValidator : BlockValidator} {chainMetadata : ChainMetadata}

omit [LawfulStorage DB] in
/-- A valid block adds work to its branch. -/
theorem Candidate.Seated.work_pos {candidate : Candidate}
    (seated : candidate.Seated DB blockValidator nowSecs g chainMetadata) :
    0 < candidate.work g := by
  have path : IsChain (g :: candidate.ancestors ++ [candidate.block]) := seated.whole
  have normal := path.normal (i := candidate.ancestors.length + 1) (b := candidate.block)
    (by simp) (by omega)
  have positive := Block.work_pos normal.1
  rw [Candidate.work, Candidate.path, chainWork_append (g :: candidate.ancestors)]
  have last : chainWork [candidate.block] = candidate.block.work := by simp
  omega

/-- A run of placed candidates ends on the chain it started from or on the path of one of them, and
all of them stand directly above their ancestors. -/
theorem Secure.settlesOn (secure : Secure U g engine w)
    (free : HashesIdentify fun b => b = g ∨ U b) (rules : engine.blockValidator = blockValidator)
    (valid : ∀ candidate ∈ candidates, candidate.Valid DB blockValidator nowSecs g chainMetadata ∧
      U candidate.block ∧ ∀ a ∈ candidate.ancestors, U a)
    (placed : Along Placed engine (candidates.map (Candidate.delivery nowSecs))) :
    ∃ w', Secure U g (deliverAll engine (candidates.map (Candidate.delivery nowSecs))) w' ∧
      (w' = w ∨ ∃ candidate ∈ candidates, w' = candidate.path g) ∧
      ∀ candidate ∈ candidates, candidate.Seated DB blockValidator nowSecs g chainMetadata := by
  induction candidates generalizing engine w with
  | nil => exact ⟨w, secure, .inl rfl, nofun⟩
  | cons candidate candidates ih =>
    obtain ⟨passes, inside, known⟩ := valid candidate List.mem_cons_self
    have seated := secure.seats free (rules ▸ passes) known inside placed.1
    obtain ⟨verdict, engine', done, taken⟩ : Settles (Acceptable engine nowSecs candidate.block)
        (onBlock nowSecs .none candidate.block engine) :=
      onBlock_settles secure free.collisionFree inside placed.1.fits placed.1.below placed.1.fresh
    have step := onBlock_ok done
    have reached : StryiChain.deliver engine (candidate.delivery nowSecs) = engine' := by
      unfold StryiChain.deliver Candidate.delivery
      rw [done]
    obtain ⟨middle, secure'⟩ := secure.step free.collisionFree inside placed.1.fits
      (ForksFresh.detachesFresh placed.1.fresh) step
    have here : middle = w ∨ middle = candidate.path g := by
      rw [← canonicalBlocks_eq secure'.canonical]
      by_cases old : ∃ location, engine.classifyBlock candidate.block = .known location
      · rw [step.idle (.inl old)]
        exact .inl (canonicalBlocks_eq secure.canonical)
      · rw [not_exists] at old
        rcases secure.lands free seated known placed.1 old step taken with
          ⟨inv', -⟩ | ⟨inv', -, -⟩
        · exact .inr (canonicalBlocks_eq inv'.canonical)
        · exact .inl (canonicalBlocks_eq inv'.canonical)
    have rules' : engine'.blockValidator = blockValidator := by
      rw [← reached, deliver_blockValidator, rules]
    have rest := placed.2
    rw [reached] at rest
    obtain ⟨w', last, where', seats⟩ :=
      ih secure' rules' (fun later mem => valid later (List.mem_cons_of_mem _ mem)) rest
    rw [← reached] at last
    refine ⟨w', last, ?_, ?_⟩
    · rcases where' with rfl | ⟨later, mem, rfl⟩
      · exact here.imp_right fun path => ⟨candidate, List.mem_cons_self, path⟩
      · exact .inr ⟨later, List.mem_cons_of_mem _ mem, rfl⟩
    · rw [List.forall_mem_cons]
      exact ⟨rules ▸ seated, seats⟩

/-- A run in which one candidate is heavier than all others ends on the path to it. -/
theorem Secure.ends_on_best (secure : Secure U g engine [g])
    (free : HashesIdentify fun b => b = g ∨ U b) (rules : engine.blockValidator = blockValidator)
    (valid : ∀ candidate ∈ candidates, candidate.Valid DB blockValidator nowSecs g chainMetadata ∧
      U candidate.block ∧ ∀ a ∈ candidate.ancestors, U a)
    (placed : Along Placed engine (candidates.map (Candidate.delivery nowSecs)))
    {best : Candidate} (held : best ∈ candidates)
    (heaviest : ∀ candidate ∈ candidates, candidate.block ≠ best.block →
      candidate.work g < best.work g) :
    Secure U g (deliverAll engine (candidates.map (Candidate.delivery nowSecs)))
      (best.path g) := by
  have tip := secure.choosesAll free rules valid placed
  obtain ⟨w', secure', where', seated⟩ := secure.settlesOn free rules valid placed
  rw [secure'.tipWork_eq, Option.some.injEq] at tip
  obtain ⟨-, inside, known⟩ := valid best held
  have reaches : best.work g ≤ chainWork w' := by
    rw [tip]
    exact (foldl_max_le.mp (Nat.le_refl _)).2 _ (List.mem_map_of_mem held)
  have ends : ∃ candidate ∈ candidates, w' = candidate.path g := by
    refine where'.resolve_left ?_
    rintro rfl
    have positive := (seated best held).work_pos
    have start : chainWork [g] = 0 := by
      simp [GenesisShape.work secure.genesis.marker]
    omega
  obtain ⟨candidate, mem, rfl⟩ := ends
  have same : candidate.block = best.block := by
    by_contra differs
    have lighter := heaviest candidate mem differs
    rw [Candidate.work] at lighter
    omega
  have path : candidate.path g = best.path g := by
    apply (seated candidate mem).whole.unique free (seated best held).whole
    · exact secure'.inside
    · intro b here
      rcases List.mem_append.mp here with below | last
      · exact Candidate.inside_ancestry known b below
      · rw [List.mem_singleton.mp last]
        exact .inr inside
    · rw [Candidate.path, Candidate.path, List.getLast?_concat, List.getLast?_concat, same]
  rw [← path]
  exact secure'

/-- Two nodes that receive the same blocks, each in an order in which all of them are placed, end on
the path to the heaviest one and with the same ledger. -/
theorem nodes_converge {best : Candidate} {chainMetadata' : ChainMetadata} {nowSecs' : UInt64}
    (launched : launch consensusConsts blockValidator g chainMetadata = .ok engine)
    (launched' : launch consensusConsts blockValidator g chainMetadata' = .ok other)
    (free : HashesIdentify fun b => b = g ∨ b ∈ candidates.map Candidate.block)
    (order : ParentFirst [] candidates)
    (same : ∀ candidate, candidate ∈ candidates' ↔ candidate ∈ candidates)
    (valid : ∀ candidate ∈ candidates, candidate.Valid DB blockValidator nowSecs g chainMetadata)
    (valid' : ∀ candidate ∈ candidates,
      candidate.Valid DB' blockValidator nowSecs' g chainMetadata')
    (placed : Along Placed engine (candidates.map (Candidate.delivery nowSecs)))
    (placed' : Along Placed other (candidates'.map (Candidate.delivery nowSecs')))
    (held : best ∈ candidates) (heaviest : ∀ candidate ∈ candidates,
      candidate.block ≠ best.block → candidate.work g < best.work g) :
    canonicalBlocks (deliverAll engine (candidates.map (Candidate.delivery nowSecs))).db =
        best.path g ∧
      SameLedger (deliverAll engine (candidates.map (Candidate.delivery nowSecs))).db
        (deliverAll other (candidates'.map (Candidate.delivery nowSecs'))).db := by
  have known : ∀ candidate ∈ candidates, candidate.block ∈ candidates.map Candidate.block ∧
      ∀ a ∈ candidate.ancestors, a ∈ candidates.map Candidate.block := by
    intro candidate mem
    refine ⟨List.mem_map_of_mem mem, fun a ancestor => ?_⟩
    exact (order.known candidate mem a ancestor).resolve_left List.not_mem_nil
  have secure := (Secure.launched launched).ends_on_best free (Invariant.launched launched).2.1
    (fun candidate mem => ⟨valid candidate mem, known candidate mem⟩) placed held heaviest
  have secure' := (Secure.launched launched').ends_on_best free (Invariant.launched launched').2.1
    (fun candidate mem => ⟨valid' candidate ((same candidate).mp mem),
      known candidate ((same candidate).mp mem)⟩) placed' ((same best).mpr held)
    (fun candidate mem => heaviest candidate ((same candidate).mp mem))
  exact ⟨canonicalBlocks_eq secure.canonical,
    secure.toInvariant.sameLedger secure'.toInvariant secure.exact secure'.exact⟩

end Convergence

namespace Sample

/-- The sample on the in-memory backend. -/
def startMemory : Except StryiCoreError (StryiConsensusEngine MemoryView) :=
  launch consts validator genesis ⟨2, "sample", 1, 0⟩

/-- The branch that overtakes, and its blocks before the rival. -/
def ahead : Candidate := ⟨[other], next⟩

def shuffled : List Candidate := [⟨[], other⟩, ahead, ⟨[], rival⟩]

theorem shuffled_valid : ∀ candidate ∈ resumed.take 3,
    candidate.Valid MemoryView validator 1000 genesis ⟨2, "sample", 1, 0⟩ := by
  have passes : ∀ candidate ∈ resumed.take 3,
      ((growFrom genesis ⟨2, "sample", 1, 0⟩ candidate.ancestors :
        Except StorageError MemoryView).toOption.any fun s =>
        (validator.validate 1000 candidate.block s).toOption.any fun _ => true) = true := by
    decide +kernel
  intro candidate mem
  obtain ⟨s, grow, valid⟩ := exists_ok_of_any (passes candidate mem)
  obtain ⟨⟨⟩, valid, -⟩ := exists_ok_of_any valid
  have rocks := resumed_valid candidate (List.mem_of_mem_take mem)
  exact ⟨rocks.chain, rocks.linked, s, grow, valid⟩

end Sample

open Sample in
/-- A node that was overtaken, and one that has never seen the rival. -/
theorem same_tip_same_ledger_sample : ∃ engine other, start = .ok engine ∧
    startMemory = .ok other ∧ SameLedger (deliverAll engine ([rival, Sample.other, next].map call)).db
      (deliverAll other ([Sample.other, next].map call)).db := by
  have reads : start.toOption.any (fun engine => startMemory.toOption.any fun other =>
      (canonicalBlocks engine.db = [genesis] ∧
        canonicalBlocks (deliver engine (call rival)).db = [genesis, rival] ∧
        canonicalBlocks (deliver (deliver engine (call rival)) (call Sample.other)).db =
          [genesis, rival]) ∧
      (canonicalBlocks other.db = [genesis] ∧
        canonicalBlocks (deliver other (call Sample.other)).db = [genesis, Sample.other]) ∧
      (deliverAll engine ([rival, Sample.other, next].map call)).chainIndex.tip =
        (deliverAll other ([Sample.other, next].map call)).chainIndex.tip) = true := by
    decide +kernel
  obtain ⟨engine, started, reads⟩ := exists_ok_of_any reads
  obtain ⟨other, started', reads⟩ := exists_ok_of_any reads
  rw [decide_eq_true_eq] at reads
  obtain ⟨⟨chain, chain1, chain2⟩, ⟨chain', chain1'⟩, same⟩ := reads
  have fresh : Coins.FreshAbove [genesis] [rival] := by decide +kernel
  have fresh' : Coins.FreshAbove [genesis] [Sample.other] := by decide +kernel
  have apart : ∀ a ∈ [rival, Sample.other, next], ∀ b ∈ [rival, Sample.other, next],
      a.blockHash = b.blockHash → a = b := by decide +kernel
  refine ⟨engine, other, started, started', same_tip_same_ledger started started' ?_ ?_ ?_ same⟩
  · intro a b ha hb hash
    have blocks : ∀ x, x ∈ (([rival, Sample.other, next].map call ++
        [Sample.other, next].map call).map Delivery.block) → x ∈ [rival, Sample.other, next] := by
      decide +kernel
    exact apart a (blocks a ha.inside) b (blocks b hb.inside) hash
  · exact ⟨.of_all chain trivial, .of_all chain1 fresh, .of_all chain2 fresh, trivial⟩
  · exact ⟨.of_all chain' trivial, .of_all chain1' fresh', trivial⟩

open Sample in
/-- Two nodes over different backends that see a branch and its rival in different orders. -/
theorem nodes_converge_sample : ∃ engine other, start = .ok engine ∧ startMemory = .ok other ∧
    canonicalBlocks (deliverAll engine
        ((resumed.take 3).map (Candidate.delivery 1000))).db = [genesis, Sample.other, next] ∧
      SameLedger (deliverAll engine ((resumed.take 3).map (Candidate.delivery 1000))).db
        (deliverAll other (shuffled.map (Candidate.delivery 1000))).db := by
  have chains : start.toOption.any (fun engine =>
      let engine1 := deliver engine (call rival)
      let engine2 := deliver engine1 (call Sample.other)
      (HeightsBelow engine ∧ HeightsBelow engine1 ∧ HeightsBelow engine2) ∧
      (canonicalBlocks engine.db = [genesis] ∧ canonicalBlocks engine1.db = [genesis, rival] ∧
        canonicalBlocks engine2.db = [genesis, rival]) ∧
      (engine.classifyBlock rival = .extendsCanonical ∧
        engine1.classifyBlock Sample.other = .createsForkFromCanonical genesis.blockHash ∧
        engine2.classifyBlock next = .extendsFork Sample.other.blockHash genesis.blockHash) ∧
      engine.validateHeight rival = true ∧ engine1.validateHeight Sample.other = true ∧
        engine2.validateHeight next = true) = true := by decide +kernel
  have chains' : startMemory.toOption.any (fun engine =>
      let engine1 := deliver engine (call Sample.other)
      let engine2 := deliver engine1 (call next)
      (HeightsBelow engine ∧ HeightsBelow engine1 ∧ HeightsBelow engine2) ∧
      (canonicalBlocks engine.db = [genesis] ∧
        canonicalBlocks engine1.db = [genesis, Sample.other] ∧
        canonicalBlocks engine2.db = [genesis, Sample.other, next]) ∧
      (engine.classifyBlock Sample.other = .extendsCanonical ∧
        engine1.classifyBlock next = .extendsCanonical ∧
        engine2.classifyBlock rival = .createsForkFromCanonical genesis.blockHash) ∧
      engine.validateHeight Sample.other = true ∧ engine1.validateHeight next = true ∧
        engine2.validateHeight rival = true) = true := by decide +kernel
  obtain ⟨engine, started, reads⟩ := exists_ok_of_any chains
  obtain ⟨other, started', reads'⟩ := exists_ok_of_any chains'
  rw [decide_eq_true_eq] at reads reads'
  obtain ⟨⟨below, below1, below2⟩, ⟨chain, chain1, chain2⟩, ⟨first, second, third⟩, height, height1,
    height2⟩ := reads
  obtain ⟨⟨below', below1', below2'⟩, ⟨chain', chain1', chain2'⟩, ⟨first', second', third'⟩,
    height', height1', height2'⟩ := reads'
  have fresh : Coins.FreshAbove [genesis] [rival] := by decide +kernel
  have fresh1 : Coins.FreshAbove [genesis] [Sample.other] := by decide +kernel
  have fresh2 : Coins.FreshAbove [genesis] [Sample.other, next] := by decide +kernel
  have placed : Along Placed engine ((resumed.take 3).map (Candidate.delivery 1000)) :=
    ⟨⟨⟨rfl, below, by decide, .of_all chain trivial⟩, (fun _ orphan => by
        cases first.symm.trans orphan), height⟩,
      ⟨⟨rfl, below1, by decide, .of_all chain1 fresh⟩, (fun _ orphan => by
        cases second.symm.trans orphan), height1⟩,
      ⟨⟨rfl, below2, by decide, .of_all chain2 fresh⟩, (fun _ orphan => by
        cases third.symm.trans orphan), height2⟩, trivial⟩
  have placed' : Along Placed other (shuffled.map (Candidate.delivery 1000)) :=
    ⟨⟨⟨rfl, below', by decide, .of_all chain' trivial⟩, (fun _ orphan => by
        cases first'.symm.trans orphan), height'⟩,
      ⟨⟨rfl, below1', by decide, .of_all chain1' fresh1⟩, (fun _ orphan => by
        cases second'.symm.trans orphan), height1'⟩,
      ⟨⟨rfl, below2', by decide, .of_all chain2' fresh2⟩, (fun _ orphan => by
        cases third'.symm.trans orphan), height2'⟩, trivial⟩
  have free : HashesIdentify fun b => b = genesis ∨ b ∈ (resumed.take 3).map Candidate.block := by
    intro a b ha hb same
    exact resumed_identified a b (ha.imp_right fun mem => List.map_subset _ (List.take_subset _ _) mem)
      (hb.imp_right fun mem => List.map_subset _ (List.take_subset _ _) mem) same
  have valid : ∀ candidate ∈ resumed.take 3,
      candidate.Valid RocksView validator 1000 genesis ⟨2, "sample", 1, 0⟩ :=
    fun candidate mem => resumed_valid candidate (List.mem_of_mem_take mem)
  have heaviest : ∀ candidate ∈ resumed.take 3, candidate.block ≠ ahead.block →
      candidate.work genesis < ahead.work genesis := by decide +kernel
  refine ⟨engine, other, started, started', nodes_converge started started' free ?_ ?_ valid
    shuffled_valid placed placed' ?_ heaviest⟩
  · simp [ParentFirst, resumed]
  · intro candidate
    simp only [shuffled, ahead, resumed, List.take_succ_cons, List.take_zero, List.mem_cons,
      List.not_mem_nil, or_false]
    exact or_assoc.symm.trans or_comm
  · simp [resumed, ahead]

end StryiChain
