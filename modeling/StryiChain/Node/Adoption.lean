import StryiChain.Chain.Choice
import StryiChain.Chain.Redelivery
import StryiChain.Misc.Branching
import StryiChain.Node.Sync

/-!
# What synchronization achieves

A node that synchronizes with a peer feeds the blocks of the peer above the last common one to its
engine. Every one of them finds its parent unless a branch of the registry shares its first blocks
with the peer and then goes on differently: the next block of the peer stands above the middle of
that branch, counts as an orphan, and so does everything above it. Otherwise the node ends on the
chain of the peer.
-/

namespace StryiChain

open LawfulStorage StryiConsensusEngine

section Meeting

variable [Primitives] {DB : Type} [FullNodeStorage DB] [LawfulStorage DB] {U : Block → Prop}
  {engine : StryiConsensusEngine DB} {g b : Block} {w w' p q r front back : List Block}
  {nowSecs : UInt64} {chainMetadata : ChainMetadata} {candidate : Candidate} {key : BlockHash}
  {e : ForkEntry}

omit [LawfulStorage DB] in
/-- The blocks of a branch are none of the canonical chain. -/
theorem Branches.outside {rules : ConsensusConsts} (branches : Branches rules w e p q) :
    ∀ b ∈ e.blocks, b ∉ w :=
  fun b mem canonical => branches.apart b mem (List.mem_map_of_mem canonical)

variable (free : HashesIdentify fun b => b = g ∨ U b) (forked : Forked w w' p q r)

include free forked in
/-- A branch that shares a block with the other chain leaves the canonical chain where that chain
does, and has the same blocks up to the shared one. -/
theorem Secure.meets (secure : Secure U g engine w) (chain' : IsChain w')
    (inside' : ∀ b ∈ w', b = g ∨ U b) (found : engine.forks.read key = some e)
    (here : e.blocks = front ++ b :: back) (mem : b ∈ w') :
    Branches engine.blockValidator.consensusConsts w e p q ∧ ∃ todo, r = front ++ b :: todo := by
  obtain ⟨-, p', q', branches⟩ := secure.registry.entry found
  have inside := secure.inside_branch found branches
  have chain := branches.chain
  have outside := branches.outside
  have new : b ∉ w := outside b (by rw [here]; simp)
  have above : b ∈ r := by
    rw [forked.right] at mem
    refine (List.mem_append.mp mem).resolve_left fun low => new ?_
    rw [forked.left]
    exact List.mem_append_left q low
  obtain ⟨front', todo, rest⟩ := List.append_of_mem above
  rw [forked.right, rest, List.append_cons front', ← List.append_assoc] at chain' inside'
  rw [here, List.append_cons front, ← List.append_assoc] at chain inside
  have same : p' ++ (front ++ [b]) = p ++ (front' ++ [b]) := by
    apply (chain.left (by simp)).unique free (chain'.left (by simp))
    · exact fun x mem => inside x (List.mem_append_left back mem)
    · exact fun x mem => inside' x (List.mem_append_left todo mem)
    · simp
  obtain ⟨rfl, blocks⟩ : p' = p ∧ front ++ [b] = front' ++ [b] := by
    apply forked.joins branches.split same
    · rw [rest, List.append_cons front' b todo]
      exact List.prefix_append _ todo
    · intro x mem
      apply outside x
      rw [here, List.append_cons front]
      exact List.mem_append_left back mem
  have rest' : q = q' := by
    have split := branches.split
    rwa [forked.left, List.append_cancel_left_eq] at split
  rw [List.append_cancel_right_eq] at blocks
  subst rest' blocks
  exact ⟨branches, todo, rest⟩

include free forked in
/-- A branch inside the other chain is what that chain starts with. -/
theorem Secure.meets_all (secure : Secure U g engine w) (chain' : IsChain w')
    (inside' : ∀ b ∈ w', b = g ∨ U b) (found : engine.forks.read key = some e)
    (all : ∀ b ∈ e.blocks, b ∈ w') : e.blocks <+: r := by
  obtain ⟨-, p', q', branches⟩ := secure.registry.entry found
  rcases List.eq_nil_or_concat e.blocks with none | ⟨front, b, here⟩
  · exact absurd none branches.blocks_ne_nil
  · rw [List.concat_eq_append] at here
    obtain ⟨-, todo, rest⟩ := secure.meets free forked chain' inside' found here
      (all b (by rw [here]; simp))
    rw [here, rest, List.append_cons front b todo]
    exact List.prefix_append _ todo

include free forked in
/-- A branch that shares a block with the other chain shares the first one. -/
theorem Secure.meets_first (secure : Secure U g engine w) (chain' : IsChain w')
    (inside' : ∀ b ∈ w', b = g ∨ U b) (found : engine.forks.read key = some e)
    (held : b ∈ e.blocks) (shared : b ∈ w') : ∀ a, r.head? = some a → a ∈ e.blocks := by
  intro a head
  obtain ⟨front, back, blocks⟩ := List.append_of_mem held
  obtain ⟨-, todo, rest⟩ := secure.meets free forked chain' inside' found blocks shared
  rw [rest] at head
  rw [blocks]
  cases front with
  | nil =>
    obtain rfl : b = a := by simpa using head
    exact List.mem_cons_self
  | cons a' front =>
    obtain rfl : a' = a := by simpa using head
    exact List.mem_cons_self

variable (seated : candidate.Seated DB engine.blockValidator nowSecs g chainMetadata)
  (known : ∀ a ∈ candidate.ancestors, U a)

include free forked seated known in
/-- Above the last common block only the canonical blocks above it can be left. -/
theorem Secure.forksFresh (secure : Secure U g engine w)
    (above : g :: candidate.ancestors = p ++ front) (along : front <+: r)
    (fresh : Coins.FreshAbove p q) : ForksFresh engine candidate.block := by
  intro _ _ lca p' q' root blocks last
  rw [canonicalBlocks_eq secure.canonical] at blocks
  have rest : p' = p → q = q' := by
    rintro rfl
    rwa [forked.left, List.append_cancel_left_eq] at blocks
  suffices same : p' = p by
    rw [← rest same, same]
    exact fresh
  have spec := classifyBlock_spec engine candidate.block
  unfold forkRoot at root
  cases class' : engine.classifyBlock candidate.block with
  | known location =>
    rw [class'] at root
    cases root
  | extendsCanonical =>
    rw [class'] at root
    cases root
  | createsForkFromCanonical lca' =>
    rw [class'] at root spec
    cases root
    obtain ⟨-, rfl, -⟩ := spec
    have ancestry := secure.ancestry_canonical free seated.toValid known blocks last
    rw [above] at ancestry
    have none : front = [] := by
      apply forked.eq_nil _ along
      rw [ancestry, forked.left, List.append_assoc, List.append_cancel_left_eq] at blocks
      exact ⟨q', blocks.symm⟩
    rw [ancestry, none, List.append_nil]
  | extendsFork parent root' =>
    rw [class'] at root spec
    cases root
    obtain ⟨-, rfl, -, e, found, rfl⟩ := spec
    obtain ⟨-, p'', q'', branches⟩ := secure.registry.entry found
    have ancestry := secure.ancestry_branch free seated.toValid known found branches
    obtain ⟨rfl, -⟩ := forked.joins branches.split (ancestry.trans above) along branches.outside
    obtain ⟨a, last', hash⟩ := Option.map_eq_some_iff.mp last
    obtain ⟨a', last'', hash'⟩ := Option.map_eq_some_iff.mp branches.ancestor
    have chain := secure.canonical.chain
    rw [blocks] at chain
    exact (chain.split_unique (blocks.symm.trans branches.split) last' last''
      (hash.trans hash'.symm)).1
  | orphan parent =>
    rw [class'] at root
    cases root

end Meeting

section Progress

variable [Primitives] {DB : Type} [FullNodeStorage DB] [LawfulStorage DB]

/-- The state of the engine when the blocks `front` of the other chain have been delivered. Either
the canonical chain is still the old one and a branch holds them, or they are canonical. -/
inductive Progress (U : Block → Prop) (g : Block) (p q r : List Block)
    (engine : StryiConsensusEngine DB) (front : List Block) : Prop
  | behind (secure : Secure U g engine (p ++ q))
      (entries : ∀ key e, engine.forks.read key = some e → ∀ b ∈ e.blocks, b ∈ r →
        e.blocks <+: r)
      (held : front = [] ∨ ∃ key e, engine.forks.read key = some e ∧ front <+: e.blocks)
  | adopted (secure : Secure U g engine (p ++ front))

variable {U : Block → Prop} {engine engine' : StryiConsensusEngine DB} {g b : Block}
  {w w' p q r front todo : List Block} {nowSecs : UInt64} {chainMetadata : ChainMetadata}
  {candidate : Candidate} {verdict : ConsensusVerdict}

/-- The heights stay below the bound when the height of the delivered block does. -/
theorem HeightsBelow.step (below : HeightsBelow engine) (inv : Invariant g engine w)
    (step : Step engine nowSecs b verdict engine')
    (height : b.header.height.toNat < 2 ^ 64 - 2) : HeightsBelow engine' := by
  refine ⟨fun tip top => ?_, fun key e found x mem => ?_⟩
  · obtain ⟨w', inv', moves⟩ := inv.step step
    obtain ⟨last, hlast, tip'⟩ := inv'.exists_tip
    rw [top, Option.some.injEq] at tip'
    subst tip'
    cases moves with
    | stays same =>
      obtain ⟨old, hold, old_tip⟩ := inv.exists_tip
      rw [hlast, Option.some.injEq] at hold
      subst hold
      exact below.1 _ old_tip
    | grows follows appended =>
      rw [List.getLast?_concat, Option.some.injEq] at hlast
      subst hlast
      exact height
    | switches overtakes old branch heavier room reorganized =>
      rw [← List.append_assoc, List.getLast?_concat, Option.some.injEq] at hlast
      subst hlast
      exact height
  · rcases step.forks_provenance inv key e found x mem with rfl | ⟨key', e', found', mem'⟩
    · exact height
    · exact below.2 key' e' found' x mem'

/-- The chain of a state after a step is known. -/
theorem Secure.step_at (secure : Secure U g engine w) (free : CollisionFree U) (inside : U b)
    (fits : b.data.transactions.length ≤ 2 ^ 32) (fresh : ForksFresh engine b)
    (step : Step engine nowSecs b verdict engine') (inv' : Invariant g engine' w') :
    Secure U g engine' w' := by
  obtain ⟨w'', secure'⟩ := secure.step free inside fits (ForksFresh.detachesFresh fresh) step
  rwa [← canonicalBlocks_eq secure'.canonical, canonicalBlocks_eq inv'.canonical] at secure'

variable (free : HashesIdentify fun b => b = g ∨ U b)
  (seated : candidate.Seated DB engine.blockValidator nowSecs g chainMetadata)
  (known : ∀ a ∈ candidate.ancestors, U a) (inside : U candidate.block)

omit [FullNodeStorage DB] [LawfulStorage DB] in
/-- The canonical chain holds the parent of a block that is no orphan. -/
theorem not_orphan_of_has {parent : BlockHash}
    (has : engine.chainIndex.has b.header.previousBlockHash = true) :
    engine.classifyBlock b ≠ .orphan parent := by
  intro orphan
  have spec := classifyBlock_spec engine b
  rw [orphan] at spec
  obtain ⟨-, rfl, absent, -⟩ := spec
  rw [has] at absent
  cases absent

/-- A call is accepted, and the blocks have come one further. -/
def Advances (U : Block → Prop) (g : Block) (p q r : List Block) (engine : StryiConsensusEngine DB)
    (nowSecs : UInt64) (b : Block) (front : List Block) : Prop :=
  ∃ verdict engine', onBlock nowSecs .none b engine = .ok verdict engine' ∧
    (∀ error, verdict ≠ .rejected error) ∧ Progress U g p q r engine' front

include free seated known inside in
/-- A new block that is placed is accepted, and lands. -/
theorem Secure.delivers (secure : Secure U g engine w)
    (placed : Placed engine (candidate.delivery nowSecs))
    (new : ∀ location, engine.classifyBlock candidate.block ≠ .known location) :
    ∃ verdict engine', onBlock nowSecs .none candidate.block engine = .ok verdict engine' ∧
      (∀ error, verdict ≠ .rejected error) ∧
      ((Secure U g engine' (candidate.path g) ∧ chainWork w ≤ candidate.work g) ∨
      (Secure U g engine' w ∧ candidate.work g ≤ chainWork w ∧ ∃ key e,
        engine'.forks.read key = some e ∧ e.blocks.getLast? = some candidate.block ∧
        ∀ key' e', engine'.forks.read key' = some e' →
          e' = e ∨ engine.forks.read key' = some e')) := by
  have vetted := free.collisionFree
  obtain ⟨verdict, engine', done, taken⟩ : Settles (Acceptable engine nowSecs candidate.block)
      (onBlock nowSecs .none candidate.block engine) :=
    onBlock_settles secure vetted inside placed.fits placed.below placed.fresh
  have step := onBlock_ok done
  have secured : ∀ {w' : List Block}, Invariant g engine' w' → Secure U g engine' w' :=
    fun inv' => secure.step_at vetted inside placed.fits placed.fresh step inv'
  refine ⟨verdict, engine', done, taken (secure.accepts free seated known placed new), ?_⟩
  exact (secure.lands free seated known placed new step taken).imp
    (fun ⟨inv', heavier⟩ => ⟨secured inv', heavier⟩)
    (fun ⟨inv', lighter, branch⟩ => ⟨secured inv', lighter, branch⟩)

include free seated known in
/-- A block that is known already is accepted again. -/
theorem Secure.redelivers (secure : Secure U g engine w) {location : KnownLocation}
    (held : engine.classifyBlock candidate.block = .known location) :
    ∃ verdict, onBlock nowSecs .none candidate.block engine = .ok verdict engine ∧
      ∀ error, verdict ≠ .rejected error := by
  have height := secure.validateHeight_ok free seated known
  have run := onBlock_known (Candidate.next seated).1 height held nowSecs .none
  cases location <;> exact ⟨_, run, fun _ same => by cases same⟩

omit [LawfulStorage DB] in
include seated in
/-- The work of a candidate is more than the work below it. -/
theorem Candidate.work_lt (above : g :: candidate.ancestors = w) :
    chainWork w < candidate.work g := by
  have path : IsChain (g :: candidate.ancestors ++ [candidate.block]) := seated.whole
  have normal := path.normal (i := candidate.ancestors.length + 1) (b := candidate.block)
    (by simp) (by omega)
  have positive := Block.work_pos normal.1
  rw [Candidate.work, Candidate.path, above, chainWork_append w]
  simpa using positive

include seated in
/-- A block above the canonical tip is no orphan. -/
theorem Secure.parent_has (secure : Secure U g engine w) (split : w = p ++ q)
    (above : g :: candidate.ancestors = p) :
    engine.chainIndex.has candidate.block.header.previousBlockHash = true := by
  obtain ⟨-, top, last, parent, -⟩ := Candidate.next seated
  rw [above] at last
  apply secure.canonical.indexOf.has_iff.mpr
  rw [parent, split]
  exact List.mem_map_of_mem (List.mem_append_left q (List.mem_of_getLast? last))

include free seated known inside in
/-- A block above an adopted chain makes it longer. -/
theorem Secure.advances_adopted (secure : Secure U g engine (p ++ front))
    (above : g :: candidate.ancestors = p ++ front) (below : HeightsBelow engine)
    (fits : candidate.block.data.transactions.length ≤ 2 ^ 32) :
    Advances U g p q r engine nowSecs candidate.block (front ++ [candidate.block]) := by
  have heavier := Candidate.work_lt seated above
  have fresh : ForksFresh engine candidate.block := by
    have forked : Forked (p ++ front) (p ++ front ++ [candidate.block]) (p ++ front) []
        [candidate.block] := ⟨(List.append_nil _).symm, rfl, nofun⟩
    have upper : g :: candidate.ancestors = p ++ front ++ [] := by rw [above, List.append_nil]
    exact secure.forksFresh free forked seated known upper List.nil_prefix trivial
  have placed : Placed engine (candidate.delivery nowSecs) :=
    ⟨⟨rfl, below, fits, fresh⟩, fun _ =>
      not_orphan_of_has (secure.parent_has seated (List.append_nil _).symm above),
      secure.validateHeight_ok free seated known⟩
  have new : ∀ location, engine.classifyBlock candidate.block ≠ .known location := by
    intro location held
    exact absurd (secure.known_le free seated known inside held) (Nat.not_le.mpr heavier)
  obtain ⟨verdict, engine', done, accepted, adopted | ⟨-, lighter, -⟩⟩ :=
    secure.delivers free seated known inside placed new
  · have secure' := adopted.1
    rw [Candidate.path, above, List.append_assoc] at secure'
    exact ⟨verdict, engine', done, accepted, .adopted secure'⟩
  · exact absurd lighter (Nat.not_le.mpr heavier)

variable (forked : Forked (p ++ q) w' p q r) (split : r = front ++ candidate.block :: todo)
  (above : g :: candidate.ancestors = p ++ front)

omit [LawfulStorage DB] in
include free seated known inside forked split above in
/-- A known chain that starts below the fork point and ends in the delivered block has its
ancestors. -/
theorem Candidate.branch_eq {p' q' bs : List Block} (chain : IsChain (p' ++ bs))
    (identified : ∀ b ∈ p' ++ bs, b = g ∨ U b) (lower : p ++ q = p' ++ q')
    (last : (p' ++ bs).getLast?.map Block.blockHash = some candidate.block.blockHash)
    (outside : ∀ b ∈ bs, b ∉ p ++ q) : bs = front ++ [candidate.block] := by
  have same : p' ++ bs = candidate.path g := by
    apply chain.unique free seated.whole identified
    · intro x mem
      rcases List.mem_append.mp mem with old | new
      · exact Candidate.inside_ancestry known x old
      · rw [List.mem_singleton.mp new]
        exact .inr inside
    · rw [last, Candidate.path, List.getLast?_concat, Option.map_some]
  rw [Candidate.path, above, List.append_assoc] at same
  refine (forked.joins lower same ?_ outside).2
  rw [split, List.append_cons front candidate.block todo]
  exact List.prefix_append _ todo

include free seated known inside forked split above in
/-- A known block of the other chain is in a branch, behind those before it. -/
theorem Secure.known_behind (secure : Secure U g engine (p ++ q)) {location : KnownLocation}
    (held : engine.classifyBlock candidate.block = .known location) :
    ∃ key e, engine.forks.read key = some e ∧ front ++ [candidate.block] <+: e.blocks := by
  rcases secure.known_where held with canonical | ⟨key, e, found, mem⟩
  · exfalso
    obtain ⟨p', q', a, lower, last, hash⟩ := exists_below canonical
    have chain := secure.canonical.chain
    have identified := secure.inside
    rw [lower] at chain identified
    have ne : p' ≠ [] := by
      intro none
      rw [none] at last
      cases last
    have start : IsChain (p' ++ []) := by
      rw [List.append_nil]
      exact chain.left ne
    have none : [] = front ++ [candidate.block] := by
      apply Candidate.branch_eq free seated known inside forked split above start _ lower _ nofun
      · intro x mem
        rw [List.append_nil] at mem
        exact identified x (List.mem_append_left q' mem)
      · rw [List.append_nil, last, Option.map_some, hash]
    simp at none
  · obtain ⟨-, p', q', branches⟩ := secure.registry.entry found
    obtain ⟨b, here, same⟩ := List.mem_map.mp mem
    obtain ⟨low, high, blocks⟩ := List.append_of_mem here
    have chain := branches.chain
    have identified := secure.inside_branch found branches
    have outside := branches.outside
    rw [blocks, List.append_cons low b high] at chain identified outside
    rw [← List.append_assoc] at chain identified
    have upper : low ++ [b] = front ++ [candidate.block] := by
      apply Candidate.branch_eq free seated known inside forked split above (chain.left (by simp))
        (fun x mem => identified x (List.mem_append_left high mem)) branches.split
      · rw [← List.append_assoc, List.getLast?_concat, Option.map_some, same]
      · exact fun x mem => outside x (List.mem_append_left high mem)
    refine ⟨key, e, found, ?_⟩
    rw [← upper, blocks, List.append_cons low b high]
    exact List.prefix_append _ high

include seated split above in
/-- The next block of the other chain finds its parent. -/
theorem Secure.not_orphan_behind (secure : Secure U g engine (p ++ q))
    (entries : ∀ key e, engine.forks.read key = some e → ∀ b ∈ e.blocks, b ∈ r → e.blocks <+: r)
    (held : front = [] ∨ ∃ key e, engine.forks.read key = some e ∧ front <+: e.blocks)
    {parent : BlockHash} : engine.classifyBlock candidate.block ≠ .orphan parent := by
  by_cases empty : front = []
  · rw [empty, List.append_nil] at above
    exact not_orphan_of_has (secure.parent_has seated rfl above)
  · intro orphan
    have spec := classifyBlock_spec engine candidate.block
    rw [orphan] at spec
    obtain ⟨unknown, rfl, -, none⟩ := spec
    obtain ⟨key, e, found, inner⟩ := held.resolve_left empty
    have new : candidate.block ∉ e.blocks := fun mem =>
      hasBlock_eq_false.mp unknown.blocks found _ mem rfl
    obtain ⟨keyed, p', q', branches⟩ := secure.registry.entry found
    have along : front ++ [candidate.block] <+: r := by
      rw [split, List.append_cons front candidate.block todo]
      exact List.prefix_append _ todo
    have inside : e.blocks <+: r := by
      obtain ⟨x, rest, rfl⟩ := List.exists_cons_of_ne_nil empty
      apply entries key e found x (inner.subset List.mem_cons_self)
      exact along.subset (List.mem_append_left _ List.mem_cons_self)
    -- The branch has no further block, so that its tip is the parent.
    have blocks : e.blocks = front := by
      rcases List.prefix_or_prefix_of_prefix inside along with short | long
      · rcases List.prefix_concat_iff.mp short with whole | lower
        · exact absurd (by rw [whole]; simp) new
        · exact lower.eq_of_length_le inner.length_le
      · exact absurd (long.subset (by simp)) new
    obtain ⟨-, top, last, hash, -⟩ := Candidate.next seated
    have tip := branches.tip
    rw [above, List.getLast?_append_of_ne_nil _ empty] at last
    rw [blocks, last, Option.map_some, Option.some.injEq, ← hash, keyed] at tip
    rw [tip] at none
    cases found.symm.trans none

include free seated known inside forked split above in
/-- A block above a branch of blocks of the other chain is accepted. -/
theorem Secure.advances_behind (secure : Secure U g engine (p ++ q))
    (entries : ∀ key e, engine.forks.read key = some e → ∀ b ∈ e.blocks, b ∈ r → e.blocks <+: r)
    (held : front = [] ∨ ∃ key e, engine.forks.read key = some e ∧ front <+: e.blocks)
    (fresh : Coins.FreshAbove p q) (below : HeightsBelow engine)
    (fits : candidate.block.data.transactions.length ≤ 2 ^ 32) :
    Advances U g p q r engine nowSecs candidate.block (front ++ [candidate.block]) := by
  by_cases old : ∃ location, engine.classifyBlock candidate.block = .known location
  · obtain ⟨location, class'⟩ := old
    obtain ⟨verdict, done, accepted⟩ := secure.redelivers free seated known class'
    refine ⟨verdict, engine, done, accepted, .behind secure entries (.inr ?_)⟩
    exact secure.known_behind free seated known inside forked split above class'
  · rw [not_exists] at old
    have along : front ++ [candidate.block] <+: r := by
      rw [split, List.append_cons front candidate.block todo]
      exact List.prefix_append _ todo
    have along' : front <+: r := (List.prefix_append front _).trans along
    have placed : Placed engine (candidate.delivery nowSecs) :=
      ⟨⟨rfl, below, fits, secure.forksFresh free forked seated known above along' fresh⟩,
        fun _ => secure.not_orphan_behind seated split above entries held,
        secure.validateHeight_ok free seated known⟩
    obtain ⟨verdict, engine', done, accepted, adopted | ⟨secure', -, key, e, found, last, others⟩⟩ :=
      secure.delivers free seated known inside placed old
    · have secure' := adopted.1
      rw [Candidate.path, above, List.append_assoc] at secure'
      exact ⟨verdict, engine', done, accepted, .adopted secure'⟩
    · obtain ⟨-, p', q', branches⟩ := secure'.registry.entry found
      have blocks : e.blocks = front ++ [candidate.block] := by
        apply Candidate.branch_eq free seated known inside forked split above branches.chain
          (secure'.inside_branch found branches) branches.split _ branches.outside
        rw [List.getLast?_append_of_ne_nil _ branches.blocks_ne_nil, last, Option.map_some]
      refine ⟨verdict, engine', done, accepted, .behind secure' ?_ (.inr ⟨key, e, found, ?_⟩)⟩
      · intro key' e' found' b mem shared
        rcases others key' e' found' with rfl | before
        · rw [blocks]
          exact along
        · exact entries key' e' before b mem shared
      · rw [blocks]

include free seated known inside forked split above in
/-- The next block of the other chain is accepted. -/
theorem Progress.advances (progress : Progress U g p q r engine front)
    (fresh : Coins.FreshAbove p q) (below : HeightsBelow engine)
    (fits : candidate.block.data.transactions.length ≤ 2 ^ 32) :
    Advances U g p q r engine nowSecs candidate.block (front ++ [candidate.block]) := by
  cases progress with
  | behind secure entries held =>
    exact secure.advances_behind free seated known inside forked split above entries held fresh
      below fits
  | adopted secure => exact secure.advances_adopted free seated known inside above below fits

include free seated known forked split above in
/-- If a branch shares blocks with the other chain and then leaves it, then every block of that
chain is known already or an orphan. -/
theorem Secure.idle (secure : Secure U g engine (p ++ q)) (chain' : IsChain w')
    (inside' : ∀ b ∈ w', b = g ∨ U b) {key : BlockHash} {e : ForkEntry} {b₀ b₁ : Block}
    (found : engine.forks.read key = some e) (held : b₀ ∈ e.blocks) (shared : b₀ ∈ w')
    (held' : b₁ ∈ e.blocks) (strange : b₁ ∉ r) :
    (∃ location, engine.classifyBlock candidate.block = .known location) ∨
      ∃ parent, engine.classifyBlock candidate.block = .orphan parent := by
  have first := secure.meets_first free forked chain' inside' found held shared
  have along : front <+: r := by
    rw [split]
    exact List.prefix_append _ _
  -- The first block of the other chain is known.
  have known_first : front = [] → Unknown engine candidate.block → False := by
    intro empty unknown
    rw [empty, List.nil_append] at split
    exact hasBlock_eq_false.mp unknown.blocks found _ (first _ (by rw [split]; rfl)) rfl
  have spec := classifyBlock_spec engine candidate.block
  cases class' : engine.classifyBlock candidate.block with
  | known location => exact .inl ⟨location, rfl⟩
  | orphan parent => exact .inr ⟨parent, rfl⟩
  | extendsCanonical =>
    rw [class'] at spec
    have ancestry := (secure.acceptable_canonical free seated known class').1
    rw [above, List.append_cancel_left_eq] at ancestry
    exact (known_first (forked.eq_nil (ancestry ▸ List.prefix_rfl) along) spec.1).elim
  | createsForkFromCanonical lca =>
    rw [class'] at spec
    obtain ⟨unknown, rfl, has⟩ := spec
    obtain ⟨p', q', a, lower, last, hash⟩ :=
      exists_below (secure.canonical.indexOf.has_iff.mp has)
    have ancestry : p' = g :: candidate.ancestors := by
      apply secure.ancestry_canonical free seated.toValid known lower
      rw [last, Option.map_some, hash]
    rw [ancestry, above, List.append_assoc, List.append_cancel_left_eq] at lower
    exact (known_first (forked.eq_nil ⟨q', lower.symm⟩ along) unknown).elim
  | extendsFork parent root =>
    rw [class'] at spec
    obtain ⟨-, rfl, -, e', found', -⟩ := spec
    obtain ⟨-, p', q', branches⟩ := secure.registry.entry found'
    have ancestry := secure.ancestry_branch free seated.toValid known found' branches
    obtain ⟨-, blocks⟩ := forked.joins branches.split (ancestry.trans above) along branches.outside
    obtain ⟨x, rest, cons⟩ := List.exists_cons_of_ne_nil branches.blocks_ne_nil
    have head : r.head? = some x := by
      rw [split, ← blocks, cons]
      rfl
    have same := secure.registry.disjoint found found' (first x head)
      (by rw [cons]; exact List.mem_cons_self) rfl
    rw [← same] at found'
    obtain rfl : e = e' := Option.some.inj (found.symm.trans found')
    exact absurd (along.subset (blocks ▸ held')) strange

end Progress

section Reached

variable [Primitives] {DB : Type} [FullNodeStorage DB] [LawfulStorage DB] {U : Block → Prop}
  {engine : StryiConsensusEngine DB} {g : Block} {w : List Block} {nowSecs : UInt64}
  {validator : BlockValidator} {chainMetadata : ChainMetadata} {candidate : Candidate}
  {deliveries : List Delivery}

/-- Everything that the engine holds is vetted. -/
theorem Secure.vetted (secure : Secure U g engine w) : Secure (Vetted U) g engine w := by
  refine ⟨secure.toInvariant, secure.exact, secure.archived, fun hash b found => ?_,
    fun key e found b mem => ?_⟩
  · refine (secure.bodies hash b found).imp_right fun vetted => ?_
    exact ⟨vetted, vetted.normal, vetted.merkle, vetted.unique⟩
  · obtain ⟨-, p, q, branches⟩ := secure.registry.entry found
    obtain ⟨inside, fits⟩ := secure.held key e found b mem
    exact ⟨branches.admissible.vetted branches.chain branches.ne_nil mem inside, fits⟩

/-- A valid block is vetted. -/
theorem Candidate.Seated.vetted (seated : candidate.Seated DB validator nowSecs g chainMetadata)
    (inside : U candidate.block) : Vetted U candidate.block := by
  have path : IsChain (g :: candidate.ancestors ++ [candidate.block]) := seated.whole
  have normal := path.normal (i := candidate.ancestors.length + 1) (b := candidate.block)
    (by simp) (by omega)
  obtain ⟨s, grown, passes⟩ := seated.passes
  have views := views_growFrom (path.left (by simp)) grown
  obtain ⟨-, admitted⟩ := validate_eq_ok views.reads normal.1 passes
  exact ⟨inside, normal.1, admitted.merkle, admitted.structured.unique⟩

end Reached

section Run

variable [Primitives] [Floats] {DB PeerDB : Type} [FullNodeStorage DB] [LawfulStorage DB]
  [FullNodeStorage PeerDB] [LawfulStorage PeerDB]

/-- The blocks above genesis of a chain of which every block is valid on those below it, at the time
at which it is checked. -/
def Offered (DB : Type) [FullNodeStorage DB] (validator : BlockValidator) (clock : Block → UInt64)
    (g : Block) (chainMetadata : ChainMetadata) (rest : List Block) : Prop :=
  ∀ front b back, rest = front ++ b :: back →
    Candidate.Valid DB validator (clock b) g chainMetadata ⟨front, b⟩

/-- Every branch of the registry lies on the chain or apart from it. -/
def NoBranchLeaves (engine : StryiConsensusEngine DB) (rest : List Block) : Prop :=
  ∀ key e, engine.forks.read key = some e → (∃ b ∈ e.blocks, b ∈ rest) →
    ∀ b ∈ e.blocks, b ∈ rest

variable {U : Block → Prop} {engine : StryiConsensusEngine DB} {g : Block}
  {base q r front todo rest : List Block} {clock : Block → UInt64} {validator : BlockValidator}
  {chainMetadata : ChainMetadata}

variable (free : HashesIdentify fun b => b = g ∨ U b)
  (forked : Forked (g :: base ++ q) (g :: (base ++ r)) (g :: base) q r)
  (offered : Offered DB validator clock g chainMetadata (base ++ r))
  (chain' : IsChain (g :: (base ++ r))) (known : ∀ b ∈ base ++ r, U b)

omit [Floats] [LawfulStorage DB] in
/-- A block of an offered chain stands directly above the blocks before it. -/
theorem Offered.seated (offered : Offered DB validator clock g chainMetadata rest)
    (chain : IsChain (g :: rest)) {b : Block} (split : rest = front ++ b :: todo) :
    Candidate.Seated DB validator (clock b) g chainMetadata ⟨front, b⟩ := by
  refine ⟨offered front b todo split, ?_⟩
  rw [split, List.append_cons, ← List.cons_append] at chain
  exact chain.left (by simp)

omit [Floats] [LawfulStorage DB] in
include offered chain' known in
/-- A block of the other chain as a candidate. -/
theorem Offered.candidate (rules : engine.blockValidator = validator) {b : Block}
    (split : r = front ++ b :: todo) :
    Candidate.Seated DB engine.blockValidator (clock b) g chainMetadata ⟨base ++ front, b⟩ ∧
      (∀ a ∈ base ++ front, U a) ∧ b ∈ r ∧ U b := by
  have mem : b ∈ r := by
    rw [split]
    simp
  refine ⟨?_, fun a below => ?_, mem, known b (List.mem_append_right base mem)⟩
  · rw [rules]
    apply offered.seated chain'
    rw [split, List.append_assoc]
  · apply known
    rw [split, ← List.append_assoc]
    exact List.mem_append_left _ below

omit [Floats] in
include free forked offered chain' known in
/-- All blocks of the other chain are accepted, one after the other. -/
theorem Progress.run (fits : ∀ b ∈ r, b.data.transactions.length ≤ 2 ^ 32)
    (room : (base ++ r).length < 2 ^ 64 - 2) (fresh : Coins.FreshAbove (g :: base) q)
    (progress : Progress U g (g :: base) q r engine front) (split : r = front ++ todo)
    (rules : engine.blockValidator = validator) (below : HeightsBelow engine) :
    Along ConsensusRuntime.Accepts engine (todo.map (syncDelivery clock)) ∧
      Progress U g (g :: base) q r (deliverAll engine (todo.map (syncDelivery clock))) r := by
  induction todo generalizing engine front with
  | nil =>
    rw [List.append_nil] at split
    rw [split]
    exact ⟨trivial, split ▸ progress⟩
  | cons b todo ih =>
    obtain ⟨seated, ancestors, mem, inside⟩ := offered.candidate chain' known rules split
    obtain ⟨verdict, engine', done, accepted, progress'⟩ := progress.advances free seated ancestors
      inside forked split rfl fresh below (fits b mem)
    have reached : StryiChain.deliver engine (syncDelivery clock b) = engine' := by
      unfold StryiChain.deliver syncDelivery
      rw [done]
    have height : b.header.height.toNat < 2 ^ 64 - 2 := by
      have path : IsChain (g :: (base ++ front) ++ [b]) := seated.whole
      rw [path.height_eq_length, List.length_cons]
      rw [split, ← List.append_assoc, List.length_append, List.length_cons] at room
      omega
    have below' : HeightsBelow engine' := by
      cases progress with
      | behind secure => exact below.step secure.toInvariant (onBlock_ok done) height
      | adopted secure => exact below.step secure.toInvariant (onBlock_ok done) height
    have rules' : engine'.blockValidator = validator := by
      rw [← reached, deliver_blockValidator, rules]
    rw [List.append_cons] at split
    obtain ⟨along, last⟩ := ih progress' split rules' below'
    refine ⟨⟨⟨verdict, engine', done, accepted⟩, ?_⟩, ?_⟩
    · rw [reached]
      exact along
    · change Progress U g (g :: base) q r
        (deliverAll (StryiChain.deliver engine (syncDelivery clock b)) _) r
      rw [reached]
      exact last

omit [Floats] in
include free offered chain' known in
/-- A heavier chain that has been delivered is canonical. -/
theorem Progress.adopts (progress : Progress U g (g :: base) q r engine r)
    (rules : engine.blockValidator = validator)
    (heavier : chainWork (g :: base ++ q) < chainWork (g :: base ++ r)) :
    canonicalBlocks engine.db = g :: (base ++ r) := by
  cases progress with
  | adopted secure => exact canonicalBlocks_eq secure.canonical
  | behind secure entries held =>
    exfalso
    apply Nat.not_le.mpr heavier
    rcases List.eq_nil_or_concat r with empty | ⟨front, b, last⟩
    · rw [empty, List.append_nil, chainWork_append (g :: base) q]
      exact Nat.le_add_right _ _
    · rw [List.concat_eq_append] at last
      obtain ⟨key, e, found, inner⟩ := held.resolve_left (by rw [last]; simp)
      obtain ⟨-, p', q', branches⟩ := secure.registry.entry found
      obtain ⟨seated, ancestors, mem, inside⟩ := offered.candidate chain' known rules last
      have whole : Candidate.path g ⟨base ++ front, b⟩ = g :: base ++ r := by
        rw [Candidate.path, last]
        simp
      calc chainWork (g :: base ++ r) = Candidate.work g ⟨base ++ front, b⟩ := by
            rw [Candidate.work, whole]
        _ ≤ chainWork (p' ++ e.blocks) := by
            apply Candidate.work_le free seated ancestors inside branches.chain
              (secure.inside_branch found branches)
            exact List.mem_map_of_mem (List.mem_append_right p' (inner.subset mem))
        _ = e.cumulativeWork := branches.work.symm
        _ ≤ chainWork (g :: base ++ q) := branches.lighter

omit [Floats] in
include free forked offered chain' known in
/-- If a branch leaves the other chain, then the blocks of that chain change nothing. -/
theorem Secure.stays (secure : Secure U g engine (g :: base ++ q))
    (rules : engine.blockValidator = validator)
    (leaves : ¬ NoBranchLeaves engine (base ++ r)) {l : List Delivery}
    (part : l.Sublist (r.map (syncDelivery clock))) : deliverAll engine l = engine := by
  unfold NoBranchLeaves at leaves
  push Not at leaves
  obtain ⟨key, e, found, ⟨b₀, held, shared⟩, b₁, held', strange⟩ := leaves
  have idle : ∀ delivery ∈ l, StryiChain.deliver engine delivery = engine := by
    intro delivery mem
    obtain ⟨b, inside, rfl⟩ := List.mem_map.mp (part.subset mem)
    obtain ⟨front, todo, split⟩ := List.append_of_mem inside
    obtain ⟨seated, ancestors, -, -⟩ := offered.candidate chain' known rules split
    have inside' : ∀ b ∈ g :: (base ++ r), b = g ∨ U b := by
      intro b mem
      exact (List.mem_cons.mp mem).imp_right (known b)
    have class' := secure.idle free seated ancestors forked split rfl chain' inside' found held
      (List.mem_cons_of_mem g shared) held' (fun mem => strange (List.mem_append_right base mem))
    unfold StryiChain.deliver syncDelivery
    cases run : onBlock (clock b) .none b engine with
    | ok verdict engine' => exact (onBlock_ok run).idle class'
    | error error engine' => exact onBlock_error run
  induction l with
  | nil => rfl
  | cons delivery l ih =>
    change deliverAll (StryiChain.deliver engine delivery) l = engine
    rw [idle delivery List.mem_cons_self]
    exact ih ((List.sublist_cons_self delivery l).trans part)
      fun later mem => idle later (List.mem_cons_of_mem _ mem)

end Run

section Synchronization

variable [Primitives] [Floats] {DB PeerDB : Type} [FullNodeStorage DB] [LawfulStorage DB]
  [FullNodeStorage PeerDB] [LawfulStorage PeerDB] {U : Block → Prop}
  {engine : StryiConsensusEngine DB} {g : Block} {w w' p q r rest : List Block}
  {clock : Block → UInt64} {chainMetadata : ChainMetadata} {consensusConsts : ConsensusConsts}
  {blockValidator : BlockValidator} {config : StryiSyncServiceConfig}
  {remotePeer : RemotePeer PeerDB} {runtime : ConsensusRuntime DB} {earlier : List Delivery}

omit [Floats] in
/-- Chains of identified blocks agree exactly below the height at which they part. -/
theorem Forked.agreeBelow (forked : Forked w w' p q r) (free : HashesIdentify U)
    (chain : IsChain w) (chain' : IsChain w') (inside : ∀ b ∈ w, U b) (inside' : ∀ b ∈ w', U b) :
    AgreeBelow w w' p.length := by
  intro i a b at_a at_b
  have bound := (List.getElem?_eq_some_iff.mp at_a).1
  constructor
  · intro same
    by_contra above
    have lower : w.take (i + 1) = w'.take (i + 1) := by
      apply (chain.take i.succ_pos).unique free (chain'.take i.succ_pos)
      · exact fun x mem => inside x (List.mem_of_mem_take mem)
      · exact fun x mem => inside' x (List.mem_of_mem_take mem)
      · rw [List.take_add_one, List.take_add_one, at_a, at_b]
        simpa using same
    rw [forked.left, forked.right, List.take_append, List.take_append,
      List.append_cancel_left_eq] at lower
    have none : q.take (i + 1 - p.length) = [] :=
      forked.eq_nil (List.take_prefix _ q) (lower ▸ List.take_prefix _ r)
    have length := congrArg List.length none
    rw [forked.left, List.length_append] at bound
    rw [List.length_take, List.length_nil] at length
    omega
  · intro below
    rw [forked.left, List.getElem?_append_left below] at at_a
    rw [forked.right, List.getElem?_append_left below, at_a, Option.some.injEq] at at_b
    rw [at_b]

/-- The synchronization of a secure engine, with the part that the chains share made explicit. -/
theorem Secure.sync_iff {base : List Block} (free : HashesIdentify fun b => b = g ∨ U b)
    (secure : Secure U g runtime.engine (g :: base ++ q))
    (forked : Forked (g :: base ++ q) (g :: (base ++ r)) (g :: base) q r)
    (serves : remotePeer.Serves (g :: (base ++ r)))
    (network : SameNetwork config remotePeer.service.config)
    (offered : Offered DB blockValidator clock g chainMetadata (base ++ r))
    (known : ∀ b ∈ base ++ r, U b) (rules : runtime.engine.blockValidator = blockValidator)
    (heavier : chainWork (g :: base ++ q) < chainWork (g :: (base ++ r)))
    (fits : ∀ b ∈ base ++ r, b.data.transactions.length ≤ 2 ^ 32)
    (room : (base ++ r).length < 2 ^ 64 - 2) (below : HeightsBelow runtime.engine)
    (fresh : Coins.FreshAbove (g :: base) q) :
    ((syncFromPeer clock config remotePeer runtime).1 = .ok () ∧
      canonicalBlocks (syncFromPeer clock config remotePeer runtime).2.engine.db =
        g :: (base ++ r)) ↔ NoBranchLeaves runtime.engine (base ++ r) := by
  have canonical := secure.canonical
  have inside' : ∀ b ∈ g :: (base ++ r), b = g ∨ U b :=
    fun b mem => (List.mem_cons.mp mem).imp_right (known b)
  have agree := forked.agreeBelow free canonical.chain serves.chain secure.inside inside'
  obtain ⟨remoteHeight, start, prepared, height, first⟩ :=
    preparePeerSync_ok canonical.sound canonical.chain canonical.represents serves network heavier
      agree (Nat.succ_pos _) (by simp)
  have deliveries : syncDeliveries clock (g :: (base ++ r)) start.toNat =
      r.map (syncDelivery clock) := by
    rw [first, syncDeliveries, List.length_cons, List.drop_succ_cons, List.drop_left]
  rw [syncFromPeer, prepared]
  constructor
  · rintro ⟨-, ends⟩
    by_contra leaves
    obtain ⟨l, part, last⟩ := downloadLoop_engine serves height _ start runtime
    rw [deliveries] at part
    dsimp only at ends
    rw [last, secure.stays free forked offered serves.chain known rules leaves part,
      canonicalBlocks_eq canonical] at ends
    rw [ends] at heavier
    exact Nat.lt_irrefl _ heavier
  · intro none
    have progress : Progress U g (g :: base) q r runtime.engine [] := by
      refine .behind secure (fun key e found b mem shared => ?_) (.inl rfl)
      apply secure.meets_all free forked serves.chain inside' found
      intro x mem'
      exact List.mem_cons_of_mem g
        (none key e found ⟨b, mem, List.mem_append_right base shared⟩ x mem')
    obtain ⟨accepted, final⟩ := progress.run free forked offered serves.chain known
      (fun b mem => fits b (List.mem_append_right base mem)) room fresh rfl rules below
    rw [← deliveries] at accepted final
    obtain ⟨after, done, last⟩ := downloadLoop_ok serves height (remoteHeight.toNat + 2) start
      runtime (by rw [first]; simp) (by rw [← height]; omega) accepted
    dsimp only
    rw [done]
    refine ⟨rfl, ?_⟩
    dsimp only
    rw [← last] at final
    refine final.adopts free offered serves.chain known ?_ heavier
    rw [last, deliverAll_blockValidator, rules]

/-- A run of the synchronization with a peer whose chain is heavier and valid block by block ends
without error on the chain of the peer, if and only if no branch of the registry leaves that chain
after some common blocks. -/
theorem sync_adopts_iff
    (launched : launch consensusConsts blockValidator g chainMetadata = .ok engine)
    (careful : Along Careful engine earlier) (reached : runtime.engine = deliverAll engine earlier)
    (free : HashesIdentify fun b => b = g ∨
      Vetted (fun b => b ∈ earlier.map Delivery.block ∨ b ∈ rest) b)
    (serves : remotePeer.Serves (g :: rest))
    (network : SameNetwork config remotePeer.service.config)
    (offered : Offered DB blockValidator clock g chainMetadata rest)
    (heavier : ∀ work, tipWork runtime.engine = some work → work < chainWork (g :: rest))
    (fits : ∀ b ∈ rest, b.data.transactions.length ≤ 2 ^ 32) (room : rest.length < 2 ^ 64 - 2)
    (below : HeightsBelow runtime.engine)
    (fresh : Coins.FreshAbove (commonPrefix (canonicalBlocks runtime.engine.db) (g :: rest))
      ((canonicalBlocks runtime.engine.db).drop
        (commonPrefix (canonicalBlocks runtime.engine.db) (g :: rest)).length)) :
    ((syncFromPeer clock config remotePeer runtime).1 = .ok () ∧
      canonicalBlocks (syncFromPeer clock config remotePeer runtime).2.engine.db = g :: rest) ↔
      NoBranchLeaves runtime.engine rest := by
  have known : ∀ b ∈ rest, Vetted (fun b => b ∈ earlier.map Delivery.block ∨ b ∈ rest) b := by
    intro b mem
    obtain ⟨front, back, split⟩ := List.append_of_mem mem
    exact (offered.seated serves.chain split).vetted (.inr mem)
  obtain ⟨w, reached'⟩ : ∃ w, Secure (fun b => b ∈ earlier.map Delivery.block ∨ b ∈ rest) g
      (deliverAll engine earlier) w := by
    apply (Secure.launched launched).reached _ _ careful
    · exact fun a b ha hb same => free a b (.inr ha) (.inr hb) same
    · exact fun delivery mem => .inl (List.mem_map_of_mem mem)
  rw [← reached] at reached'
  have secure := reached'.vetted
  obtain ⟨own, rfl⟩ := secure.first
  have rules : runtime.engine.blockValidator = blockValidator := by
    rw [reached, deliverAll_blockValidator, (Invariant.launched launched).2.1]
  -- The part that the chains share, and what each goes on with.
  obtain ⟨base, hbase⟩ : ∃ base, base = commonPrefix own rest := ⟨_, rfl⟩
  obtain ⟨left, right, apart⟩ := forked_commonPrefix own rest
  have shared : commonPrefix (g :: own) (g :: rest) = g :: base := by
    rw [commonPrefix, if_pos rfl, hbase]
  rw [← hbase] at left right apart
  rw [canonicalBlocks_eq secure.canonical, shared, List.length_cons, List.drop_succ_cons] at fresh
  generalize own.drop base.length = q at left apart fresh
  generalize rest.drop base.length = r at right apart
  subst left right
  exact secure.sync_iff free ⟨rfl, rfl, apart⟩ serves network offered known rules
    (heavier _ secure.tipWork_eq) fits room below fresh

end Synchronization

namespace Sample

/-- Two blocks above the second rival that leave out the block above it. -/
def aside : Block := above other 7 []

def onward : Block := above aside 8 []

/-- The configuration of both sides: two blocks at a time. -/
def syncConfig : StryiSyncServiceConfig := ⟨"sample", 1, 2⟩

/-- A node that has seen the blocks. -/
def seen (engine : StryiConsensusEngine RocksView) (blocks : List Block) :
    ConsensusRuntime RocksView :=
  ⟨deliverAll engine (blocks.map call), MemPool.new poolConfig⟩

theorem onward_chain : IsChain (genesis :: [other, aside, onward]) :=
  isChain_of_run (by decide +kernel)

theorem onward_offered : Offered RocksView validator (fun _ => 1000) genesis
    ⟨2, "sample", 1, 0⟩ [other, aside, onward] := by
  have passes : ∀ i : Fin 3, ((grown ([other, aside, onward].take i)).toOption.any fun s =>
      (validator.validate 1000 [other, aside, onward][i] s).toOption.any fun _ => true) = true := by
    decide +kernel
  intro front b back split
  have inside : front.length < 3 := by
    have length := congrArg List.length split
    simp only [List.length_cons, List.length_nil, List.length_append] at length
    omega
  have lower : front = [other, aside, onward].take front.length := by
    rw [split, List.take_left]
  have here : [other, aside, onward][front.length] = b := by
    simp only [split]
    simp
  obtain ⟨s, grow, valid⟩ := exists_ok_of_any (passes ⟨front.length, inside⟩)
  obtain ⟨⟨⟩, valid, -⟩ := exists_ok_of_any valid
  have chain := onward_chain
  rw [split, ← List.cons_append] at chain
  obtain ⟨top, last, linked, -⟩ := chain.below (by simp)
  refine ⟨chain.left (by simp), by rw [last, Option.map_some, linked], s, ?_, ?_⟩
  · rw [← lower] at grow
    exact grow
  · rw [← here]
    exact valid

theorem exists_peer : ∃ s, grown [other, aside, onward] = .ok s ∧
    RemotePeer.Serves ⟨⟨syncConfig, s⟩⟩ (genesis :: [other, aside, onward]) := by
  have grows : (grown [other, aside, onward]).toOption.any (fun _ => true) = true := by
    decide +kernel
  obtain ⟨s, run, -⟩ := exists_ok_of_any grows
  obtain ⟨sound, represents, -⟩ := growFrom_represents onward_chain run
  have positive : syncConfig.maxBlocksRangePerRequest ≠ 0 := by decide
  exact ⟨s, run, sound, onward_chain, represents, positive⟩

end Sample

open Sample in
/-- A branch of two blocks that shares the first one with a heavier chain: the node does not take
over that chain and does not notice. -/
theorem sync_misses_heavier :
    ([genesis, rival, second, other, next, aside, onward].map Block.blockHash).Nodup ∧
    ∃ engine, ∃ s : RocksView, start = .ok engine ∧
    RemotePeer.Serves ⟨⟨syncConfig, s⟩⟩ (genesis :: [other, aside, onward]) ∧
    Offered RocksView validator (fun _ => 1000) genesis ⟨2, "sample", 1, 0⟩
      [other, aside, onward] ∧
    (∀ work, tipWork (seen engine [rival, second, other, next]).engine = some work →
      work < chainWork (genesis :: [other, aside, onward])) ∧
    (syncFromPeer (fun _ => 1000) syncConfig ⟨⟨syncConfig, s⟩⟩
      (seen engine [rival, second, other, next])).1 = .ok () ∧
    canonicalBlocks (syncFromPeer (fun _ => 1000) syncConfig ⟨⟨syncConfig, s⟩⟩
      (seen engine [rival, second, other, next])).2.engine.db ≠
        genesis :: [other, aside, onward] := by
  obtain ⟨s, grow, serves⟩ := exists_peer
  have misses : start.toOption.any (fun engine =>
      (tipWork (seen engine [rival, second, other, next]).engine).all
        (fun work => work < chainWork (genesis :: [other, aside, onward])) &&
      (grown [other, aside, onward]).toOption.any fun s =>
        let (result, runtime) := syncFromPeer (fun _ => 1000) syncConfig ⟨⟨syncConfig, s⟩⟩
          (seen engine [rival, second, other, next])
        result.toOption.isSome &&
          canonicalBlocks runtime.engine.db = [genesis, rival, second]) = true := by
    decide +kernel
  obtain ⟨engine, started, reads⟩ := exists_ok_of_any misses
  rw [Bool.and_eq_true] at reads
  obtain ⟨work, reads⟩ := reads
  obtain ⟨s', grow', reads⟩ := exists_ok_of_any reads
  obtain rfl : s = s' := by
    rw [grow, Except.ok.injEq] at grow'
    exact grow'
  dsimp only at reads
  rw [Bool.and_eq_true, decide_eq_true_eq] at reads
  obtain ⟨ended, stays⟩ := reads
  refine ⟨by decide +kernel, engine, s, started, serves, onward_offered, ?_, ?_, ?_⟩
  · intro top tip
    rw [tip] at work
    exact of_decide_eq_true work
  · cases ends : (syncFromPeer (fun _ => 1000) syncConfig ⟨⟨syncConfig, s⟩⟩
      (seen engine [rival, second, other, next])).1 with
    | ok result => rfl
    | error error =>
      rw [ends] at ended
      cases ended
  · rw [stays]
    decide +kernel

open Sample in
/-- A branch that the heavier chain goes on with. -/
theorem sync_adopts_iff_sample : ∃ engine, ∃ s : RocksView, start = .ok engine ∧
    RemotePeer.Serves ⟨⟨syncConfig, s⟩⟩ (genesis :: [other, aside, onward]) ∧
    (((syncFromPeer (fun _ => 1000) syncConfig ⟨⟨syncConfig, s⟩⟩
        (seen engine [rival, other])).1 = .ok () ∧
      canonicalBlocks (syncFromPeer (fun _ => 1000) syncConfig ⟨⟨syncConfig, s⟩⟩
        (seen engine [rival, other])).2.engine.db = genesis :: [other, aside, onward]) ↔
      NoBranchLeaves (seen engine [rival, other]).engine [other, aside, onward]) := by
  obtain ⟨s, grow, serves⟩ := exists_peer
  have chains : start.toOption.any (fun engine =>
      let engine1 := deliver engine (call rival)
      HeightsBelow (seen engine [rival, other]).engine ∧
      canonicalBlocks engine.db = [genesis] ∧ canonicalBlocks engine1.db = [genesis, rival] ∧
      canonicalBlocks (seen engine [rival, other]).engine.db = [genesis, rival] ∧
      tipWork (seen engine [rival, other]).engine = some 1) = true := by decide +kernel
  obtain ⟨engine, started, reads⟩ := exists_ok_of_any chains
  rw [decide_eq_true_eq] at reads
  obtain ⟨below, chain, chain1, chain2, work⟩ := reads
  have fresh : Coins.FreshAbove [genesis] [rival] := by decide +kernel
  have careful : Along Careful engine ([rival, other].map call) :=
    ⟨⟨by decide, ForksFresh.detachesFresh (.of_all chain trivial)⟩,
      ⟨by decide, ForksFresh.detachesFresh (.of_all chain1 fresh)⟩, trivial⟩
  have apart : ∀ a ∈ [genesis, rival, other, aside, onward],
      ∀ b ∈ [genesis, rival, other, aside, onward], a.blockHash = b.blockHash → a = b := by
    decide +kernel
  have free : HashesIdentify fun b => b = genesis ∨ Vetted (fun b =>
      b ∈ ([rival, other].map call).map Delivery.block ∨ b ∈ [other, aside, onward]) b := by
    have listed : ∀ b, (b = genesis ∨ Vetted (fun b =>
        b ∈ ([rival, other].map call).map Delivery.block ∨ b ∈ [other, aside, onward]) b) →
        b ∈ [genesis, rival, other, aside, onward] := by
      have delivered : [rival, other] ++ [other, aside, onward] ⊆
          [genesis, rival, other, aside, onward] := by simp
      rintro b (rfl | vetted)
      · exact List.mem_cons_self
      · exact delivered (List.mem_append.mpr vetted.inside)
    exact fun a b ha hb same => apart a (listed a ha) b (listed b hb) same
  refine ⟨engine, s, started, serves, ?_⟩
  apply sync_adopts_iff started careful rfl free serves ⟨rfl, rfl⟩ onward_offered
  · intro top tip
    rw [work, Option.some.injEq] at tip
    rw [← tip]
    decide +kernel
  · decide
  · decide
  · exact below
  · rw [chain2]
    decide +kernel

end StryiChain
