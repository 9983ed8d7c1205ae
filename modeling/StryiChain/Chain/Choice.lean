import StryiChain.Chain.Prepared
import StryiChain.Chain.Report
import StryiChain.Chain.Total

/-!
# Fork choice

Among blocks that are valid on their own branches the engine should end on the heaviest one,
whatever the order in which they arrive. It does so as long as every block finds its parent: on
the canonical chain or at the tip of a branch. A branch is kept under its tip alone, and a
reorganization forgets the blocks it detaches, so that a block above the middle of a branch or
above a detached block counts as an orphan and is dropped. The height of a block is checked when it
is delivered and not by its validation, and is a condition of its own here.
-/

namespace StryiChain

open LawfulStorage StryiConsensusEngine

section Candidates

variable [Primitives]

/-- A block with its ancestors above genesis, the lowest first. -/
structure Candidate where
  ancestors : List Block
  block : Block

/-- The blocks from genesis to the block. -/
def Candidate.path (g : Block) (candidate : Candidate) : List Block :=
  g :: candidate.ancestors ++ [candidate.block]

/-- The cumulative work of the block. -/
def Candidate.work (g : Block) (candidate : Candidate) : Nat := chainWork (candidate.path g)

/-- The block passes validation on a storage whose canonical chain is its ancestry. Nothing there
compares its height with that of its parent. -/
structure Candidate.Valid (DB : Type) [FullNodeStorage DB] (validator : BlockValidator)
    (nowSecs : UInt64) (g : Block) (chainMetadata : ChainMetadata) (candidate : Candidate) :
    Prop where
  chain : IsChain (g :: candidate.ancestors)
  linked : (g :: candidate.ancestors).getLast?.map Block.blockHash =
    some candidate.block.header.previousBlockHash
  passes : ∃ s : DB, growFrom g chainMetadata candidate.ancestors = .ok s ∧
    validator.validate nowSecs candidate.block s = .ok ()

/-- The block is valid and makes its ancestry one block longer. -/
structure Candidate.Seated (DB : Type) [FullNodeStorage DB] (validator : BlockValidator)
    (nowSecs : UInt64) (g : Block) (chainMetadata : ChainMetadata) (candidate : Candidate) :
    Prop extends candidate.Valid DB validator nowSecs g chainMetadata where
  whole : IsChain (candidate.path g)

/-- Every candidate comes after its ancestors. -/
def ParentFirst : List Block → List Candidate → Prop
  | _, [] => True
  | delivered, candidate :: rest =>
      (∀ a ∈ candidate.ancestors, a ∈ delivered) ∧
        ParentFirst (candidate.block :: delivered) rest

/-- The delivery of a candidate on a backend that does not fail. -/
def Candidate.delivery (nowSecs : UInt64) (candidate : Candidate) : Delivery :=
  ⟨nowSecs, .none, candidate.block⟩

/-- The largest cumulative work among the candidates; genesis has none. -/
def heaviest (g : Block) (candidates : List Candidate) : Nat :=
  (candidates.map (Candidate.work g)).foldl max 0

variable {DB : Type} [FullNodeStorage DB]

/-- A benign call with a block whose parent is found and whose height follows that of its parent. -/
structure Placed (engine : StryiConsensusEngine DB) (delivery : Delivery) : Prop
    extends Benign engine delivery where
  parent : ∀ parent, engine.classifyBlock delivery.block ≠ .orphan parent
  height : engine.validateHeight delivery.block = true

end Candidates

section Ancestry

variable [Primitives] {U : Block → Prop} {w w' p q bs : List Block} {a b g : Block}

theorem HashesIdentify.collisionFree (free : HashesIdentify fun b => b = g ∨ U b) :
    CollisionFree U :=
  fun a b ha hb same => free a b (.inr ha.inside) (.inr hb.inside) same

/-- Chains of identified blocks that end in the same hash are the same. -/
theorem IsChain.unique (free : HashesIdentify U) (chain : IsChain w) (chain' : IsChain w')
    (inside : ∀ b ∈ w, U b) (inside' : ∀ b ∈ w', U b)
    (same : w.getLast?.map Block.blockHash = w'.getLast?.map Block.blockHash) : w = w' := by
  induction w using List.reverseRecOn generalizing w' with
  | nil => exact absurd rfl chain.ne_nil
  | append_singleton front b ih =>
    rcases List.eq_nil_or_concat w' with rfl | ⟨front', b', rfl⟩
    · exact absurd rfl chain'.ne_nil
    rw [List.concat_eq_append] at chain' inside' same ⊢
    have hash : b.blockHash = b'.blockHash := by simpa using same
    obtain rfl : b = b' := free b b' (inside b (by simp)) (inside' b' (by simp)) hash
    have length : front.length = front'.length := by
      rw [← chain.height_eq_length, ← chain'.height_eq_length]
    by_cases empty : front = []
    · subst empty
      rw [List.length_nil, eq_comm, List.length_eq_zero_iff] at length
      rw [length]
    · have ne' : front' ≠ [] := by
        have pos := List.length_pos_iff.mpr empty
        rw [← List.length_pos_iff]
        omega
      obtain ⟨top, last, linked, -⟩ := chain.below empty
      obtain ⟨top', last', linked', -⟩ := chain'.below ne'
      have below : front = front' := by
        apply ih (chain.left empty) (chain'.left ne')
        · exact fun x mem => inside x (List.mem_append_left _ mem)
        · exact fun x mem => inside' x (List.mem_append_left _ mem)
        · rw [last, last', Option.map_some, Option.map_some, ← linked, ← linked']
      rw [below]

/-- Appended blocks make the chain of a storage longer. -/
theorem appendAll_represents {DB : Type} [FullNodeStorage DB] [LawfulStorage DB] {s s' : DB}
    (sound : Sound s) (chain : IsChain (w ++ bs)) (ne : w ≠ [])
    (represents : Represents (tables s) w) (exact : (tables s).utxo = Coins.ledger w)
    (run : appendAll s bs = .ok s') : Sound s' ∧ Represents (tables s') (w ++ bs) ∧
      (tables s').utxo = Coins.ledger (w ++ bs) := by
  induction bs generalizing s w with
  | nil =>
    rw [appendAll, List.foldlM_nil, pure_eq_ok] at run
    subst run
    rw [List.append_nil]
    exact ⟨sound, represents, exact⟩
  | cons b bs ih =>
    rw [appendAll_cons, bind_eq_ok] at run
    obtain ⟨⟨result, middle⟩, one, rest⟩ := run
    rw [List.append_cons] at chain ⊢
    obtain ⟨follows, applicable, sound', tables', -⟩ :=
      append_eq_ok sound ((chain.left (by simp)).left ne) represents one
    apply ih sound' chain (by simp) _ _ rest
    · rw [tables']
      exact represents.appended (chain.left (by simp)) (exact ▸ Submap.refl _) applicable
        follows.room
    · rw [tables', Coins.ledger_concat, ← exact]
      rfl

/-- The storage of a chain and nothing else. -/
theorem growFrom_represents {DB : Type} [FullNodeStorage DB] [LawfulStorage DB] {s : DB}
    {chainMetadata : ChainMetadata} (chain : IsChain (g :: bs))
    (run : growFrom g chainMetadata bs = .ok s) : Sound s ∧
      Represents (tables s) (g :: bs) ∧ (tables s).utxo = Coins.ledger (g :: bs) := by
  rw [growFrom, bind_eq_ok] at run
  obtain ⟨⟨result, start⟩, genesis, appends⟩ := run
  obtain ⟨shape, sound, started⟩ := genesis_eq_ok genesis
  have all : Sound s ∧ Represents (tables s) ([g] ++ bs) ∧
      (tables s).utxo = Coins.ledger ([g] ++ bs) := by
    apply appendAll_represents sound chain (by simp) _ _ appends
    · rw [started]
      exact shape.represents chainMetadata
    · rw [started]
      rfl
  exact all

/-- A storage that holds a chain and nothing else is a view of it. -/
theorem views_growFrom {DB : Type} [FullNodeStorage DB] [LawfulStorage DB] {s : DB}
    {chainMetadata : ChainMetadata} (chain : IsChain (g :: bs))
    (run : growFrom g chainMetadata bs = .ok s) : Views s (g :: bs) (Coins.ledger (g :: bs)) := by
  obtain ⟨sound, represents, exact⟩ := growFrom_represents chain run
  have views := views_storage sound chain represents.holds
  rw [exact] at views
  exact views

end Ancestry

section Step

variable [Primitives] {DB : Type} [FullNodeStorage DB] [LawfulStorage DB] {U : Block → Prop}
  {engine engine' : StryiConsensusEngine DB} {g : Block} {w p q : List Block} {nowSecs : UInt64}
  {verdict : ConsensusVerdict} {chainMetadata : ChainMetadata} {candidate : Candidate}

/-- The canonical blocks are known. -/
theorem Secure.inside (secure : Secure U g engine w) : ∀ b ∈ w, b = g ∨ U b := by
  intro b mem
  have body := secure.canonical.represents.holds.body b mem
  exact (secure.bodies _ b body).imp_right Vetted.inside

/-- So are those of a branch and below it. -/
theorem Secure.inside_branch (secure : Secure U g engine w) {key : BlockHash} {e : ForkEntry}
    (found : engine.forks.read key = some e)
    (branches : Branches engine.blockValidator.consensusConsts w e p q) :
    ∀ b ∈ p ++ e.blocks, b = g ∨ U b := by
  intro b mem
  rcases List.mem_append.mp mem with below | above
  · apply secure.inside
    rw [branches.split]
    exact List.mem_append_left q below
  · exact .inr (secure.held key e found b above).1

omit [FullNodeStorage DB] [LawfulStorage DB] in
/-- A known block is canonical or in the registry. -/
theorem classifyBlock_known {b : Block} {location : KnownLocation}
    (held : engine.classifyBlock b = .known location) :
    engine.chainIndex.has b.blockHash = true ∨ ForkRegistry.has engine.forks b.blockHash = true ∨
      ForkRegistry.hasBlock engine.forks b.blockHash = true := by
  by_contra unknown
  rw [not_or, not_or] at unknown
  unfold classifyBlock at held
  rw [if_neg unknown.1, if_neg (by rw [not_or]; exact unknown.2)] at held
  split at held
  · cases held
  · split at held
    · cases held
    · split at held <;> cases held

/-- A known block is on the canonical chain or in a branch. -/
theorem Invariant.known_where (inv : Invariant g engine w) {b : Block} {location : KnownLocation}
    (held : engine.classifyBlock b = .known location) :
    b.blockHash ∈ w.map Block.blockHash ∨ ∃ key e, engine.forks.read key = some e ∧
      b.blockHash ∈ e.blocks.map Block.blockHash := by
  rcases classifyBlock_known held with canonical | tip | inner
  · exact .inl (inv.canonical.indexOf.has_iff.mp canonical)
  · obtain ⟨e, found⟩ := Option.isSome_iff_exists.mp tip
    obtain ⟨keyed, p, q, branches⟩ := inv.registry.entry found
    obtain ⟨last, top, hash⟩ := Option.map_eq_some_iff.mp branches.tip
    refine .inr ⟨_, e, found, ?_⟩
    rw [← keyed, ← hash]
    exact List.mem_map_of_mem (List.mem_of_getLast? top)
  · right
    by_contra none
    rw [← Bool.not_eq_false, hasBlock_eq_false] at inner
    apply inner
    intro key e found b mem same
    exact none ⟨key, e, found, same ▸ List.mem_map_of_mem mem⟩

variable (free : HashesIdentify fun b => b = g ∨ U b)
  (valid : candidate.Valid DB engine.blockValidator nowSecs g chainMetadata)
  (seated : candidate.Seated DB engine.blockValidator nowSecs g chainMetadata)
  (known : ∀ a ∈ candidate.ancestors, U a) (inside : U candidate.block)

omit [Primitives] in
include known in
theorem Candidate.inside_ancestry : ∀ b ∈ g :: candidate.ancestors, b = g ∨ U b := by
  intro b mem
  rcases List.mem_cons.mp mem with rfl | mem
  · exact .inl rfl
  · exact .inr (known b mem)

omit [LawfulStorage DB] in
include free valid known in
/-- A known chain to the parent of a candidate is its ancestry. -/
theorem Candidate.ancestry_eq (chain : IsChain w) (identified : ∀ b ∈ w, b = g ∨ U b)
    (last : w.getLast?.map Block.blockHash = some candidate.block.header.previousBlockHash) :
    w = g :: candidate.ancestors := by
  apply chain.unique free valid.chain identified (Candidate.inside_ancestry known)
  rw [last, valid.linked]

include free valid known in
/-- The canonical chain up to the parent of a candidate is its ancestry. -/
theorem Secure.ancestry_canonical (secure : Secure U g engine w) (split : w = p ++ q)
    (ancestor : p.getLast?.map Block.blockHash =
      some candidate.block.header.previousBlockHash) : p = g :: candidate.ancestors := by
  have chain := secure.canonical.chain
  rw [split] at chain
  have ne : p ≠ [] := by
    intro empty
    rw [empty] at ancestor
    cases ancestor
  apply Candidate.ancestry_eq free valid known (chain.left ne) _ ancestor
  intro b mem
  apply secure.inside
  rw [split]
  exact List.mem_append_left q mem

include free valid known in
/-- A branch up to the parent of a candidate is its ancestry. -/
theorem Secure.ancestry_branch (secure : Secure U g engine w) {e : ForkEntry}
    (found : engine.forks.read candidate.block.header.previousBlockHash = some e)
    (branches : Branches engine.blockValidator.consensusConsts w e p q) :
    p ++ e.blocks = g :: candidate.ancestors := by
  apply Candidate.ancestry_eq free valid known branches.chain
    (secure.inside_branch found branches)
  rw [List.getLast?_append_of_ne_nil _ branches.blocks_ne_nil, branches.tip,
    (secure.registry.entry found).1]

omit [LawfulStorage DB] in
include free valid known inside in
/-- A block of a known chain stands directly above its ancestors, unless it is the first one. -/
theorem Candidate.seat_of_mem (chain : IsChain w) (identified : ∀ b ∈ w, b = g ∨ U b)
    (mem : candidate.block.blockHash ∈ w.map Block.blockHash)
    (unmarked : candidate.block.header.isGenesis = false) :
    candidate.Seated DB engine.blockValidator nowSecs g chainMetadata := by
  refine ⟨valid, ?_⟩
  obtain ⟨b, held, same⟩ := List.mem_map.mp mem
  obtain rfl : b = candidate.block := free _ _ (identified b held) (.inr inside) same
  obtain ⟨front, back, rfl⟩ := List.append_of_mem held
  have ne : front ≠ [] := by
    rintro rfl
    obtain ⟨first, head, marked, -⟩ := chain.genesis
    obtain rfl : candidate.block = first := by simpa using head
    rw [unmarked] at marked
    cases marked
  obtain ⟨top, last, linked, -⟩ := chain.below ne
  have ancestry : front = g :: candidate.ancestors := by
    apply Candidate.ancestry_eq free valid known (chain.left ne)
    · exact fun x below => identified x (List.mem_append_left _ below)
    · rw [last, Option.map_some, linked]
  rw [List.append_cons, ancestry] at chain
  exact chain.left (by simp)

include free valid known inside in
/-- A block that is one higher than its parent stands directly above its ancestors. -/
theorem Candidate.seat_of_height (unmarked : candidate.block.header.isGenesis = false)
    (height : candidate.block.header.height.toNat = candidate.ancestors.length + 1) :
    candidate.Seated DB engine.blockValidator nowSecs g chainMetadata := by
  refine ⟨valid, ?_⟩
  obtain ⟨s, grown, passes⟩ := valid.passes
  obtain ⟨normal, -⟩ := validate_eq_ok (views_growFrom valid.chain grown).reads unmarked passes
  obtain ⟨top, last, linked⟩ := Option.map_eq_some_iff.mp valid.linked
  apply valid.chain.concat last normal linked.symm
  · rw [height, List.length_cons]
  · intro old
    obtain ⟨b, mem, same⟩ := List.mem_map.mp old
    obtain rfl : b = candidate.block :=
      free _ _ (Candidate.inside_ancestry known b mem) (.inr inside) same
    obtain ⟨i, at_i⟩ := List.mem_iff_getElem?.mp mem
    have below := (List.getElem?_eq_some_iff.mp at_i).1
    rw [← valid.chain.height at_i, height, List.length_cons] at below
    exact Nat.lt_irrefl _ below

include free inside in
/-- A block whose height follows that of its parent is no genesis block. -/
theorem Secure.unmarked (secure : Secure U g engine w)
    (checked : engine.validateHeight candidate.block = true) :
    candidate.block.header.isGenesis = false := by
  rw [← Bool.not_eq_true]
  intro marked
  have marker := secure.genesis.marker
  -- All genesis blocks share one hash, and genesis is its own parent.
  have same : candidate.block = g := by
    apply free _ _ (.inr inside) (.inl rfl)
    rw [Block.blockHash, Block.blockHash, if_pos marked, if_pos marker]
  have shape := secure.genesis.shape
  simp only [verifyGenesisWorkShape, verifyGenesisHeaderWorkShape, failIf_eq_ok, marker, true_and,
    not_or, not_not] at shape
  have parent : g.header.previousBlockHash = g.blockHash := by
    rw [shape.2.1, Block.blockHash, if_pos marker]
  obtain ⟨rest, first⟩ := secure.first
  have indexOf := secure.canonical.indexOf
  rw [first, ← List.singleton_append] at indexOf
  have last : [g].getLast? = some g := rfl
  rw [same, validateHeight_canonical indexOf last parent] at checked
  omega

/-- The parent of a new block that is no orphan is canonical or the tip of a branch. -/
theorem Secure.parent_where (secure : Secure U g engine w) {b : Block}
    (new : ∀ location, engine.classifyBlock b ≠ .known location)
    (parent : ∀ parent, engine.classifyBlock b ≠ .orphan parent) :
    engine.chainIndex.has b.header.previousBlockHash = true ∨
      engine.chainIndex.has b.header.previousBlockHash = false ∧
        ∃ e, ForkRegistry.get engine.forks b.header.previousBlockHash = some e := by
  have spec := classifyBlock_spec engine b
  cases class' : engine.classifyBlock b with
  | known location => exact absurd class' (new location)
  | extendsCanonical =>
    rw [class'] at spec
    obtain ⟨top, last, tip⟩ := secure.exists_tip
    have above := spec.2
    rw [tip] at above
    have parent : b.header.previousBlockHash = top.blockHash := by simpa using above
    left
    rw [secure.canonical.indexOf.has_iff, parent]
    exact List.mem_map_of_mem (List.mem_of_getLast? last)
  | createsForkFromCanonical lca =>
    rw [class'] at spec
    obtain ⟨-, rfl, has⟩ := spec
    exact .inl has
  | extendsFork parent lca =>
    rw [class'] at spec
    obtain ⟨-, rfl, absent, e, found, -⟩ := spec
    exact .inr ⟨absent, e, found⟩
  | orphan lost => exact absurd class' (parent lost)

include free valid known inside in
/-- A valid block that is placed stands directly above its ancestors. -/
theorem Secure.seats (secure : Secure U g engine w)
    (placed : Placed engine (candidate.delivery nowSecs)) :
    candidate.Seated DB engine.blockValidator nowSecs g chainMetadata := by
  have unmarked := secure.unmarked free inside placed.height
  by_cases old : ∃ location, engine.classifyBlock candidate.block = .known location
  · obtain ⟨location, held⟩ := old
    rcases secure.known_where held with canonical | ⟨key, e, found, mem⟩
    · exact Candidate.seat_of_mem free valid known inside secure.canonical.chain secure.inside
        canonical unmarked
    · obtain ⟨-, p, q, branches⟩ := secure.registry.entry found
      apply Candidate.seat_of_mem free valid known inside branches.chain
        (secure.inside_branch found branches) _ unmarked
      rw [List.map_append]
      exact List.mem_append_right _ mem
  rw [not_exists] at old
  obtain ⟨top, last, linked⟩ := Option.map_eq_some_iff.mp valid.linked
  have position : top.header.height.toNat = candidate.ancestors.length := by
    rw [List.getLast?_eq_getElem?, List.length_cons, Nat.add_sub_cancel] at last
    exact valid.chain.height last
  apply Candidate.seat_of_height free valid known inside unmarked
  rw [← position]
  rcases secure.parent_where old placed.parent with has | ⟨absent, e, found⟩
  · have indexOf := secure.canonical.indexOf
    obtain ⟨p, q, a, split, last', hash⟩ := exists_below (indexOf.has_iff.mp has)
    have ancestry : p = g :: candidate.ancestors := by
      apply secure.ancestry_canonical free valid known split
      rw [last', Option.map_some, hash]
    rw [split, ancestry] at indexOf
    exact (validateHeight_canonical indexOf last linked.symm).mp placed.height
  · obtain ⟨-, p, q, branches⟩ := secure.registry.entry found
    have ancestry := secure.ancestry_branch free valid known found branches
    rw [← ancestry, List.getLast?_append_of_ne_nil _ branches.blocks_ne_nil] at last
    exact (validateHeight_fork absent found last).mp placed.height

omit [LawfulStorage DB] in
include free seated known inside in
/-- A known chain that holds the block of a candidate is at least as heavy. -/
theorem Candidate.work_le (chain : IsChain w) (identified : ∀ b ∈ w, b = g ∨ U b)
    (mem : candidate.block.blockHash ∈ w.map Block.blockHash) :
    candidate.work g ≤ chainWork w := by
  obtain ⟨b, held, same⟩ := List.mem_map.mp mem
  obtain ⟨front, back, rfl⟩ := List.append_of_mem held
  rw [List.append_cons] at chain identified
  have lower : front ++ [b] = candidate.path g := by
    apply (chain.left (by simp)).unique free seated.whole
    · exact fun x inside => identified x (List.mem_append_left back inside)
    · intro x here
      rcases List.mem_append.mp here with below | last
      · exact Candidate.inside_ancestry known x below
      · rw [List.mem_singleton.mp last]
        exact .inr inside
    · rw [Candidate.path, List.getLast?_concat, List.getLast?_concat, Option.map_some,
        Option.map_some, same]
  calc candidate.work g = chainWork (front ++ [b]) := by rw [Candidate.work, lower]
    _ ≤ chainWork (front ++ [b]) + chainWork back := Nat.le_add_right _ _
    _ = chainWork (front ++ b :: back) := by rw [← chainWork_append, ← List.append_cons]

omit [LawfulStorage DB] in
include seated in
/-- The block of a candidate stands directly above its ancestors. -/
theorem Candidate.next : verifyGenesisWorkShape candidate.block = .ok () ∧
    ∃ top, (g :: candidate.ancestors).getLast? = some top ∧
      candidate.block.header.previousBlockHash = top.blockHash ∧
      candidate.block.header.height.toNat = top.header.height.toNat + 1 := by
  have path : IsChain (g :: candidate.ancestors ++ [candidate.block]) := seated.whole
  have normal := path.normal (i := candidate.ancestors.length + 1) (b := candidate.block)
    (by simp) (by omega)
  obtain ⟨top, last, linked, height⟩ := path.below (by simp)
  exact ⟨verifyGenesisWorkShape_of_normal normal.1, top, last, linked, height.symm⟩

include free seated known in
/-- A candidate passes the check of its height. -/
theorem Secure.validateHeight_ok (secure : Secure U g engine w) :
    engine.validateHeight candidate.block = true := by
  obtain ⟨-, top, last, -, height⟩ := Candidate.next seated
  by_cases has : engine.chainIndex.has candidate.block.header.previousBlockHash = true
  · have indexOf := secure.canonical.indexOf
    obtain ⟨p, q, a, split, last', hash⟩ := exists_below (indexOf.has_iff.mp has)
    have ancestry : p = g :: candidate.ancestors := by
      apply secure.ancestry_canonical free seated.toValid known split
      rw [last', Option.map_some, hash]
    rw [ancestry, last, Option.some.injEq] at last'
    subst last'
    rw [split, ancestry] at indexOf
    exact (validateHeight_canonical indexOf last hash.symm).mpr height
  · rw [Bool.not_eq_true] at has
    cases found : ForkRegistry.get engine.forks candidate.block.header.previousBlockHash with
    | none =>
      rw [ChainIndex.has, Option.isSome_eq_false_iff, Option.isNone_iff_eq_none] at has
      rw [validateHeight, ChainIndex.height, has, found]
      rfl
    | some e =>
      obtain ⟨-, p, q, branches⟩ := secure.registry.entry found
      have ancestry := secure.ancestry_branch free seated.toValid known found branches
      rw [← ancestry, List.getLast?_append_of_ne_nil _ branches.blocks_ne_nil] at last
      exact (validateHeight_fork has found last).mpr height

include free seated known in
/-- A candidate on the canonical tip is acceptable. -/
theorem Secure.acceptable_canonical (secure : Secure U g engine w)
    (extends' : engine.classifyBlock candidate.block = .extendsCanonical) :
    w = g :: candidate.ancestors ∧ Acceptable engine nowSecs candidate.block := by
  have spec := classifyBlock_spec engine candidate.block
  rw [extends'] at spec
  obtain ⟨top, last, tip⟩ := secure.exists_tip
  have above := spec.2
  rw [tip] at above
  have parent : candidate.block.header.previousBlockHash = top.blockHash := by simpa using above
  have chain := secure.canonical.chain
  have ancestry : w = g :: candidate.ancestors := by
    apply secure.ancestry_canonical free seated.toValid known (List.append_nil w).symm
    rw [last, Option.map_some, parent]
  refine ⟨ancestry, (Candidate.next seated).1, secure.validateHeight_ok free seated known, ?_⟩
  obtain ⟨s, grown, passes⟩ := seated.passes
  have views := views_storage secure.canonical.sound chain secure.canonical.represents.holds
  rw [secure.exact] at views
  rw [ancestry] at views chain
  rw [Validated, extends']
  exact (views.validate_iff (views_growFrom chain grown)).mpr passes

include free seated known in
/-- A candidate on a lower canonical block is acceptable. -/
theorem Secure.acceptable_new (secure : Secure U g engine w) {lca : BlockHash}
    (creates : engine.classifyBlock candidate.block = .createsForkFromCanonical lca)
    (split : w = p ++ q) (ancestor : p.getLast?.map Block.blockHash = some lca)
    (fresh : ForksFresh engine candidate.block) :
    p = g :: candidate.ancestors ∧ Acceptable engine nowSecs candidate.block := by
  have spec := classifyBlock_spec engine candidate.block
  rw [creates] at spec
  obtain ⟨-, rfl, -⟩ := spec
  have ancestry := secure.ancestry_canonical free seated.toValid known split ancestor
  obtain ⟨a, last, hash⟩ := Option.map_eq_some_iff.mp ancestor
  have canonical := secure.canonical
  have chain := canonical.chain
  have holds := canonical.represents.holds
  rw [split] at chain holds
  have ne : p ≠ [] := by
    intro empty
    rw [empty] at last
    cases last
  have lower := chain.left ne
  have shape := (Candidate.next seated).1
  have checked := secure.validateHeight_ok free seated known
  have root : forkRoot engine candidate.block =
      some candidate.block.header.previousBlockHash := by simp only [forkRoot, creates]
  refine ⟨ancestry, shape, checked, ?_⟩
  obtain ⟨s, grown, passes⟩ := seated.passes
  obtain ⟨overlay, view, replayed, coins⟩ := secure.overlay split last
    (fresh.above secure.toInvariant shape checked root split ancestor)
  have views := views_overlay canonical.sound chain holds (by rw [List.append_nil]; exact lower) ne
    replayed
  rw [coins, List.append_nil, ancestry] at views
  rw [ancestry] at lower
  rw [Validated, creates]
  exact ⟨overlay, hash ▸ view, (views.validate_iff (views_growFrom lower grown)).mpr passes⟩

include free seated known in
/-- A candidate on the tip of a branch is acceptable. -/
theorem Secure.acceptable_longer (secure : Secure U g engine w) {lca : BlockHash} {e : ForkEntry}
    (extends' : engine.classifyBlock candidate.block =
      .extendsFork candidate.block.header.previousBlockHash lca)
    (found : ForkRegistry.get engine.forks candidate.block.header.previousBlockHash = some e)
    (branches : Branches engine.blockValidator.consensusConsts w e p q)
    (fresh : ForksFresh engine candidate.block) :
    p ++ e.blocks = g :: candidate.ancestors ∧ Acceptable engine nowSecs candidate.block := by
  have spec := classifyBlock_spec engine candidate.block
  rw [extends'] at spec
  obtain ⟨-, -, -, e', found', rfl⟩ := spec
  rw [found, Option.some.injEq] at found'
  subst found'
  have canonical := secure.canonical
  have chain := canonical.chain
  have holds := canonical.represents.holds
  rw [branches.split] at chain holds
  have ancestry := secure.ancestry_branch free seated.toValid known found branches
  have shape := (Candidate.next seated).1
  have checked := secure.validateHeight_ok free seated known
  have root : forkRoot engine candidate.block = some e.commonAncestor := by
    simp only [forkRoot, extends']
  refine ⟨ancestry, shape, checked, ?_⟩
  obtain ⟨s, grown, passes⟩ := seated.passes
  obtain ⟨rewound, overlay, view, replay, replayed, coins⟩ := secure.replayed branches
    (fresh.above secure.toInvariant shape checked root branches.split branches.ancestor)
  have views := views_overlay canonical.sound chain holds branches.chain branches.ne_nil replayed
  have chain' := branches.chain
  rw [coins, ancestry] at views
  rw [ancestry] at chain'
  rw [Validated, extends']
  exact ⟨e, rewound, overlay, found, view, replay,
    (views.validate_iff (views_growFrom chain' grown)).mpr passes⟩

include free seated known inside in
/-- A candidate that is known already is not heavier than the canonical chain. -/
theorem Secure.known_le (secure : Secure U g engine w) {location : KnownLocation}
    (held : engine.classifyBlock candidate.block = .known location) :
    candidate.work g ≤ chainWork w := by
  rcases secure.known_where held with canonical | ⟨key, e, found, mem⟩
  · exact Candidate.work_le free seated known inside secure.canonical.chain secure.inside canonical
  · obtain ⟨-, p, q, branches⟩ := secure.registry.entry found
    calc candidate.work g
        ≤ chainWork (p ++ e.blocks) := by
          apply Candidate.work_le free seated known inside branches.chain
            (secure.inside_branch found branches)
          rw [List.map_append]
          exact List.mem_append_right _ mem
      _ = e.cumulativeWork := branches.work.symm
      _ ≤ chainWork w := branches.lighter

include free seated known in
/-- A candidate that is placed and not known yet is acceptable. -/
theorem Secure.accepts (secure : Secure U g engine w)
    (placed : Placed engine (candidate.delivery nowSecs))
    (new : ∀ location, engine.classifyBlock candidate.block ≠ .known location) :
    Acceptable engine nowSecs candidate.block := by
  cases class' : engine.classifyBlock candidate.block with
  | known location => exact absurd class' (new location)
  | extendsCanonical => exact (secure.acceptable_canonical free seated known class').2
  | createsForkFromCanonical lca =>
    have spec := classifyBlock_spec engine candidate.block
    rw [class'] at spec
    obtain ⟨p, q, a, split, last, hash⟩ :=
      exists_below (secure.canonical.indexOf.has_iff.mp spec.2.2)
    have ancestor : p.getLast?.map Block.blockHash = some lca := by
      rw [last, Option.map_some, hash]
    exact (secure.acceptable_new free seated known class' split ancestor placed.fresh).2
  | extendsFork parent lca =>
    have spec := classifyBlock_spec engine candidate.block
    rw [class'] at spec
    obtain ⟨-, rfl, -, e, found, -⟩ := spec
    obtain ⟨-, p, q, branches⟩ := secure.registry.entry found
    exact (secure.acceptable_longer free seated known class' found branches placed.fresh).2
  | orphan parent => exact absurd class' (placed.parent parent)

include free seated known in
/-- A candidate that is placed and new becomes the canonical tip, or the tip of a branch that is not
heavier than the canonical chain. -/
theorem Secure.lands (secure : Secure U g engine w)
    (placed : Placed engine (candidate.delivery nowSecs))
    (new : ∀ location, engine.classifyBlock candidate.block ≠ .known location)
    (step : Step engine nowSecs candidate.block verdict engine')
    (taken : Acceptable engine nowSecs candidate.block → ∀ error, verdict ≠ .rejected error) :
    (Invariant g engine' (candidate.path g) ∧ chainWork w ≤ candidate.work g) ∨
    (Invariant g engine' w ∧ candidate.work g ≤ chainWork w ∧ ∃ key e,
      engine'.forks.read key = some e ∧ e.blocks.getLast? = some candidate.block ∧
      ∀ key' e', engine'.forks.read key' = some e' → e' = e ∨ engine.forks.read key' = some e') := by
  cases step with
  | rejected error => exact absurd rfl (taken (secure.accepts free seated known placed new) error)
  | included held => exact absurd held (new _)
  | known held => exact absurd held (new _)
  | orphan orphan => exact absurd orphan (placed.parent _)
  | applied shape height extends' passes top committed =>
    obtain ⟨ancestry, -⟩ := secure.acceptable_canonical free seated known extends'
    obtain ⟨inv', -⟩ := secure.applied extends' passes top committed
    rw [ancestry] at inv'
    refine .inl ⟨inv', ?_⟩
    rw [ancestry, Candidate.work, Candidate.path, chainWork_append (g :: candidate.ancestors)]
    exact Nat.le_add_right _ _
  | @forked lca lcaWork overlay tip shape height creates work view passes top light =>
    obtain ⟨p, q, branch⟩ := secure.newBranch shape height creates view passes
    obtain ⟨ancestry, -⟩ :=
      secure.acceptable_new free seated known creates branch.split branch.ancestor placed.fresh
    refine .inr ⟨secure.forked shape height creates work view passes top light, ?_,
      candidate.block.blockHash, _, read_inserted_self _ _, List.getLast?_singleton,
      fun key e found => (read_inserted found).imp_left And.right⟩
    rw [secure.tip_work top, secure.lca_work branch work] at light
    rw [Candidate.work, Candidate.path, ← ancestry]
    simpa using light
  | @extended lca e rewound overlay tip shape height extends' found view replayed passes top light =>
    obtain ⟨p, q, branches, branch⟩ :=
      secure.longerBranch shape height extends' found view replayed passes
    obtain ⟨ancestry, -⟩ :=
      secure.acceptable_longer free seated known extends' found branches placed.fresh
    refine .inr ⟨secure.extended shape height extends' found view replayed passes top light, ?_,
      candidate.block.blockHash, _, read_inserted_self _ _, List.getLast?_concat,
      fun key e found => (read_inserted found).imp And.right fun old => (read_remove old).2⟩
    rw [secure.tip_work top, branches.work] at light
    rw [Candidate.work, Candidate.path, ← ancestry, chainWork_append (p ++ e.blocks)]
    simpa using light
  | replaced shape height creates work view passes top heavy reorganized =>
    obtain ⟨p, q, branch⟩ := secure.newBranch shape height creates view passes
    obtain ⟨ancestry, -⟩ :=
      secure.acceptable_new free seated known creates branch.split branch.ancestor placed.fresh
    have heavier := secure.heavier_new branch work top heavy
    obtain ⟨inv', -, -⟩ := secure.reorganized branch (by simp) heavier reorganized
    rw [ancestry] at inv' heavier
    exact .inl ⟨inv', heavier.le⟩
  | @overtaken lca e rewound overlay tip verdict engine' shape height extends' found view replayed
      passes top heavy reorganized =>
    obtain ⟨p, q, branches, branch⟩ :=
      secure.longerBranch shape height extends' found view replayed passes
    obtain ⟨ancestry, -⟩ :=
      secure.acceptable_longer free seated known extends' found branches placed.fresh
    have heavier := secure.heavier_longer branches top heavy
    obtain ⟨inv', -, -⟩ := secure.reorganized branch (by simp) heavier reorganized
    rw [← List.append_assoc, ancestry] at inv' heavier
    exact .inl ⟨inv'.withForks (inv'.registry.remove _), heavier.le⟩

include free seated known inside in
/-- After a candidate that is placed, the tip is the heavier one of the old tip and the
candidate. -/
theorem Secure.chooses (secure : Secure U g engine w)
    (placed : Placed engine (candidate.delivery nowSecs))
    (step : Step engine nowSecs candidate.block verdict engine')
    (taken : Acceptable engine nowSecs candidate.block → ∀ error, verdict ≠ .rejected error) :
    tipWork engine' = some (max (chainWork w) (candidate.work g)) := by
  by_cases old : ∃ location, engine.classifyBlock candidate.block = .known location
  · obtain ⟨location, held⟩ := old
    rw [step.idle (.inl ⟨location, held⟩), secure.tipWork_eq,
      Nat.max_eq_left (secure.known_le free seated known inside held)]
  · rw [not_exists] at old
    rcases secure.lands free seated known placed old step taken with
      ⟨inv', heavier⟩ | ⟨inv', lighter, -⟩
    · rw [inv'.tipWork_eq, Nat.max_eq_right heavier]
      rfl
    · rw [inv'.tipWork_eq, Nat.max_eq_left lighter]

end Step

section Run

variable [Primitives] {DB : Type} [FullNodeStorage DB]

omit [Primitives] in
theorem foldl_max_le {l : List Nat} {a n : Nat} :
    l.foldl max a ≤ n ↔ a ≤ n ∧ ∀ x ∈ l, x ≤ n := by
  induction l generalizing a with
  | nil => simp
  | cons x l ih =>
    rw [List.foldl_cons, ih, List.forall_mem_cons, Nat.max_le, and_assoc]

omit [Primitives] in
/-- The heaviest candidate does not depend on the order. -/
theorem heaviest_congr {g : Block} {candidates candidates' : List Candidate}
    (same : ∀ candidate, candidate ∈ candidates' ↔ candidate ∈ candidates) :
    heaviest g candidates' = heaviest g candidates := by
  apply Nat.le_antisymm
  · refine foldl_max_le.mpr ⟨Nat.zero_le _, ?_⟩
    intro n mem
    obtain ⟨candidate, here, rfl⟩ := List.mem_map.mp mem
    exact (foldl_max_le.mp (Nat.le_refl _)).2 _ (List.mem_map_of_mem ((same candidate).mp here))
  · refine foldl_max_le.mpr ⟨Nat.zero_le _, ?_⟩
    intro n mem
    obtain ⟨candidate, here, rfl⟩ := List.mem_map.mp mem
    exact (foldl_max_le.mp (Nat.le_refl _)).2 _ (List.mem_map_of_mem ((same candidate).mpr here))

omit [Primitives] in
/-- The ancestors of a candidate are delivered. -/
theorem ParentFirst.known {delivered : List Block} {candidates : List Candidate}
    (order : ParentFirst delivered candidates) : ∀ candidate ∈ candidates,
      ∀ a ∈ candidate.ancestors, a ∈ delivered ∨ a ∈ candidates.map Candidate.block := by
  induction candidates generalizing delivered with
  | nil => simp
  | cons first rest ih =>
    intro candidate mem a ancestor
    rcases List.mem_cons.mp mem with rfl | later
    · exact .inl (order.1 a ancestor)
    · rcases ih order.2 candidate later a ancestor with old | new
      · rcases List.mem_cons.mp old with rfl | older
        · exact .inr (by simp)
        · exact .inl older
      · exact .inr (List.mem_cons_of_mem _ new)

variable [LawfulStorage DB] {U : Block → Prop} {engine : StryiConsensusEngine DB} {g : Block}
  {w : List Block} {nowSecs : UInt64} {candidates : List Candidate}
  {consensusConsts : ConsensusConsts} {blockValidator : BlockValidator}
  {chainMetadata : ChainMetadata}

/-- Along a run of placed candidates the tip is always the heaviest block so far. -/
theorem Secure.choosesAll (secure : Secure U g engine w)
    (free : HashesIdentify fun b => b = g ∨ U b) (rules : engine.blockValidator = blockValidator)
    (valid : ∀ candidate ∈ candidates, candidate.Valid DB blockValidator nowSecs g chainMetadata ∧
      U candidate.block ∧ ∀ a ∈ candidate.ancestors, U a)
    (placed : Along Placed engine (candidates.map (Candidate.delivery nowSecs))) :
    tipWork (deliverAll engine (candidates.map (Candidate.delivery nowSecs))) =
      some ((candidates.map (Candidate.work g)).foldl max (chainWork w)) := by
  induction candidates generalizing engine w with
  | nil => exact secure.tipWork_eq
  | cons candidate candidates ih =>
    obtain ⟨passes, inside, known⟩ := valid candidate List.mem_cons_self
    have seated := secure.seats free (rules ▸ passes) known inside placed.1
    have vetted := free.collisionFree
    obtain ⟨verdict, engine', done, taken⟩ : Settles (Acceptable engine nowSecs candidate.block)
        (onBlock nowSecs .none candidate.block engine) :=
      onBlock_settles secure vetted inside placed.1.fits placed.1.below placed.1.fresh
    have step := onBlock_ok done
    have reached : StryiChain.deliver engine (candidate.delivery nowSecs) = engine' := by
      unfold StryiChain.deliver Candidate.delivery
      rw [done]
    have tip := secure.chooses free seated known inside placed.1 step taken
    obtain ⟨w', secure'⟩ := secure.step vetted inside placed.1.fits
      (ForksFresh.detachesFresh placed.1.fresh) step
    rw [secure'.tipWork_eq, Option.some.injEq] at tip
    have rules' : engine'.blockValidator = blockValidator := by
      rw [← reached, deliver_blockValidator, rules]
    have rest := placed.2
    rw [reached] at rest
    rw [List.map_cons, List.map_cons, List.foldl_cons, ← tip]
    change tipWork (deliverAll (StryiChain.deliver engine (candidate.delivery nowSecs)) _) = _
    rw [reached]
    exact ih secure' rules' (fun later mem => valid later (List.mem_cons_of_mem _ mem)) rest

/-- In every run of branch-valid blocks, parents first, in which every block finds its parent and
follows its height, the canonical tip has the largest cumulative work after every delivery; two
such orders of the same blocks end with tips of equal work. -/
theorem fork_choice
    (launched : launch consensusConsts blockValidator g chainMetadata = .ok engine)
    (free : HashesIdentify fun b => b = g ∨ b ∈ candidates.map Candidate.block)
    (valid : ∀ candidate ∈ candidates, candidate.Valid DB blockValidator nowSecs g chainMetadata)
    (order : ParentFirst [] candidates)
    (placed : Along Placed engine (candidates.map (Candidate.delivery nowSecs))) :
    (∀ n, tipWork (deliverAll engine ((candidates.take n).map (Candidate.delivery nowSecs))) =
      some (heaviest g (candidates.take n))) ∧
    ∀ candidates', (∀ candidate, candidate ∈ candidates' ↔ candidate ∈ candidates) →
      ParentFirst [] candidates' →
      Along Placed engine (candidates'.map (Candidate.delivery nowSecs)) →
      tipWork (deliverAll engine (candidates'.map (Candidate.delivery nowSecs))) =
        tipWork (deliverAll engine (candidates.map (Candidate.delivery nowSecs))) := by
  have secure : Secure (fun b => b ∈ candidates.map Candidate.block) g engine [g] :=
    Secure.launched launched
  obtain ⟨inv, rules, -⟩ := Invariant.launched launched
  have start : chainWork [g] = 0 := by
    simp [GenesisShape.work inv.genesis.marker]
  have identified : ∀ candidate ∈ candidates,
      candidate.Valid DB blockValidator nowSecs g chainMetadata ∧
      candidate.block ∈ candidates.map Candidate.block ∧
      ∀ a ∈ candidate.ancestors, a ∈ candidates.map Candidate.block := by
    intro candidate mem
    refine ⟨valid candidate mem, List.mem_map_of_mem mem, fun a ancestor => ?_⟩
    exact (order.known candidate mem a ancestor).resolve_left List.not_mem_nil
  have best : ∀ candidates', (∀ candidate ∈ candidates', candidate ∈ candidates) →
      Along Placed engine (candidates'.map (Candidate.delivery nowSecs)) →
      tipWork (deliverAll engine (candidates'.map (Candidate.delivery nowSecs))) =
        some (heaviest g candidates') := by
    intro candidates' part along
    have tip := secure.choosesAll free rules (fun c mem => identified c (part c mem)) along
    rw [start] at tip
    exact tip
  refine ⟨fun n => ?_, fun candidates' same _ along => ?_⟩
  · apply best _ fun candidate mem => List.mem_of_mem_take mem
    rw [← List.take_append_drop n candidates, List.map_append] at placed
    exact (Along.append.mp placed).1
  · rw [best candidates' (fun c mem => (same c).mp mem) along,
      best candidates (fun _ mem => mem) placed, heaviest_congr same]

end Run

namespace Sample

/-- Two blocks above the first rival. -/
def second : Block := above rival 5 []

def third : Block := above second 6 []

/-- A branch overtakes the first rival, which then goes on. -/
def resumed : List Candidate :=
  [⟨[], rival⟩, ⟨[], other⟩, ⟨[other], next⟩, ⟨[rival], second⟩, ⟨[rival, second], third⟩]

theorem isChain_of_run {blocks : List Block} (reads : start.toOption.any (fun engine =>
      canonicalBlocks (deliverAll engine (blocks.map call)).db = genesis :: blocks) = true) :
    IsChain (genesis :: blocks) := by
  obtain ⟨engine, started, read⟩ := exists_ok_of_any reads
  rw [decide_eq_true_eq] at read
  obtain ⟨w, inv⟩ := (Invariant.launched started).1.run (blocks.map call)
  rw [← read, canonicalBlocks_eq inv.canonical]
  exact inv.canonical.chain

theorem resumed_valid : ∀ candidate ∈ resumed,
    candidate.Valid RocksView validator 1000 genesis ⟨2, "sample", 1, 0⟩ := by
  have first : IsChain (genesis :: [rival, second, third]) :=
    isChain_of_run (by decide +kernel)
  have branch : IsChain (genesis :: [other, next]) := isChain_of_run (by decide +kernel)
  have linked : ∀ candidate ∈ resumed,
      (genesis :: candidate.ancestors).getLast?.map Block.blockHash =
        some candidate.block.header.previousBlockHash := by decide +kernel
  have passes : ∀ candidate ∈ resumed, ((grown candidate.ancestors).toOption.any fun s =>
      (validator.validate 1000 candidate.block s).toOption.any fun _ => true) = true := by
    decide +kernel
  intro candidate mem
  obtain ⟨s, grow, valid⟩ := exists_ok_of_any (passes candidate mem)
  obtain ⟨⟨⟩, valid, -⟩ := exists_ok_of_any valid
  refine ⟨?_, linked candidate mem, s, grow, valid⟩
  simp only [resumed, List.mem_cons, List.not_mem_nil, or_false] at mem
  rcases mem with rfl | rfl | rfl | rfl | rfl
  · exact first.take (n := 1) (by omega)
  · exact first.take (n := 1) (by omega)
  · exact branch.take (n := 2) (by omega)
  · exact first.take (n := 2) (by omega)
  · exact first.take (n := 3) (by omega)

theorem resumed_identified :
    HashesIdentify fun b => b = genesis ∨ b ∈ resumed.map Candidate.block := by
  have apart : ∀ a ∈ genesis :: resumed.map Candidate.block,
      ∀ b ∈ genesis :: resumed.map Candidate.block, a.blockHash = b.blockHash → a = b := by
    decide +kernel
  intro a b ha hb same
  exact apart a (List.mem_cons.mpr ha) b (List.mem_cons.mpr hb) same

end Sample

open Sample in
/-- The engine has forgotten the branch that goes on, and stays on the lighter one. -/
theorem fork_choice_forgets_detached : ∃ engine, start = .ok engine ∧
    (HashesIdentify fun b => b = genesis ∨ b ∈ resumed.map Candidate.block) ∧
    (∀ candidate ∈ resumed,
      candidate.Valid RocksView validator 1000 genesis ⟨2, "sample", 1, 0⟩) ∧
    ParentFirst [] resumed ∧
    tipWork (deliverAll engine (resumed.map (Candidate.delivery 1000))) ≠
      some (heaviest genesis resumed) := by
  have stays : start.toOption.any (fun engine =>
      tipWork (deliverAll engine (resumed.map (Candidate.delivery 1000))) = some 2) = true := by
    decide +kernel
  have third : heaviest genesis resumed = 3 := by decide +kernel
  obtain ⟨engine, started, tip⟩ := exists_ok_of_any stays
  rw [decide_eq_true_eq] at tip
  refine ⟨engine, started, resumed_identified, resumed_valid, ?_, ?_⟩
  · simp [ParentFirst, resumed]
  · rw [tip, third]
    decide

open Sample in
/-- A branch that overtakes another one. -/
theorem fork_choice_sample : ∃ engine, start = .ok engine ∧
    Along Placed engine ((resumed.take 3).map (Candidate.delivery 1000)) ∧
    (∀ n, tipWork (deliverAll engine
        (((resumed.take 3).take n).map (Candidate.delivery 1000))) =
      some (heaviest genesis ((resumed.take 3).take n))) ∧
    ∀ candidates', (∀ candidate, candidate ∈ candidates' ↔ candidate ∈ resumed.take 3) →
      ParentFirst [] candidates' →
      Along Placed engine (candidates'.map (Candidate.delivery 1000)) →
      tipWork (deliverAll engine (candidates'.map (Candidate.delivery 1000))) =
        tipWork (deliverAll engine ((resumed.take 3).map (Candidate.delivery 1000))) := by
  have chains : start.toOption.any (fun engine =>
      let engine1 := deliver engine (call rival)
      let engine2 := deliver engine1 (call other)
      (HeightsBelow engine ∧ HeightsBelow engine1 ∧ HeightsBelow engine2) ∧
      (canonicalBlocks engine.db = [genesis] ∧ canonicalBlocks engine1.db = [genesis, rival] ∧
        canonicalBlocks engine2.db = [genesis, rival]) ∧
      (engine.classifyBlock rival = .extendsCanonical ∧
        engine1.classifyBlock other = .createsForkFromCanonical genesis.blockHash ∧
        engine2.classifyBlock next = .extendsFork other.blockHash genesis.blockHash) ∧
      engine.validateHeight rival = true ∧ engine1.validateHeight other = true ∧
        engine2.validateHeight next = true) = true := by decide +kernel
  obtain ⟨engine, started, reads⟩ := exists_ok_of_any chains
  rw [decide_eq_true_eq] at reads
  obtain ⟨⟨below, below1, below2⟩, ⟨chain, chain1, chain2⟩, ⟨first, second, third⟩, height, height1,
    height2⟩ := reads
  have fresh : Coins.FreshAbove [genesis] [rival] := by decide +kernel
  have placed : Along Placed engine ((resumed.take 3).map (Candidate.delivery 1000)) :=
    ⟨⟨⟨rfl, below, by decide, .of_all chain trivial⟩, (fun _ orphan => by
        cases first.symm.trans orphan), height⟩,
      ⟨⟨rfl, below1, by decide, .of_all chain1 fresh⟩, (fun _ orphan => by
        cases second.symm.trans orphan), height1⟩,
      ⟨⟨rfl, below2, by decide, .of_all chain2 fresh⟩, (fun _ orphan => by
        cases third.symm.trans orphan), height2⟩, trivial⟩
  have free : HashesIdentify fun b => b = genesis ∨ b ∈ (resumed.take 3).map Candidate.block := by
    intro a b ha hb same
    exact resumed_identified a b (ha.imp_right fun mem => List.map_subset _ (List.take_subset _ _) mem)
      (hb.imp_right fun mem => List.map_subset _ (List.take_subset _ _) mem) same
  refine ⟨engine, started, placed, fork_choice started free ?_ ?_ placed⟩
  · intro candidate mem
    exact resumed_valid candidate (List.mem_of_mem_take mem)
  · simp [ParentFirst, resumed]

end StryiChain
