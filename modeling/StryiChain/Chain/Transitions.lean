import StryiChain.Chain.Locators
import StryiChain.Chain.Views

/-!
# Storages that transitions reach

Storage below the engine: a genesis, appended blocks, and reorganizations that an overlay of the
storage has prepared. Blocks are not validated here. If their hashes tell them apart and no
canonical chain has had a transaction hash twice, such a storage holds exactly what its canonical
chain says, and an overlay holds exactly what the branch says that was replayed in it.
-/

namespace StryiChain

open LawfulStorage

section Reached

variable [Primitives] {DB : Type} [FullNodeStorage DB]

/-- The blocks of the set are told apart by their hashes. -/
def HashesIdentify (U : Block → Prop) : Prop :=
  ∀ a b, U a → U b → a.blockHash = b.blockHash → a = b

/-- Overlays of a storage, after any calls that have succeeded. -/
inductive ForkDbOverlay.Built (U : Block → Prop) (s : DB) : ForkDbOverlay DB → Prop
  | new {lca : BlockHash} {overlay : ForkDbOverlay DB}
      (run : ForkDbOverlay.new s lca = .ok overlay) : Built U s overlay
  | rewind {overlay overlay' : ForkDbOverlay DB} (built : Built U s overlay)
      (run : overlay.rewindBlock = .ok overlay') : Built U s overlay'
  | replay {overlay overlay' : ForkDbOverlay DB} {b : Block} (built : Built U s overlay)
      (inside : U b) (run : overlay.replayBlock b = .ok overlay') : Built U s overlay'

/-- Storages reached by committed transitions of blocks of the set, in which no canonical chain has
had a transaction hash twice. -/
inductive Reached (U : Block → Prop) : DB → Prop
  | genesis {g : Block} {chainMetadata : ChainMetadata} {result : ChainTransitionResult} {s : DB}
      (inside : U g)
      (run : commitTransition (StorageWrite.initial : DB) (.genesis g chainMetadata) =
        .ok (result, s)) : Reached U s
  | reopen {g : Block} {chainMetadata : ChainMetadata} {result : ChainTransitionResult}
      {s s' : DB} (reached : Reached U s)
      (run : commitTransition s (.genesis g chainMetadata) = .ok (result, s')) : Reached U s'
  | append {b : Block} {result : ChainTransitionResult} {s s' : DB} (reached : Reached U s)
      (inside : U b) (run : commitTransition s (.append b) = .ok (result, s'))
      (distinct : (txidsOf (canonicalBlocks s')).Nodup) : Reached U s'
  | reorganize {overlay : ForkDbOverlay DB} {delta : ForkDbDelta} {result : ChainTransitionResult}
      {s s' : DB} (reached : Reached U s) (built : overlay.Built U s)
      (prepared : overlay.intoDelta = .ok delta)
      (run : commitTransition s (.reorganize delta) = .ok (result, s'))
      (distinct : (txidsOf (canonicalBlocks s')).Nodup) : Reached U s'

end Reached

section Fresh

variable [Primitives] {w p q : List Block} {b : Block} {o : OutPoint}

/-- An entry of the ledger carries the hash of a transaction of the chain. -/
theorem ledger_txid (present : Coins.ledger w o ≠ none) : o.txid ∈ txidsOf w := by
  induction w using List.reverseRecOn with
  | nil => exact absurd rfl present
  | append_singleton w b ih =>
    rw [Coins.ledger_concat, Coins.apply_apply_eq] at present
    rw [txidsOf, List.flatMap_append, List.flatMap_singleton, List.mem_append]
    cases created : b.created.read o with
    | some u =>
      obtain ⟨tx, mem, same⟩ := created_txid created
      rw [same]
      exact .inr (List.mem_map_of_mem mem)
    | none =>
      rw [created, Option.none_or, eraseAll] at present
      split at present
      · exact absurd rfl present
      · exact .inl (ih present)

/-- Blocks are fresh on a chain that has none of their transactions. -/
theorem freshAbove_of_nodup (distinct : (txidsOf (p ++ q)).Nodup) : Coins.FreshAbove p q := by
  induction q generalizing p with
  | nil => exact trivial
  | cons b q ih =>
    rw [List.append_cons] at distinct
    refine ⟨?_, ih distinct⟩
    intro o mem
    left
    by_contra present
    rw [txidsOf, List.flatMap_append, List.flatMap_append, List.flatMap_singleton] at distinct
    have apart := (List.nodup_append.mp (List.nodup_append.mp distinct).1).2.2
    obtain ⟨u, created⟩ := Table.mem_keys_iff.mp mem
    obtain ⟨tx, inside, same⟩ := created_txid created
    apply apart o.txid (ledger_txid present) o.txid _ rfl
    rw [same]
    exact List.mem_map_of_mem inside

end Fresh

section Coherent

variable [Primitives] {DB : Type} [FullNodeStorage DB] [LawfulStorage DB]

/-- A storage that holds exactly what its canonical chain says. -/
structure Coherent (U : Block → Prop) (s : DB) (w : List Block) : Prop where
  sound : Sound s
  chain : IsChain w
  represents : Represents (tables s) w
  applies : Coins.Applies (fun _ => none) w
  exact : (tables s).utxo = Coins.ledger w
  archived : (tables s).Archived
  locates : Locates (tables s) w
  stored : ∀ hash b, (tables s).block hash = some b → U b
  distinct : (txidsOf w).Nodup

variable {U : Block → Prop} {s s' : DB} {w p q bs : List Block} {b : Block}

theorem Coherent.blocks_eq (coherent : Coherent U s w) : canonicalBlocks s = w :=
  canonicalBlocks_of_represents coherent.sound coherent.chain coherent.represents

theorem Coherent.below (coherent : Coherent U s w) :
    Submap (tables s).utxo (Coins.ledger w) := by
  rw [coherent.exact]
  exact fun _ _ found => found

/-- Rewinding to a block of the chain leaves the ledger of the chain below it. -/
theorem Coherent.unwind_eq (coherent : Coherent U s (p ++ q)) :
    Coins.unwind p q (tables s).utxo = Coins.ledger p := by
  rw [coherent.exact]
  exact Coins.unwind_eq (Coins.applies_append.mp coherent.applies).2
    (freshAbove_of_nodup coherent.distinct)

theorem Coherent.inside (coherent : Coherent U s w) : ∀ b ∈ w, U b := by
  intro b mem
  exact coherent.stored b.blockHash b (coherent.represents.holds.body b mem)

omit [FullNodeStorage DB] [LawfulStorage DB] in
/-- A block that stands above a chain has a hash that is not in it. -/
theorem HashesIdentify.new (free : HashesIdentify U) (chain : IsChain w) (inside : ∀ b ∈ w, U b)
    (own : U b) (links : Links w b) : b.blockHash ∉ w.map Block.blockHash := by
  intro mem
  obtain ⟨a, below, same⟩ := List.mem_map.mp mem
  obtain rfl := free a b (inside a below) own same
  obtain ⟨i, at_i⟩ := List.mem_iff_getElem?.mp below
  have height := chain.height at_i
  have bound := (List.getElem?_eq_some_iff.mp at_i).1
  rw [links.height] at height
  omega

theorem Coherent.genesis {g : Block} {chainMetadata : ChainMetadata}
    {result : ChainTransitionResult} (inside : U g)
    (run : commitTransition (StorageWrite.initial : DB) (.genesis g chainMetadata) =
      .ok (result, s)) : Coherent U s [g] := by
  obtain ⟨shape, sound, started⟩ := genesis_eq_ok run
  have once : (txidsOf [g]).Nodup := by
    obtain ⟨tx, single, -⟩ := shape.transaction
    simp [txidsOf, Block.txids, single]
  refine ⟨sound, shape.isChain, ?_, ⟨shape.applicable _, trivial⟩, ?_, ?_, ?_, ?_, once⟩
  · rw [started]
    exact shape.represents chainMetadata
  · rw [started]
    rfl
  · rw [started]
    exact shape.archived chainMetadata
  · rw [started]
    exact shape.locates chainMetadata
  · intro hash b found
    rw [started] at found
    rw [Tables.genesis_block found]
    exact inside

/-- A genesis transition on a storage that has one writes nothing. -/
theorem Coherent.reopen {g : Block} {chainMetadata : ChainMetadata}
    {result : ChainTransitionResult} (coherent : Coherent U s w)
    (run : commitTransition s (.genesis g chainMetadata) = .ok (result, s')) : s' = s := by
  obtain ⟨state, hstate⟩ := exists_stateOf coherent.chain
  simp only [commitTransition, applyTransition, stageGenesis, reopenGenesis,
    chainState_eq coherent.sound, coherent.represents.state, hstate, bind_ok, bind_eq_ok,
    pure_eq_ok, Prod.exists, Prod.mk.injEq] at run
  obtain ⟨-, -, -, -, ⟨-, -, -, -, -, -, -, -, -, -, -, -, -, -, -, rfl⟩, -, rfl⟩ := run
  rfl

/-- The chain after a block has been appended. -/
theorem Coherent.append_blocks {result : ChainTransitionResult} (coherent : Coherent U s w)
    (free : HashesIdentify U) (inside : U b)
    (run : commitTransition s (.append b) = .ok (result, s')) :
    IsChain (w ++ [b]) ∧ Represents (tables s') (w ++ [b]) ∧ canonicalBlocks s' = w ++ [b] := by
  obtain ⟨follows, applicable, sound', tables', -⟩ :=
    append_eq_ok coherent.sound coherent.chain coherent.represents run
  have chain' := coherent.chain.links follows.toLinks
    (free.new coherent.chain coherent.inside inside follows.toLinks)
  have represents' : Represents (tables s') (w ++ [b]) := by
    rw [tables']
    exact coherent.represents.appended chain' coherent.below applicable follows.room
  exact ⟨chain', represents', canonicalBlocks_of_represents sound' chain' represents'⟩

/-- An appended block. -/
theorem Coherent.append {result : ChainTransitionResult} (coherent : Coherent U s w)
    (free : HashesIdentify U) (inside : U b)
    (run : commitTransition s (.append b) = .ok (result, s'))
    (distinct : (txidsOf (w ++ [b])).Nodup) : Coherent U s' (w ++ [b]) := by
  obtain ⟨chain', represents', -⟩ := coherent.append_blocks free inside run
  obtain ⟨sound, chain, represents, applies, exact, archived, locates, stored, -⟩ := coherent
  obtain ⟨follows, applicable, sound', tables', -⟩ := append_eq_ok sound chain represents run
  have accepts := archived.accepts represents.holds follows.toLinks
    (fun saved found => free saved b (stored _ saved found) inside
      ((wellFormed sound).body found)) (append_fits run)
  have applies' : Coins.Applies (fun _ => none) (w ++ [b]) := by
    rw [Coins.applies_append]
    exact ⟨applies, by rw [exact] at applicable; exact applicable, trivial⟩
  have exact' : (tables s').utxo = Coins.ledger (w ++ [b]) := by
    rw [tables', Coins.ledger_concat, ← exact]
    rfl
  have locates' : Locates (tables s') (w ++ [b]) := by
    refine ⟨?_, ?_⟩
    · rw [tables', confirmed_append, List.flatMap_singleton, ← locates.transaction]
      rfl
    · intro x mem
      rcases List.mem_append.mp mem with old | new
      · exact locates.fits x old
      · rw [List.mem_singleton.mp new]
        exact append_fits run
  have stored' : ∀ hash x, (tables s').block hash = some x → U x := by
    intro hash x found
    rw [tables'] at found
    rcases Tables.appended_block found with old | rfl
    · exact stored hash x old
    · exact inside
  have archived' : (tables s').Archived := by
    rw [tables']
    exact archived.appended represents.holds follows.toLinks accepts
  exact ⟨sound', chain', represents', applies', exact', archived', locates', stored', distinct⟩

end Coherent

section Overlay

variable [Primitives] {DB : Type} [FullNodeStorage DB] [LawfulStorage DB] {U : Block → Prop}
  {s : DB} {w p q r bs : List Block} {a b : Block} {overlay overlay' : ForkDbOverlay DB}

/-- A branch that was replayed in an overlay. -/
structure ForkDbOverlay.Holding (U : Block → Prop) (overlay : ForkDbOverlay DB) (s : DB)
    (p q bs : List Block) : Prop where
  replayed : overlay.Replayed s p q bs
  chain : IsChain (p ++ bs)
  inside : ∀ b ∈ bs, U b
  applies : Coins.Applies (Coins.ledger p) bs

/-- An overlay is opened at a block of the canonical chain. -/
theorem new_inverts (coherent : Coherent U s w) {lca : BlockHash}
    (run : ForkDbOverlay.new s lca = .ok overlay) :
    ∃ p q, w = p ++ q ∧ p ≠ [] ∧ overlay.Rewinding s p q [] := by
  have sound := coherent.sound
  have holds := coherent.represents.holds
  have known : lca ∈ w.map Block.blockHash := by
    have opened := run
    simp only [ForkDbOverlay.new, getBlockByHash_eq _ sound, getBlockHashByHeight_eq _ sound,
      bind_ok, bind_eq_ok, okOr_eq_ok, failIf_eq_ok, ne_eq, not_not] at opened
    obtain ⟨block, -, _, -, _, -, _, -, _, canonical, -⟩ := opened
    rw [holds.height, Option.map_eq_some_iff] at canonical
    obtain ⟨a, at_a, rfl⟩ := canonical
    exact List.mem_map_of_mem (List.mem_of_getElem? at_a)
  obtain ⟨p, q, a, split, last, rfl⟩ := exists_below known
  have chain := coherent.chain
  have represents := coherent.represents
  rw [split] at chain represents
  obtain ⟨opened, same, rewinding⟩ := ForkDbOverlay.new_ok sound chain represents last
  rw [same, Except.ok.injEq] at run
  subst run
  refine ⟨p, q, split, ?_, rewinding⟩
  intro empty
  rw [empty] at last
  cases last

/-- The overlay has reached its fork point. -/
theorem ForkDbOverlay.Rewinding.holding (rewinding : overlay.Rewinding s p [] q)
    (chain : IsChain (p ++ q)) (ne : p ≠ []) : overlay.Holding U s p q [] := by
  refine ⟨rewinding.replayed, ?_, by simp, trivial⟩
  rw [List.append_nil]
  exact chain.left ne

omit [FullNodeStorage DB] [LawfulStorage DB] in
/-- The tops of two parts of a chain are at different heights. -/
theorem IsChain.above_ne {top : Block} (chain : IsChain (p ++ q ++ r)) (ne : p ≠ [])
    (above : q ≠ []) (last : (p ++ q).getLast? = some top) (last' : p.getLast? = some a) :
    top.header.height ≠ a.header.height := by
  intro same
  have upper := chain.left (by simp [ne])
  have height := upper.tip_height last
  have height' := (upper.left ne).tip_height last'
  rw [same, List.length_append] at height
  have longer := List.length_pos_iff.mpr above
  omega

/-- What the calls on an overlay have made of it: it is on its way down to the fork point, or
holds a branch above it. -/
theorem ForkDbOverlay.Built.shape (coherent : Coherent U s w) (free : HashesIdentify U)
    (built : overlay.Built U s) :
    (∃ p q r, w = p ++ q ++ r ∧ p ≠ [] ∧ q ≠ [] ∧ overlay.Rewinding s p q r) ∨
      ∃ p q bs, w = p ++ q ∧ p ≠ [] ∧ overlay.Holding U s p q bs := by
  induction built with
  | new run =>
    obtain ⟨p, q, split, ne, rewinding⟩ := new_inverts coherent run
    by_cases above : q = []
    · subst above
      have chain := coherent.chain
      rw [split] at chain
      exact .inr ⟨p, [], [], split, ne, rewinding.holding chain ne⟩
    · exact .inl ⟨p, q, [], by rw [List.append_nil, split], ne, above, rewinding⟩
  | @rewind overlay overlay' built run ih =>
    rcases ih with ⟨p, q, r, split, ne, above, rewinding⟩ | ⟨p, q, bs, split, ne, holding⟩
    · obtain ⟨front, b, rfl⟩ := (List.eq_nil_or_concat q).resolve_left above
      rw [List.concat_eq_append] at rewinding split
      have chain := coherent.chain
      have represents := coherent.represents
      have applies := coherent.applies
      rw [split] at chain represents applies
      obtain ⟨-, next⟩ := ForkDbOverlay.rewindBlock_eq_ok coherent.sound rewinding chain represents
        ne applies run
      by_cases done : front = []
      · subst done
        rw [List.nil_append, List.append_assoc, List.singleton_append] at chain split
        exact .inr ⟨p, b :: r, [], split, ne, next.holding chain ne⟩
      · exact .inl ⟨p, front, b :: r, by rw [split]; simp, ne, done, next⟩
    · exfalso
      -- A branch that is complete or has begun cannot be rewound.
      simp only [ForkDbOverlay.rewindBlock, bind_eq_ok, failIf_eq_ok] at run
      obtain ⟨-, guard, -⟩ := run
      apply guard
      right
      rw [holding.replayed.rewindTip]
      exact UInt64.le_refl _
  | @replay overlay overlay' b built own run ih =>
    rcases ih with ⟨p, q, r, split, ne, above, rewinding⟩ | ⟨p, q, bs, split, ne, holding⟩
    · exfalso
      -- The guard refuses blocks above a fork point that has not been reached.
      simp only [ForkDbOverlay.replayBlock, bind_eq_ok, failIf_eq_ok] at run
      obtain ⟨-, -, -, guard, -⟩ := run
      apply guard
      left
      intro same
      have chain := coherent.chain
      rw [split] at chain
      obtain ⟨top, last, tip⟩ := Option.map_eq_some_iff.mp rewinding.rewindTip
      obtain ⟨a, last', ancestor⟩ := Option.map_eq_some_iff.mp rewinding.ancestor
      rw [← tip, ← ancestor, Block.point, Block.point, Prod.mk.injEq] at same
      exact chain.above_ne ne above last last' same.1
    · right
      have inner : ∀ x ∈ p ++ bs, U x := by
        intro x mem
        rcases List.mem_append.mp mem with low | high
        · exact coherent.inside x (by rw [split]; exact List.mem_append_left _ low)
        · exact holding.inside x high
      obtain ⟨links, applicable, next⟩ := ForkDbOverlay.replayBlock_eq_ok holding.replayed
        holding.chain (fun links => free.new holding.chain inner own links) run
      have longer := holding.chain.links links (free.new holding.chain inner own links)
      rw [List.append_assoc] at longer
      rw [split] at coherent
      rw [holding.replayed.coins_eq, coherent.unwind_eq] at applicable
      refine ⟨p, q, bs ++ [b], split, ne, next, longer, ?_, ?_⟩
      · intro x mem
        rcases List.mem_append.mp mem with old | new
        · exact holding.inside x old
        · rw [List.mem_singleton.mp new]
          exact own
      · rw [Coins.applies_append]
        exact ⟨holding.applies, applicable, trivial⟩

/-- What a prepared reorganization replaces. -/
theorem ForkDbOverlay.Holding.replacement {delta : ForkDbDelta}
    (holding : overlay.Holding U s p q bs) (coherent : Coherent U s (p ++ q)) (ne : p ≠ [])
    (nonempty : bs ≠ []) (prepared : overlay.intoDelta = .ok delta) :
    Replacement s p q bs delta := by
  obtain ⟨delta', prepared', replaces⟩ :=
    ForkDbOverlay.intoDelta_ok holding.replayed holding.chain nonempty
  rw [prepared', Except.ok.injEq] at prepared
  subst prepared
  refine ⟨coherent.sound, coherent.chain, coherent.represents, holding.chain, ne, replaces, ?_, ?_⟩
  · rw [coherent.unwind_eq]
    exact fun _ _ found => found
  · rw [coherent.unwind_eq]
    exact holding.applies

/-- A delta is prepared from a branch that is not empty. -/
theorem ForkDbOverlay.Built.prepared {delta : ForkDbDelta} (coherent : Coherent U s w)
    (free : HashesIdentify U) (built : overlay.Built U s)
    (prepared : overlay.intoDelta = .ok delta) :
    ∃ p q bs, w = p ++ q ∧ p ≠ [] ∧ bs ≠ [] ∧ overlay.Holding U s p q bs := by
  have guard := prepared
  simp only [ForkDbOverlay.intoDelta, bind_eq_ok, failIf_eq_ok, not_or, not_not] at guard
  obtain ⟨-, ⟨reached, nonempty⟩, -⟩ := guard
  rcases built.shape coherent free with ⟨p, q, r, split, ne, above, rewinding⟩ |
    ⟨p, q, bs, split, ne, holding⟩
  · exfalso
    have chain := coherent.chain
    rw [split] at chain
    obtain ⟨top, last, tip⟩ := Option.map_eq_some_iff.mp rewinding.rewindTip
    obtain ⟨a, last', ancestor⟩ := Option.map_eq_some_iff.mp rewinding.ancestor
    rw [← tip, ← ancestor, Block.point, Block.point, Prod.mk.injEq] at reached
    exact chain.above_ne ne above last last' reached.1
  · refine ⟨p, q, bs, split, ne, ?_, holding⟩
    rintro rfl
    apply nonempty
    apply Table.toPairs_eq_nil.mp
    rw [holding.replayed.blocks]
    rfl

/-- A branch that replaces the top of the chain. -/
theorem Coherent.reorganize {delta : ForkDbDelta} {result : ChainTransitionResult}
    {s' : DB} (coherent : Coherent U s (p ++ q)) (free : HashesIdentify U)
    (holding : overlay.Holding U s p q bs) (ne : p ≠ []) (nonempty : bs ≠ [])
    (prepared : overlay.intoDelta = .ok delta)
    (run : commitTransition s (.reorganize delta) = .ok (result, s'))
    (distinct : (txidsOf (p ++ bs)).Nodup) : Coherent U s' (p ++ bs) := by
  have replacement := holding.replacement coherent ne nonempty prepared
  obtain ⟨sound', tables', room, -, -, -⟩ := reorganize_eq_ok replacement run
  have fits : ∀ b ∈ bs, b.Fits := by
    intro b mem
    have all := reorganize_fits run
    rw [replacement.replaces.blocks] at all
    rw [← Coins.map_fst_records (Coins.unwind p q (tables s).utxo) bs] at mem
    obtain ⟨record, inside, rfl⟩ := List.mem_map.mp mem
    exact all record inside
  have attachable : Attachable (tables s) p bs := by
    refine ⟨holding.chain, room, ?_, fits⟩
    intro b mem saved found
    exact free saved b (coherent.stored _ saved found) (holding.inside b mem)
      ((wellFormed coherent.sound).body found)
  have unwound := coherent.unwind_eq
  obtain ⟨sound, chain, represents, applies, exact, archived, locates, stored, once⟩ := coherent
  refine ⟨sound', holding.chain, ?_, ?_, ?_, ?_, ⟨?_, ?_⟩, ?_, distinct⟩
  · rw [tables']
    exact represents.reorganized chain holding.chain ne room
  · rw [Coins.applies_append]
    exact ⟨(Coins.applies_append.mp applies).1, holding.applies⟩
  · rw [tables', Coins.ledger_append, ← unwound]
    rfl
  · rw [tables']
    exact archived.reorganized represents.holds chain ne attachable
  · rw [tables']
    apply (reorganized_confirmed_iff locates.transaction).mpr
    intro txid detached kept
    rw [txidsOf, List.flatMap_append, List.nodup_append] at once
    exact absurd rfl (once.2.2 txid kept txid detached)
  · intro b mem
    rcases List.mem_append.mp mem with low | high
    · exact locates.fits b (List.mem_append_left _ low)
    · exact fits b high
  · intro hash b found
    rw [tables'] at found
    rcases Tables.reorganized_block found with old | new
    · exact stored hash b old
    · exact holding.inside b new

/-- Every storage that transitions reach is coherent. -/
theorem Reached.coherent (free : HashesIdentify U) (reached : Reached U s) :
    ∃ w, Coherent U s w := by
  induction reached with
  | genesis inside run => exact ⟨_, Coherent.genesis inside run⟩
  | reopen reached run ih =>
    obtain ⟨w, coherent⟩ := ih
    rw [coherent.reopen run]
    exact ⟨w, coherent⟩
  | append reached inside run distinct ih =>
    obtain ⟨w, coherent⟩ := ih
    rw [(coherent.append_blocks free inside run).2.2] at distinct
    exact ⟨_, coherent.append free inside run distinct⟩
  | reorganize reached built prepared run distinct ih =>
    obtain ⟨w, coherent⟩ := ih
    obtain ⟨p, q, bs, rfl, ne, nonempty, holding⟩ := built.prepared coherent free prepared
    have replacement := holding.replacement coherent ne nonempty prepared
    obtain ⟨sound', tables', room, -, -, -⟩ := reorganize_eq_ok replacement run
    have represents' := coherent.represents.reorganized coherent.chain holding.chain ne room
    rw [← tables'] at represents'
    rw [canonicalBlocks_of_represents sound' holding.chain represents'] at distinct
    exact ⟨_, coherent.reorganize free holding ne nonempty prepared run distinct⟩

end Overlay

end StryiChain
