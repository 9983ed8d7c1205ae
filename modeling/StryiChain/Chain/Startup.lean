import StryiChain.Chain.Index
import StryiChain.Storage.Memory

/-!
# Startup on arbitrary tables (`consensus/engine.rs:147-278`)

What the engine accepts when it opens a storage. Nothing is assumed about the answers of the
storage; an index that is returned is the index of a chain of blocks that the tables spell out, from
the saved tip down to a genesis block, with the records that belong to it.
-/

namespace StryiChain

section Startup

variable [Primitives] {S : Type} [StorageRead S]

/-- The loop of `collect_canonical_ancestry` as it stands in the source, with a bound on its
iterations: a cursor, and the blocks pushed so far. -/
def ancestryLoop (view : S) :
    Nat → UInt64 × BlockHash → List Block → Option (Except StryiCoreError (List Block))
  | 0, _, _ => none
  | fuel + 1, (height, hash), blocks =>
      match readCanonical view height hash with
      | .error error => some (.error error)
      | .ok block =>
          let blocks := blocks ++ [block]
          if height = 0 then some (.ok blocks.reverse)
          else ancestryLoop view fuel (height - 1, block.header.previousBlockHash) blocks

/-- Each iteration lowers the height, so that the loop ends. -/
theorem ancestryLoop_eq (view : S) {fuel : Nat} {height : UInt64} (hash : BlockHash)
    (blocks : List Block) (enough : height.toNat < fuel) :
    ancestryLoop view fuel (height, hash) blocks =
      some ((collectFrom view height.toNat hash).map (· ++ blocks.reverse)) := by
  induction fuel generalizing height hash blocks with
  | zero => omega
  | succ fuel ih =>
    rw [ancestryLoop]
    by_cases bottom : height = 0
    · subst bottom
      rw [UInt64.toNat_zero, collectFrom]
      cases readCanonical view 0 hash with
      | error error => rfl
      | ok block => simp [Except.map]
    · have above : 0 < height.toNat := by
        rw [Nat.pos_iff_ne_zero]
        intro zero
        exact bottom (UInt64.toNat_inj.mp zero)
      have below : (height - 1).toNat = height.toNat - 1 :=
        UInt64.toNat_sub_of_le _ _ (by rw [UInt64.le_iff_toNat_le, UInt64.toNat_one]; omega)
      have down : height.toNat = (height - 1).toNat + 1 := by omega
      have same : UInt64.ofNat ((height - 1).toNat + 1) = height := by
        rw [← down, UInt64.ofNat_toNat]
      rw [down, collectFrom, same]
      cases readCanonical view height hash with
      | error error => rfl
      | ok block =>
        dsimp only
        rw [if_neg bottom, ih block.header.previousBlockHash (blocks ++ [block]) (by omega),
          bind_ok]
        cases collectFrom view (height - 1).toNat block.header.previousBlockHash with
        | error error => rfl
        | ok rest => simp [Except.map]

/-- What one iteration of the walk has checked. -/
theorem readCanonical_eq_ok {view : S} {height : UInt64} {hash : BlockHash} {block : Block}
    (read : readCanonical view height hash = .ok block) :
    getBlockByHash view hash = .ok (some block) ∧ block.blockHash = hash ∧
      block.header.height = height ∧ getBlockHashByHeight view height = .ok (some hash) ∧
      verifyGenesisWorkShape block = .ok () ∧
      (0 < height → ∃ undo, getBlockUndo view hash = .ok (some undo)) ∧
      (height = 0 → block.header.isGenesis = true) := by
  simp only [readCanonical, bind_eq_ok, mapError_eq_ok, okOr_eq_ok, failIf_eq_ok, not_or,
    not_not] at read
  obtain ⟨answer, body, found, stored, atHeight, mapped, _, agree, shaped, shape, last⟩ := read
  obtain ⟨own, level, same⟩ := agree
  rw [stored] at body
  rw [same] at mapped
  by_cases above : 0 < height
  · rw [if_pos above, bind_eq_ok] at last
    obtain ⟨undo, record, done⟩ := last
    rw [bind_eq_ok] at done
    obtain ⟨_, present, done⟩ := done
    rw [failIf_eq_ok, Option.isNone_iff_eq_none] at present
    have result : found = block := (pure_eq_ok _ _).mp done
    subst result
    obtain ⟨value, hvalue⟩ := Option.ne_none_iff_exists'.mp present
    rw [hvalue, mapError_eq_ok] at record
    refine ⟨body, own, level, mapped, shape, fun _ => ⟨value, record⟩, fun bottom => ?_⟩
    rw [bottom] at above
    exact absurd above (by decide)
  · rw [if_neg above, bind_eq_ok] at last
    obtain ⟨_, marker, done⟩ := last
    rw [failIf_eq_ok, Bool.not_eq_false] at marker
    have result : found = block := (pure_eq_ok _ _).mp done
    subst result
    exact ⟨body, own, level, mapped, shape, fun pos => absurd pos above, fun _ => marker⟩

/-- The tables spell out a chain: each block is stored under its hash, mapped at its height, linked to
the block below it and, above genesis, has an undo record. -/
structure SpellsOut (view : S) (w : List Block) : Prop where
  genesis : ∃ g, w[0]? = some g ∧ g.header.isGenesis = true
  shape : ∀ b ∈ w, verifyGenesisWorkShape b = .ok ()
  body : ∀ b ∈ w, getBlockByHash view b.blockHash = .ok (some b)
  mapped : ∀ b ∈ w, getBlockHashByHeight view b.header.height = .ok (some b.blockHash)
  height : ∀ {i : Nat} {b : Block}, w[i]? = some b → b.header.height.toNat = i
  linked : ∀ {i : Nat} {a b : Block}, w[i]? = some a → w[i + 1]? = some b →
    b.header.previousBlockHash = a.blockHash
  undo : ∀ {i : Nat} {b : Block}, w[i]? = some b → 0 < i →
    ∃ undo, getBlockUndo view b.blockHash = .ok (some undo)

namespace SpellsOut

variable {view : S} {w : List Block} {a b : Block}

/-- A single block at height zero. -/
theorem singleton (read : readCanonical view 0 b.blockHash = .ok b) : SpellsOut view [b] := by
  obtain ⟨body, -, level, mapped, shape, -, marker⟩ := readCanonical_eq_ok read
  rw [← level] at mapped
  refine ⟨⟨b, rfl, marker rfl⟩, List.forall_mem_singleton.mpr shape,
    List.forall_mem_singleton.mpr body, List.forall_mem_singleton.mpr mapped, ?_, ?_, ?_⟩
  · intro i a at_i
    obtain ⟨rfl, rfl⟩ : i = 0 ∧ b = a := by
      cases i <;> simp_all
    rw [level, UInt64.toNat_zero]
  · intro i a c _ at_next
    simp at at_next
  · intro i a at_i pos
    obtain ⟨j, rfl⟩ := Nat.exists_eq_succ_of_ne_zero (Nat.pos_iff_ne_zero.mp pos)
    simp at at_i

/-- The walk read one more block above. -/
theorem concat (spells : SpellsOut view w) {height : UInt64}
    (read : readCanonical view height b.blockHash = .ok b) (level : height.toNat = w.length)
    (top : w.getLast?.map Block.blockHash = some b.header.previousBlockHash) :
    SpellsOut view (w ++ [b]) := by
  obtain ⟨body, -, own, mapped, shape, undo, -⟩ := readCanonical_eq_ok read
  rw [← own] at mapped
  obtain ⟨g, first, marker⟩ := spells.genesis
  have inhabited := (List.getElem?_eq_some_iff.mp first).1
  refine ⟨⟨g, ?_, marker⟩,
    List.forall_mem_append.mpr ⟨spells.shape, List.forall_mem_singleton.mpr shape⟩,
    List.forall_mem_append.mpr ⟨spells.body, List.forall_mem_singleton.mpr body⟩,
    List.forall_mem_append.mpr ⟨spells.mapped, List.forall_mem_singleton.mpr mapped⟩, ?_, ?_, ?_⟩
  · rw [List.getElem?_append_left inhabited, first]
  · intro i a at_i
    rcases getElem?_concat_cases at_i with ⟨-, old⟩ | ⟨rfl, rfl⟩
    · exact spells.height old
    · rw [own, level]
  · intro i a c at_i at_next
    rcases getElem?_concat_cases at_next with ⟨inside, old⟩ | ⟨here, rfl⟩
    · rw [List.getElem?_append_left (by omega)] at at_i
      exact spells.linked at_i old
    · rw [List.getElem?_append_left (by omega)] at at_i
      rw [List.getLast?_eq_getElem?, ← here, Nat.add_sub_cancel, at_i] at top
      exact (Option.some.inj top).symm
  · intro i a at_i pos
    rcases getElem?_concat_cases at_i with ⟨-, old⟩ | ⟨here, rfl⟩
    · exact spells.undo old pos
    · refine undo ?_
      rw [UInt64.lt_iff_toNat_lt, level, ← here]
      exact pos

/-- One hash names one stored block, and one block stands at one height. -/
theorem distinct (spells : SpellsOut view w) : (w.map Block.blockHash).Nodup := by
  rw [List.nodup_iff_getElem?_ne_getElem?]
  intro i j lt bound same
  rw [List.length_map] at bound
  have at_i : w[i]? = some w[i] := List.getElem?_eq_getElem (by omega)
  have at_j : w[j]? = some w[j] := List.getElem?_eq_getElem bound
  rw [List.getElem?_map, List.getElem?_map, at_i, at_j, Option.map_some, Option.map_some,
    Option.some.injEq] at same
  have one := spells.body _ (List.mem_of_getElem? at_i)
  have other := spells.body _ (List.mem_of_getElem? at_j)
  rw [same, other] at one
  have equal : w[j] = w[i] := Option.some.inj (Except.ok.inj one)
  have level := spells.height at_i
  have level' := spells.height at_j
  rw [equal] at level'
  omega

/-- The blocks above genesis carry work. -/
theorem work_pos (spells : SpellsOut view w) {i : Nat} (at_i : w[i]? = some b) (pos : 0 < i) :
    0 < b.work := by
  have level := spells.height at_i
  have shape := spells.shape b (List.mem_of_getElem? at_i)
  refine Block.work_pos ?_
  by_contra marked
  rw [Bool.not_eq_false] at marked
  rw [verifyGenesisWorkShape, verifyGenesisHeaderWorkShape, failIf_eq_ok] at shape
  refine shape ⟨marked, .inl fun zero => ?_⟩
  rw [zero, UInt64.toNat_zero] at level
  omega

end SpellsOut

/-- The walk returns a chain that the tables spell out, with the block it started from on top. -/
theorem collectFrom_sound {view : S} {height : Nat} {hash : BlockHash} {w : List Block}
    (fits : height < 2 ^ 64) (run : collectFrom view height hash = .ok w) :
    SpellsOut view w ∧ w.length = height + 1 ∧ w.getLast?.map Block.blockHash = some hash := by
  induction height generalizing hash w with
  | zero =>
    rw [collectFrom, bind_eq_ok] at run
    obtain ⟨block, read, done⟩ := run
    have own := (readCanonical_eq_ok read).2.1
    rw [← own] at read
    have result : [block] = w := (pure_eq_ok _ _).mp done
    subst result
    exact ⟨.singleton read, rfl, by rw [List.getLast?_singleton, Option.map_some, own]⟩
  | succ height ih =>
    rw [collectFrom, bind_eq_ok] at run
    obtain ⟨block, read, rest⟩ := run
    rw [bind_eq_ok] at rest
    obtain ⟨below, lower, done⟩ := rest
    have result : below ++ [block] = w := (pure_eq_ok _ _).mp done
    subst result
    obtain ⟨spells, length, top⟩ := ih (by omega) lower
    have own := (readCanonical_eq_ok read).2.1
    rw [← own] at read
    refine ⟨spells.concat read ?_ top, ?_, ?_⟩
    · rw [toNat_ofNat_u64 (by omega), length]
    · rw [List.length_append, length, List.length_singleton]
    · rw [List.getLast?_concat, Option.map_some, own]

/-- What one block of the second pass has checked. -/
theorem indexBlock_eq_ok {view : S} {index index' : ChainIndex} {work total : Nat} {block : Block}
    (run : indexBlock view (index, work) block = .ok (index', total)) :
    total = work + block.work ∧ index' = index.insert block total ∧
      getBlockIndex view block.blockHash = .ok (some (BlockIndexData.of block total)) := by
  simp only [indexBlock, bind_eq_ok, verifiedBlockWork_eq_ok, addWork_eq_ok, mapError_eq_ok,
    okOr_eq_ok, failIf_eq_ok, pure_eq_ok, not_or, not_not, Prod.mk.injEq] at run
  obtain ⟨own, ⟨-, rfl⟩, sum, ⟨-, rfl⟩, answer, stored, saved, rfl, _, agree, rfl, rfl⟩ := run
  obtain ⟨height, parent, work⟩ := agree
  refine ⟨rfl, rfl, ?_⟩
  rw [stored, BlockIndexData.of, ← height, ← parent, ← work]

/-- The second pass indexes the rest of a chain and finds each block in the saved index. -/
theorem indexBlocks_sound {view : S} {p rest : List Block} {index index' : ChainIndex}
    {total : Nat} (distinct : ((p ++ rest).map Block.blockHash).Nodup)
    (grows : ∀ {i : Nat} {b : Block}, (p ++ rest)[i]? = some b → 0 < i → 0 < b.work)
    (indexOf : IndexOf p index)
    (run : rest.foldlM (indexBlock view) (index, chainWork p) = .ok (index', total)) :
    total = chainWork (p ++ rest) ∧ IndexOf (p ++ rest) index' ∧
      ∀ {i : Nat} {b : Block}, p.length ≤ i → (p ++ rest)[i]? = some b →
        getBlockIndex view b.blockHash =
          .ok (some (BlockIndexData.of b (chainWork ((p ++ rest).take (i + 1))))) := by
  induction rest generalizing p index with
  | nil =>
    rw [List.foldlM_nil, pure_eq_ok, Prod.mk.injEq] at run
    obtain ⟨rfl, rfl⟩ := run
    rw [List.append_nil]
    refine ⟨rfl, indexOf, fun {i b} outside at_i => ?_⟩
    have inside := (List.getElem?_eq_some_iff.mp at_i).1
    omega
  | cons b rest ih =>
    rw [List.foldlM_cons, bind_eq_ok] at run
    obtain ⟨⟨middle, work⟩, one, later⟩ := run
    obtain ⟨sum, inserted, saved⟩ := indexBlock_eq_ok one
    have upTo : work = chainWork (p ++ [b]) := by
      rw [sum, chainWork_append, chainWork_cons, chainWork_nil, Nat.add_zero]
    rw [upTo] at inserted saved later
    have fresh : ∀ a ∈ p, a.blockHash ≠ b.blockHash := by
      intro a mem
      rw [List.map_append, List.nodup_append] at distinct
      exact distinct.2.2 a.blockHash (List.mem_map_of_mem mem) b.blockHash (by simp)
    have indexOf' : IndexOf (p ++ [b]) middle := by
      rw [inserted]
      refine indexOf.insert_fresh fresh fun ne => ?_
      exact grows (i := p.length) (by simp) (List.length_pos_iff.mpr ne)
    rw [List.append_cons] at distinct grows ⊢
    obtain ⟨whole, indexOf'', rests⟩ := ih distinct grows indexOf' later
    refine ⟨whole, indexOf'', fun {i a} outside at_i => ?_⟩
    rcases Nat.lt_or_ge p.length i with above | here
    · exact rests (by rw [List.length_append, List.length_singleton]; omega) at_i
    · obtain rfl : i = p.length := by omega
      rw [List.getElem?_append_left (by simp), List.getElem?_concat_length,
        Option.some.injEq] at at_i
      rw [← at_i, saved, List.take_append_of_le_length (by simp), List.take_of_length_le (by simp)]

/-- Startup on any tables: the walk ends after at most one iteration for each height, and an index
that is returned is the index of a chain that the tables spell out, whose saved works are the
sums along it and whose tip, length and work are those of the saved state. -/
theorem startup_sound (view : S) :
    (∀ (tip : UInt64 × BlockHash) (fuel : Nat), tip.1.toNat < fuel →
      ancestryLoop view fuel tip [] = some (collectCanonicalAncestry view tip)) ∧
    ∀ index, buildChainIndex view = .ok index → ∃ (w : List Block) (state : ChainState),
      SpellsOut view w ∧
      (∀ (i : Nat) (b : Block), w[i]? = some b → getBlockIndex view b.blockHash =
        .ok (some (BlockIndexData.of b (chainWork (w.take (i + 1)))))) ∧
      chainState view = .ok (some state) ∧
      w.getLast?.map Block.point = some state.latestBlock ∧
      w.length = state.latestBlock.1.toNat + 1 ∧ state.blocksCount.toNat = w.length ∧
      state.chainWork = chainWork w ∧ IndexOf w index := by
  constructor
  case left =>
    intro tip fuel enough
    rw [ancestryLoop_eq view tip.2 [] enough, collectCanonicalAncestry]
    cases collectFrom view tip.1.toNat tip.2 with
    | error error => rfl
    | ok w => simp [Except.map]
  case right =>
    intro index built
    simp only [buildChainIndex, collectCanonicalAncestry, bind_eq_ok, mapError_eq_ok,
      okOr_eq_ok] at built
    obtain ⟨answer, stored, state, found, w, walk, rebuilt⟩ := built
    rw [found] at stored
    simp only [rebuildChainIndex, bind_eq_ok, failIf_eq_ok, pure_eq_ok, not_or, not_not,
      Prod.exists] at rebuilt
    obtain ⟨index', total, pass, _, ⟨work, count⟩, rfl⟩ := rebuilt
    obtain ⟨spells, length, top⟩ := collectFrom_sound state.latestBlock.1.toNat_lt walk
    obtain ⟨sum, indexOf, saved⟩ :=
      indexBlocks_sound (p := []) spells.distinct spells.work_pos IndexOf.new pass
    have tip : w.getLast?.map Block.point = some state.latestBlock := by
      obtain ⟨last, found, own⟩ := Option.map_eq_some_iff.mp top
      have level := spells.height (List.getLast?_eq_getElem? ▸ found)
      rw [length, Nat.add_sub_cancel] at level
      rw [found, Option.map_some, Block.point, UInt64.toNat_inj.mp level, own]
    refine ⟨w, state, spells, fun i b at_i => saved (Nat.zero_le _) at_i, stored, tip, length, ?_,
      work.symm.trans sum, indexOf⟩
    rw [checkedAdd_eq_some.mp count, UInt64.toNat_one, length]

end Startup

namespace Sample

/-- Tables with a genesis block and one block above it. -/
def twoBlocks : MemoryView :=
  let next := above genesis 1 []
  { MemoryView.default with
    blocks := AList.insert next.blockHash next (AList.insert genesis.blockHash genesis ∅)
    heights := AList.insert 1 next.blockHash (AList.insert 0 genesis.blockHash ∅)
    indexes := AList.insert next.blockHash (BlockIndexData.of next next.work)
      (AList.insert genesis.blockHash (BlockIndexData.of genesis 0) ∅)
    undos := AList.insert next.blockHash ⟨[], []⟩ ∅
    state := some ⟨next.point, 0, 2, next.work⟩ }

end Sample

open Sample in
/-- The index of two blocks, whose undo record says nothing about the coins. -/
theorem startup_sound_sample : ∃ index w, buildChainIndex twoBlocks = .ok index ∧
    SpellsOut twoBlocks w ∧ w.length = 2 ∧ IndexOf w index ∧
    ancestryLoop twoBlocks 2 (above genesis 1 []).point [] =
      some (collectCanonicalAncestry twoBlocks (above genesis 1 []).point) := by
  have opens : (buildChainIndex twoBlocks).toOption.any (fun index => index.tip.isSome) = true := by
    decide +kernel
  obtain ⟨index, built, -⟩ := exists_ok_of_any opens
  obtain ⟨w, state, spells, -, stored, -, length, -, -, indexOf⟩ :=
    (startup_sound twoBlocks).2 index built
  refine ⟨index, w, built, spells, ?_, indexOf, (startup_sound twoBlocks).1 _ _ (by decide)⟩
  have same : some state = twoBlocks.state := (Except.ok.inj stored).symm
  cases same
  exact length

end StryiChain
