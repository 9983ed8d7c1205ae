import StryiChain.Chain.Storage
import StryiChain.Consensus.Overlay

/-!
# Fork overlays over a chain

The overlay holds a UTXO map of its own over that of its base. Rewinding moves it down the
canonical chain, replaying moves it up a branch, and the delta it hands over is the difference
between the two maps.
-/

namespace StryiChain

variable [Primitives] {S : Type} [FullNodeStorage S] [LawfulStorage S]

namespace ForkDbOverlay

/-- The UTXO map of an overlay. -/
def coins (overlay : ForkDbOverlay S) : Coins := fun o =>
  (overlay.utxos.read o).or
    (eraseAll overlay.removedUtxos (LawfulStorage.tables overlay.base).utxo o)

/-- The invariant of an overlay. -/
structure Sound (overlay : ForkDbOverlay S) : Prop where
  base : LawfulStorage.Sound overlay.base
  keyed : TableKeyed overlay.utxos
  removed : overlay.removedUtxos.Nodup

/-- What UTXO writes leave alone. -/
def rest (overlay : ForkDbOverlay S) : ForkDbOverlay S :=
  { overlay with utxos := ∅, removedUtxos := [] }

variable {overlay : ForkDbOverlay S}

theorem getUtxo_ok (sound : overlay.Sound) (o : OutPoint) :
    overlay.getUtxo o = .ok (overlay.coins o) :=
  getUtxo_over (fun o => LawfulStorage.getUtxo_eq o sound.base) o

theorem coins_wellKeyed (sound : overlay.Sound) : overlay.coins.WellKeyed := by
  intro o u present
  unfold coins at present
  cases own : overlay.utxos.read o with
  | some utxo =>
    rw [own, Option.some_or, Option.some.injEq] at present
    subst present
    exact sound.keyed o utxo own
  | none =>
    rw [own, Option.none_or] at present
    by_cases gone : o ∈ overlay.removedUtxos
    · simp [eraseAll_of_mem gone] at present
    · rw [eraseAll_of_notMem gone] at present
      exact (LawfulStorage.wellFormed sound.base).keyed o u present

theorem dropUtxo_coins (overlay : ForkDbOverlay S) (outpoint : OutPoint) :
    (overlay.dropUtxo outpoint).coins = Function.update overlay.coins outpoint none := by
  funext o
  unfold coins dropUtxo
  rw [Table.read_erase]
  by_cases same : o = outpoint
  · subst same
    simp [eraseAll]
  · simp [same, eraseAll, List.mem_insert_iff]

theorem dropUtxo_sound (sound : overlay.Sound) (outpoint : OutPoint) :
    (overlay.dropUtxo outpoint).Sound := by
  refine ⟨sound.base, fun o u present => ?_, sound.removed.insert⟩
  change (Table.read (AList.erase outpoint overlay.utxos)) o = some u at present
  rw [Table.read_erase] at present
  by_cases same : o = outpoint
  · subst same
    simp at present
  · rw [Function.update_of_ne same] at present
    exact sound.keyed o u present

/-- The removal loop, once all outpoints have been checked. -/
theorem dropAll_spec (sound : overlay.Sound) (outpoints : List OutPoint) :
    (outpoints.foldl dropUtxo overlay).Sound ∧
      (outpoints.foldl dropUtxo overlay).coins = eraseAll outpoints overlay.coins ∧
      (outpoints.foldl dropUtxo overlay).rest = overlay.rest := by
  induction outpoints generalizing overlay with
  | nil => exact ⟨sound, by simp, rfl⟩
  | cons o os ih =>
    obtain ⟨soundLast, coinsLast, restLast⟩ := ih (dropUtxo_sound sound o)
    refine ⟨soundLast, ?_, restLast⟩
    rw [List.foldl_cons, coinsLast, dropUtxo_coins, eraseAll_cons]

theorem batchRemoveUtxos_ok (sound : overlay.Sound) {outpoints : List OutPoint}
    (present : ∀ o ∈ outpoints, overlay.coins o ≠ none) :
    overlay.batchRemoveUtxos outpoints = .ok (outpoints.foldl dropUtxo overlay) := by
  have checked : outpoints.forM (fun outpoint => do
      failIf ((← overlay.getUtxo outpoint) = none) (StorageError.utxoNotFound outpoint)) =
      .ok () := by
    rw [forM_eq_ok]
    intro o ho
    rw [getUtxo_ok sound, bind_ok, failIf_of_not _ (present o ho)]
  rw [batchRemoveUtxos, checked]
  rfl

theorem batchRemoveUtxos_absent (sound : overlay.Sound) {outpoints : List OutPoint} {o : OutPoint}
    (mem : o ∈ outpoints) (absent : overlay.coins o = none) :
    ∃ error, overlay.batchRemoveUtxos outpoints = .error error := by
  unfold batchRemoveUtxos
  cases checked : outpoints.forM (fun outpoint => do
      failIf ((← overlay.getUtxo outpoint) = none) (StorageError.utxoNotFound outpoint)) with
  | error error => exact ⟨error, rfl⟩
  | ok _ =>
    have passed := forM_eq_ok.mp checked o mem
    rw [getUtxo_ok sound, bind_ok, failIf_eq_ok] at passed
    exact absurd absent passed

instance : LawfulUtxoWrite (ForkDbOverlay S) where
  Sound := Sound
  coins := coins
  Rest := ForkDbOverlay S
  rest := rest
  wellKeyed sound := coins_wellKeyed sound
  getUtxo_eq o sound := getUtxo_ok sound o
  batchPutUtxos_ok {overlay entries} sound keyed := by
    refine ⟨_, rfl, ⟨sound.base, fun o u present => ?_, sound.removed⟩, ?_, rfl⟩
    · change (overlay.utxos.insertAll entries).read o = some u at present
      rw [Table.read_insertAll] at present
      rcases putAll_eq_some present with mem | ⟨-, old⟩
      · exact keyed _ mem
      · exact sound.keyed o u old
    · funext o
      unfold coins
      rw [Table.read_insertAll]
      exact putAll_or entries _ _ o
  batchRemoveUtxos_ok {overlay outpoints} sound _ present :=
    ⟨_, batchRemoveUtxos_ok sound present, dropAll_spec sound outpoints⟩
  batchRemoveUtxos_error sound mem absent := batchRemoveUtxos_absent sound mem absent

omit [Primitives] [FullNodeStorage S] [LawfulStorage S] in
/-- Fields that UTXO writes do not change. -/
theorem rest_eq {overlay overlay' : ForkDbOverlay S} (same : overlay'.rest = overlay.rest) :
    overlay'.base = overlay.base ∧ overlay'.commonAncestor = overlay.commonAncestor ∧
      overlay'.expectedHead = overlay.expectedHead ∧ overlay'.rewindTip = overlay.rewindTip ∧
      overlay'.branchTip = overlay.branchTip ∧ overlay'.blocks = overlay.blocks ∧
      overlay'.heights = overlay.heights ∧ overlay'.detached = overlay.detached := by
  simp only [rest, ForkDbOverlay.mk.injEq] at same
  obtain ⟨h1, h2, h3, h4, h5, -, -, h6, h7, h8⟩ := same
  exact ⟨h1, h2, h3, h4, h5, h6, h7, h8⟩

/-- The overlay at the fork point `p`, rewound from the tip of `p ++ q ++ r` down to the top of
`p ++ q`. -/
structure Rewinding (overlay : ForkDbOverlay S) (base : S) (p q r : List Block) : Prop where
  base_eq : overlay.base = base
  ancestor : p.getLast?.map Block.point = some overlay.commonAncestor
  head : (p ++ q ++ r).getLast?.map Block.point = some overlay.expectedHead
  rewindTip : (p ++ q).getLast?.map Block.point = some overlay.rewindTip
  branchTip : overlay.branchTip = overlay.commonAncestor
  blocks : overlay.blocks = ∅
  heights : overlay.heights = ∅
  detached : overlay.detached = (r.map Block.point).reverse
  sound : overlay.Sound
  coins_eq : overlay.coins = Coins.unwind (p ++ q) r (LawfulStorage.tables base).utxo

section Rewind

open LawfulStorage

variable {s : S} {p q r : List Block} {a b : Block}

theorem tip_ok (sound : LawfulStorage.Sound s) {w : List Block} {last : Block}
    (represents : Represents (tables s) w) (top : w.getLast? = some last) :
    tip s = .ok last.point := by
  simp [tip, chainState_eq sound, represents.state, stateOf, top, Block.point]

/-- An overlay can be opened at every block of the canonical chain. -/
theorem new_ok (sound : LawfulStorage.Sound s) (chain : IsChain (p ++ q))
    (represents : Represents (tables s) (p ++ q)) (last : p.getLast? = some a) :
    ∃ overlay, new s a.blockHash = .ok overlay ∧ overlay.Rewinding s p q [] := by
  have ne : p ≠ [] := by
    rintro rfl
    simp at last
  have pos := List.length_pos_iff.mpr ne
  have at_a : (p ++ q)[p.length - 1]? = some a := getElem?_append_last last
  obtain ⟨top, htop⟩ : ∃ top, (p ++ q).getLast? = some top := by
    rw [← Option.isSome_iff_exists, List.getLast?_isSome]
    exact chain.ne_nil
  have body := represents.holds.body a (List.mem_of_getElem? at_a)
  have canonical := represents.holds.get_height chain at_a
  have reachable : ¬ top.header.height < a.header.height := by
    have height := chain.height at_a
    have topHeight := chain.tip_height htop
    rw [UInt64.lt_iff_toNat_lt, height]
    simp only [List.length_append] at topHeight
    omega
  refine ⟨_, by
    simp only [new, getBlockByHash_eq _ sound, body, okOr_some, bind_ok,
      tip_ok sound represents htop, ne_eq, not_true_eq_false, failIf_of_not _ not_false,
      Block.point, failIf_of_not _ reachable, getBlockHashByHeight_eq _ sound, canonical]
    rfl, ?_⟩
  refine ⟨rfl, by rw [last]; rfl, by rw [List.append_nil, htop]; rfl, by rw [htop]; rfl, rfl, rfl,
    rfl, rfl, ⟨sound, fun o u h => by simp at h, List.nodup_nil⟩, ?_⟩
  funext o
  simp [coins, Coins.unwind]

/-- What the next block to rewind is, and what its records say. -/
theorem Rewinding.records {overlay : ForkDbOverlay S}
    (rewinding : overlay.Rewinding s p (q ++ [b]) r) (chain : IsChain (p ++ (q ++ [b]) ++ r))
    (represents : Represents (tables s) (p ++ (q ++ [b]) ++ r)) (ne : p ≠ []) :
    overlay.rewindTip = b.point ∧ (tables s).block b.blockHash = some b ∧
      (tables s).height b.header.height = some b.blockHash ∧
      (tables s).undo b.blockHash = some (Coins.undo b (Coins.ledger (p ++ q))) ∧
      overlay.commonAncestor.1.toNat + 1 = p.length ∧
      b.header.height.toNat = (p ++ q).length := by
  have regroup : p ++ (q ++ [b]) ++ r = (p ++ q) ++ b :: r := by simp
  rw [regroup] at chain represents
  have at_b : ((p ++ q) ++ b :: r)[(p ++ q).length]? = some b := by simp
  have pos : 0 < (p ++ q).length := by
    rw [List.length_append]
    have := List.length_pos_iff.mpr ne
    omega
  have tip := rewinding.rewindTip
  rw [← List.append_assoc, List.getLast?_append, List.getLast?_singleton] at tip
  have undo := represents.holds.undo at_b pos
  rw [List.take_left] at undo
  refine ⟨?_, represents.holds.body b (List.mem_of_getElem? at_b),
    represents.holds.get_height chain at_b, undo, ?_, chain.height_eq_length⟩
  · simpa using tip.symm
  · have ancestor := rewinding.ancestor
    obtain ⟨a, last⟩ : ∃ a, p.getLast? = some a := by
      rw [← Option.isSome_iff_exists, List.getLast?_isSome]
      exact ne
    rw [last, Option.map_some, Option.some.injEq] at ancestor
    rw [← ancestor]
    rw [List.append_assoc] at chain
    exact (chain.left ne).tip_height last

/-- The rewound overlay, given the view after the undo record has been played back. -/
theorem Rewinding.next {overlay view : ForkDbOverlay S}
    (rewinding : overlay.Rewinding s p (q ++ [b]) r) (chain : IsChain (p ++ (q ++ [b]) ++ r))
    (ne : p ≠ [])
    (updates : LawfulUtxoWrite.Updates overlay view
      (Coins.rewind (Coins.undo b (Coins.ledger (p ++ q))) overlay.coins)) :
    Rewinding { view with
      detached := view.detached ++ [b.point]
      rewindTip := (b.header.height - 1, b.header.previousBlockHash) } s p q (b :: r) := by
  obtain ⟨sound, map, frame⟩ := updates
  obtain ⟨base, ancestor, head, -, branch, blocks, heights, detached⟩ := rest_eq frame
  have regroup : p ++ (q ++ [b]) ++ r = (p ++ q) ++ b :: r := by simp
  rw [regroup] at chain
  have neBelow : p ++ q ≠ [] := by simp [ne]
  obtain ⟨top, last, linked, height⟩ := chain.below neBelow
  refine ⟨base.trans rewinding.base_eq, ancestor ▸ rewinding.ancestor, ?_, ?_,
    (branch.trans rewinding.branchTip).trans ancestor.symm, blocks.trans rewinding.blocks,
    heights.trans rewinding.heights, ?_, ⟨sound.base, sound.keyed, sound.removed⟩, ?_⟩
  · have := rewinding.head
    rw [regroup] at this
    change _ = some view.expectedHead
    rw [head, ← this]
  · rw [last, Option.map_some, Block.point, linked]
    have pred : b.header.height - 1 = top.header.height := by
      rw [← UInt64.toNat_inj, UInt64.toNat_sub_of_le _ _ (by rw [UInt64.le_iff_toNat_le]; simp; omega)]
      simp
      omega
    rw [pred]
  · change view.detached ++ [b.point] = _
    rw [detached, rewinding.detached]
    simp
  · change view.coins = _
    have map' : view.coins = Coins.rewind (Coins.undo b (Coins.ledger (p ++ q))) overlay.coins :=
      map
    rw [map', rewinding.coins_eq, Coins.unwind, List.append_assoc]

theorem Rewinding.undoOk (applies : Coins.Applies (fun _ => none) (p ++ (q ++ [b]) ++ r)) :
    Coins.UndoOk (Coins.undo b (Coins.ledger (p ++ q))) := by
  have regroup : p ++ (q ++ [b]) ++ r = (p ++ q) ++ b :: r := by simp
  rw [regroup, Coins.applies_append] at applies
  exact Coins.undoOk (Coins.ledger_wellKeyed _) applies.2.1

/-- A rewound block, read off the overlay. -/
theorem rewindBlock_eq_ok {overlay overlay' : ForkDbOverlay S}
    (sound : LawfulStorage.Sound s)
    (rewinding : overlay.Rewinding s p (q ++ [b]) r) (chain : IsChain (p ++ (q ++ [b]) ++ r))
    (represents : Represents (tables s) (p ++ (q ++ [b]) ++ r)) (ne : p ≠ [])
    (applies : Coins.Applies (fun _ => none) (p ++ (q ++ [b]) ++ r))
    (run : overlay.rewindBlock = .ok overlay') :
    (∀ o ∈ b.created.keys, overlay.coins o ≠ none) ∧ overlay'.Rewinding s p q (b :: r) := by
  obtain ⟨tip, body, canonical, undo, -, -⟩ := rewinding.records chain represents ne
  simp only [rewindBlock, tip, Block.point, rewinding.base_eq, getBlockByHash_eq _ sound, body,
    getBlockHashByHeight_eq _ sound, canonical, getBlockUndo_eq _ sound, undo, bind_ok, okOr_some,
    ne_eq, not_true_eq_false, or_self, failIf_of_not _ not_false, bind_eq_ok, mapError_eq_ok,
    pure_eq_ok] at run
  obtain ⟨-, -, view, played, rfl⟩ := run
  have undoOk := Rewinding.undoOk applies
  obtain ⟨present, updates⟩ := StryiChain.rewindBlock_eq_ok rewinding.sound undoOk played
  exact ⟨present, rewinding.next chain ne updates⟩

/-- A block whose outputs are all there can be rewound. -/
theorem rewindBlock_ok {overlay : ForkDbOverlay S} (sound : LawfulStorage.Sound s)
    (rewinding : overlay.Rewinding s p (q ++ [b]) r) (chain : IsChain (p ++ (q ++ [b]) ++ r))
    (represents : Represents (tables s) (p ++ (q ++ [b]) ++ r)) (ne : p ≠ [])
    (applies : Coins.Applies (fun _ => none) (p ++ (q ++ [b]) ++ r))
    (present : ∀ o ∈ b.created.keys, overlay.coins o ≠ none) :
    ∃ overlay', overlay.rewindBlock = .ok overlay' := by
  obtain ⟨tip, body, canonical, undo, bottom, height⟩ := rewinding.records chain represents ne
  have undoOk := Rewinding.undoOk applies
  have sound' : LawfulUtxoWrite.Sound overlay := rewinding.sound
  have present' : ∀ o ∈ (Coins.undo b (Coins.ledger (p ++ q))).createdOutpoints,
      LawfulUtxoWrite.coins overlay o ≠ none := present
  obtain ⟨view, played, -⟩ := StryiChain.rewindBlock_ok sound' undoOk present'
  have above : ¬ (¬ overlay.blocks = ∅ ∨ b.header.height ≤ overlay.commonAncestor.1) := by
    rw [rewinding.blocks, UInt64.le_iff_toNat_le, height, List.length_append]
    simp only [not_true_eq_false, false_or]
    omega
  refine ⟨_, by
    simp only [rewindBlock, tip, Block.point, rewinding.base_eq,
      getBlockByHash_eq _ sound, body, getBlockHashByHeight_eq _ sound, canonical,
      getBlockUndo_eq _ sound, undo, bind_ok, okOr_some, ne_eq, not_true_eq_false, or_self,
      failIf_of_not _ not_false, failIf_of_not _ above, played, mapError_ok]
    rfl⟩

end Rewind

/-- The overlay rewound from the tip of `p ++ q` to the fork point `p`, with the branch `bs`
replayed above it. -/
structure Replayed (overlay : ForkDbOverlay S) (base : S) (p q bs : List Block) : Prop where
  base_eq : overlay.base = base
  ancestor : p.getLast?.map Block.point = some overlay.commonAncestor
  head : (p ++ q).getLast?.map Block.point = some overlay.expectedHead
  rewindTip : overlay.rewindTip = overlay.commonAncestor
  branchTip : (p ++ bs).getLast?.map Block.point = some overlay.branchTip
  blocks : overlay.blocks.toPairs =
    ((Coins.records (Coins.unwind p q (LawfulStorage.tables base).utxo) bs).map fun record =>
      (record.1.blockHash, record)).reverse
  heights : ∀ h : UInt64, overlay.heights.read h =
    if h.toNat < p.length then none else ((p ++ bs)[h.toNat]?).map Block.blockHash
  detached : overlay.detached = (q.map Block.point).reverse
  sound : overlay.Sound
  coins_eq : overlay.coins =
    Coins.applyAll bs (Coins.unwind p q (LawfulStorage.tables base).utxo)

section Replay

open LawfulStorage

variable {s : S} {p q bs : List Block} {b : Block} {overlay overlay' : ForkDbOverlay S}

/-- A completely rewound overlay has replayed nothing yet. -/
theorem Rewinding.replayed (rewinding : overlay.Rewinding s p [] q) : overlay.Replayed s p q [] := by
  have here : overlay.rewindTip = overlay.commonAncestor := by
    have tip := rewinding.rewindTip
    rw [List.append_nil, rewinding.ancestor] at tip
    exact (Option.some.inj tip).symm
  refine ⟨rewinding.base_eq, rewinding.ancestor, by simpa using rewinding.head, here, ?_, ?_, ?_,
    rewinding.detached, rewinding.sound, by simpa using rewinding.coins_eq⟩
  · rw [List.append_nil, rewinding.branchTip, rewinding.ancestor]
  · rw [rewinding.blocks]
    rfl
  · intro h
    rw [rewinding.heights, Table.read_empty, List.append_nil]
    split
    · rfl
    · rw [List.getElem?_eq_none (by omega)]
      rfl

/-- The keys of the replayed blocks. -/
theorem Replayed.keys (replayed : overlay.Replayed s p q bs) :
    overlay.blocks.keys = (bs.map Block.blockHash).reverse := by
  rw [← Table.toPairs_keys, replayed.blocks, List.map_reverse, List.map_map]
  conv_rhs =>
    rw [← Coins.map_fst_records (Coins.unwind p q (tables s).utxo) bs, List.map_map]
  rfl

/-- The overlay after one more block of the branch. -/
theorem Replayed.next {view : ForkDbOverlay S} (replayed : overlay.Replayed s p q bs)
    (links : Links (p ++ bs) b) (new : b.blockHash ∉ (p ++ bs).map Block.blockHash)
    (updates : LawfulUtxoWrite.Updates overlay view (Coins.apply b overlay.coins)) :
    Replayed { view with
      blocks := AList.insert b.blockHash (b, Coins.undo b overlay.coins) view.blocks
      heights := AList.insert b.header.height b.blockHash view.heights
      branchTip := (b.header.height, b.blockHash) } s p q (bs ++ [b]) := by
  obtain ⟨sound, map, frame⟩ := updates
  obtain ⟨base, ancestor, head, rewound, -, blocks, heights, detached⟩ := rest_eq frame
  refine ⟨base.trans replayed.base_eq, ancestor ▸ replayed.ancestor, head ▸ replayed.head,
    (rewound.trans replayed.rewindTip).trans ancestor.symm, by simp [Block.point], ?_, fun h => ?_,
    detached.trans replayed.detached, ⟨sound.base, sound.keyed, sound.removed⟩, ?_⟩
  · have absent : b.blockHash ∉ view.blocks := by
      rw [blocks, AList.mem_keys, replayed.keys, List.mem_reverse]
      rw [List.map_append, List.mem_append, not_or] at new
      exact new.2
    change Table.toPairs (AList.insert _ _ view.blocks) = _
    rw [Table.toPairs, AList.entries_insert_of_notMem absent, List.map_cons, blocks]
    change (b.blockHash, b, Coins.undo b overlay.coins) :: overlay.blocks.toPairs = _
    rw [replayed.blocks, Coins.records_concat, List.map_append, List.reverse_append,
      replayed.coins_eq]
    rfl
  · change Table.read (AList.insert _ _ view.heights) h = _
    rw [Table.read_insert, heights]
    have height := links.height
    rw [List.length_append] at height
    by_cases same : h = b.header.height
    · subst same
      rw [Function.update_self, if_neg (by omega), ← List.append_assoc, links.height]
      simp
    · have differs : h.toNat ≠ (p ++ bs).length := fun eq =>
        same (UInt64.toNat_inj.mp (eq.trans links.height.symm))
      rw [Function.update_of_ne same, replayed.heights]
      split
      · rfl
      · rw [← List.append_assoc]
        rcases Nat.lt_or_ge h.toNat (p ++ bs).length with inside | outside
        · rw [List.getElem?_append_left inside]
        · rw [List.getElem?_eq_none outside, List.getElem?_eq_none]
          simp only [List.length_append, List.length_singleton] at differs outside ⊢
          omega
  · have map' : view.coins = Coins.apply b overlay.coins := map
    change view.coins = _
    rw [map', replayed.coins_eq, Coins.applyAll_append]
    rfl

/-- What the guard of `replay_block` says. -/
theorem replayGuard_iff (replayed : overlay.Replayed s p q bs) (chain : IsChain (p ++ bs)) :
    ¬ (overlay.rewindTip ≠ overlay.commonAncestor ∨ b.header.isGenesis ∨
      b.header.hashThreshold = 0 ∨ b.header.previousBlockHash ≠ overlay.branchTip.2 ∨
      checkedAdd overlay.branchTip.1 1 ≠ some b.header.height) ↔ Links (p ++ bs) b := by
  obtain ⟨top, last⟩ : ∃ top, (p ++ bs).getLast? = some top := by
    rw [← Option.isSome_iff_exists, List.getLast?_isSome]
    exact chain.ne_nil
  have height := chain.tip_height last
  have tip := replayed.branchTip
  rw [last, Option.map_some, Option.some.injEq] at tip
  rw [← tip, Block.point]
  simp only [replayed.rewindTip, ne_eq, not_true_eq_false, false_or, not_or, Bool.not_eq_true,
    not_not, checkedAdd_eq_some, UInt64.toNat_one]
  constructor
  · rintro ⟨marker, threshold, linked, next⟩
    exact ⟨⟨top, last, linked⟩, ⟨marker, threshold⟩, by omega⟩
  · rintro ⟨⟨top', last', linked⟩, normal, next⟩
    rw [last, Option.some.injEq] at last'
    subst last'
    exact ⟨normal.1, normal.2, linked, by omega⟩

/-- A replayed block, read off the overlay. -/
theorem replayBlock_eq_ok (replayed : overlay.Replayed s p q bs) (chain : IsChain (p ++ bs))
    (new : Links (p ++ bs) b → b.blockHash ∉ (p ++ bs).map Block.blockHash)
    (run : overlay.replayBlock b = .ok overlay') :
    Links (p ++ bs) b ∧ Coins.Applicable b overlay.coins ∧
      overlay'.Replayed s p q (bs ++ [b]) := by
  simp only [replayBlock, bind_eq_ok, mapError_eq_ok, failIf_eq_ok, pure_eq_ok,
    Prod.exists] at run
  obtain ⟨-, -, -, guard, undo, view, applied, rfl⟩ := run
  have links := (replayGuard_iff replayed chain).mp guard
  obtain ⟨applicable, rfl, updates⟩ := applyBlock_eq_ok replayed.sound applied
  exact ⟨links, applicable, replayed.next links (new links) updates⟩

/-- A block that stands above the branch and can be applied there is replayed. -/
theorem replayBlock_ok (replayed : overlay.Replayed s p q bs) (chain : IsChain (p ++ bs))
    (links : Links (p ++ bs) b) (applicable : Coins.Applicable b overlay.coins) :
    ∃ overlay', overlay.replayBlock b = .ok overlay' := by
  have guard := (replayGuard_iff replayed chain).mpr links
  have sound' : LawfulUtxoWrite.Sound overlay := replayed.sound
  have applicable' : Coins.Applicable b (LawfulUtxoWrite.coins overlay) := applicable
  obtain ⟨view, applied, -⟩ := applyBlock_ok sound' applicable'
  exact ⟨_, by
    simp only [replayBlock, verifyGenesisWorkShape_of_normal links.normal.1, mapError_ok,
      failIf_of_not _ guard, bind_ok, applied]
    rfl⟩

end Replay

end ForkDbOverlay

/-- The delta that replaces the blocks `q` above `p` by `bs`. -/
structure ForkDbDelta.Replaces (delta : ForkDbDelta) (s : S) (p q bs : List Block) :
    Prop where
  head : (p ++ q).getLast?.map Block.point = some delta.expectedHead
  ancestor : p.getLast?.map Block.blockHash = some delta.commonAncestor
  detached : delta.detached = (q.map Block.point).reverse
  blocks : delta.blocks =
    Coins.records (Coins.unwind p q (LawfulStorage.tables s).utxo) bs
  distinct : delta.removedUtxos.Nodup
  present : ∀ o ∈ delta.removedUtxos, (LawfulStorage.tables s).utxo o ≠ none
  keyed : ∀ entry ∈ delta.utxos, Keyed entry
  coins : putAll delta.utxos (eraseAll delta.removedUtxos (LawfulStorage.tables s).utxo) =
    Coins.applyAll bs (Coins.unwind p q (LawfulStorage.tables s).utxo)

namespace ForkDbOverlay

section Delta

open LawfulStorage

variable {s : S} {p q bs : List Block} {overlay : ForkDbOverlay S}

/-- Sorting by height puts the replayed blocks back into the order of the branch. -/
theorem sort_records (chain : IsChain (p ++ bs)) {m : Coins} {l : List (Block × BlockUndo)}
    (perm : l.Perm (Coins.records m bs)) :
    l.insertionSort (fun a b => a.1.header.height ≤ b.1.header.height) = Coins.records m bs := by
  have height : ∀ {i : Nat} {record : Block × BlockUndo}, (Coins.records m bs)[i]? = some record →
      record.1.header.height.toNat = p.length + i := by
    intro i record found
    have block : bs[i]? = some record.1 := by
      rw [← Coins.map_fst_records m bs, List.getElem?_map, found, Option.map_some]
    refine chain.height (i := p.length + i) ?_
    rw [List.getElem?_append_right (by omega), Nat.add_sub_cancel_left, block]
  refine @List.Perm.eq_of_pairwise _ (fun a b : Block × BlockUndo =>
    a.1.header.height ≤ b.1.header.height) _ _ ?_ ?_ ?_ ((List.perm_insertionSort _ _).trans perm)
  · intro a b ha hb le ge
    rw [List.mem_insertionSort, perm.mem_iff] at ha
    obtain ⟨i, hi⟩ := List.mem_iff_getElem?.mp ha
    obtain ⟨j, hj⟩ := List.mem_iff_getElem?.mp hb
    have hi' := height hi
    have hj' := height hj
    rw [UInt64.le_iff_toNat_le] at le ge
    have same : i = j := by omega
    subst same
    rw [hi, Option.some.injEq] at hj
    exact hj
  · have : Std.Total fun a b : Block × BlockUndo => a.1.header.height ≤ b.1.header.height :=
      ⟨fun a b => UInt64.le_total _ _⟩
    have : IsTrans (Block × BlockUndo) fun a b => a.1.header.height ≤ b.1.header.height :=
      ⟨fun a b w => UInt64.le_trans⟩
    exact List.pairwise_insertionSort _ _
  · rw [List.pairwise_iff_getElem]
    intro i j hi hj lt
    have hi' := height (List.getElem?_eq_getElem hi)
    have hj' := height (List.getElem?_eq_getElem hj)
    rw [UInt64.le_iff_toNat_le]
    omega

/-- The net difference between an overlay and its base, as two lists. -/
theorem coins_of_delta (overlay : ForkDbOverlay S) {removed : List OutPoint}
    {utxos : List (OutPoint × UTXO)}
    (hremoved : removed.Perm (overlay.removedUtxos.filter fun o =>
      (overlay.utxos.read o).isNone && ((tables overlay.base).utxo o).isSome))
    (hutxos : utxos.Perm (overlay.utxos.toPairs.filter fun entry =>
      (tables overlay.base).utxo entry.1 ≠ some entry.2)) :
    putAll utxos (eraseAll removed (tables overlay.base).utxo) = overlay.coins := by
  have distinct : (utxos.map Prod.fst).Nodup := by
    rw [(hutxos.map Prod.fst).nodup_iff]
    exact overlay.utxos.nodup_toPairs_keys.sublist (List.filter_sublist.map _)
  funext o
  refine overlay.utxos.putAll_difference _ distinct (fun k => ?_) (fun k v => ?_) o
  · rw [hremoved.mem_iff, List.mem_filter, Bool.and_eq_true, Option.isNone_iff_eq_none,
      Option.isSome_iff_ne_none]
  · rw [hutxos.mem_iff, List.mem_filter, Table.mem_toPairs, decide_eq_true_eq]

/-- `into_delta` succeeds on a rewound overlay with a branch, and describes the replacement. -/
theorem intoDelta_ok (replayed : overlay.Replayed s p q bs) (chain : IsChain (p ++ bs))
    (ne : bs ≠ []) : ∃ delta, overlay.intoDelta = .ok delta ∧ delta.Replaces s p q bs := by
  have sound := replayed.sound
  have filled : overlay.blocks ≠ ∅ := by
    intro empty
    have keys := replayed.keys
    rw [empty] at keys
    simp at keys
    exact ne keys
  have removes : ∀ o ∈ iter overlay.removedUtxos, overlay.removesFromBase o =
      .ok ((overlay.utxos.read o).isNone && ((tables overlay.base).utxo o).isSome) := by
    intro o _
    unfold removesFromBase
    cases overlay.utxos.read o <;> simp [LawfulStorage.getUtxo_eq _ sound.base]
  have changes : ∀ entry ∈ iter overlay.utxos.toPairs, overlay.changesBase entry =
      .ok (decide ((tables overlay.base).utxo entry.1 ≠ some entry.2)) := by
    intro entry _
    simp [changesBase, LawfulStorage.getUtxo_eq _ sound.base]
  have perm : (iter (overlay.blocks.toPairs.map Prod.snd)).Perm
      (Coins.records (Coins.unwind p q (tables s).utxo) bs) := by
    refine (iter_perm _).trans ?_
    rw [replayed.blocks, List.map_reverse, List.map_map]
    simp [Function.comp_def]
  have guard : ¬ (overlay.rewindTip ≠ overlay.commonAncestor ∨ overlay.blocks = ∅) := by
    simp [replayed.rewindTip, filled]
  refine ⟨_, by
    simp only [intoDelta, failIf_of_not _ guard, filterE_eq_ok removes, filterE_eq_ok changes,
      bind_ok, sort_records chain perm]
    rfl, replayed.head, ?_, replayed.detached, rfl, ?_, ?_, ?_, ?_⟩
  · have ancestor := congrArg (Option.map Prod.snd) replayed.ancestor
    rw [Option.map_map] at ancestor
    exact ancestor
  · exact (nodup_iter.mpr sound.removed).filter _
  · intro o mem
    have both := (List.mem_filter.mp mem).2
    rw [Bool.and_eq_true, Option.isSome_iff_ne_none, replayed.base_eq] at both
    exact both.2
  · intro entry mem
    have own := mem_iter.mp (List.mem_filter.mp mem).1
    exact sound.keyed _ _ (Table.mem_toPairs.mp own)
  · rw [← replayed.coins_eq, ← replayed.base_eq]
    exact coins_of_delta overlay ((iter_perm _).filter _) ((iter_perm _).filter _)

end Delta

end ForkDbOverlay

end StryiChain
