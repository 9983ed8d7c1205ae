import StryiChain.Consensus.Overlay
import StryiChain.Storage.Addresses

/-!
# The delta of an overlay (`consensus/forks/overlay.rs:151-221`)

Whatever has been put into an overlay and removed from it, the delta it hands over turns the UTXO
map of its base into its own view, by outpoint and by owner, and names nothing that the base would
refuse to remove or already has.
-/

namespace StryiChain

/-- The laws of a UTXO set that is also asked for the entries of an owner. -/
structure OwnerLaws (DB : Type) [StorageWrite DB] extends UtxoLaws DB where
  getUtxosForAddress_ok : ∀ {s : DB} (address : AccountAddress), Sound s →
    ∃ found, getUtxosForAddress s address = .ok found ∧
      ∀ o u, found.read o = some u ↔ coins s o = some u ∧ u.owner = address

/-- The in-memory backend answers by a scan of its map. -/
def MemoryView.ownerLaws [Primitives] : OwnerLaws MemoryView where
  toUtxoLaws := MemoryView.utxoLaws
  getUtxosForAddress_ok {s} address _ := ⟨_, rfl, s.getUtxosForAddress_eq address⟩

/-- The RocksDB backend answers from the index that mirrors its entries. -/
def RocksView.ownerLaws [Primitives] : OwnerLaws RocksView where
  Sound := RocksView.Indexed
  coins view := view.utxo.read
  Rest := RocksView
  rest view := { view with utxo := ∅, addresses := ∅ }
  Fits := Keyed
  fits_keyed keyed := keyed
  fits_stored indexed stored := indexed.keyed _ _ stored
  getUtxo_eq o indexed := RocksView.getUtxo_ok indexed.keyed o
  batchPutUtxos_ok indexed keyed := by
    obtain ⟨addresses, run, indexed'⟩ := RocksView.batchPutUtxos_indexed indexed keyed
    exact ⟨_, run, indexed', Table.read_insertAll _ _, rfl⟩
  batchRemoveUtxos_ok indexed distinct present := by
    obtain ⟨addresses, run, indexed'⟩ :=
      RocksView.batchRemoveUtxos_indexed indexed distinct present
    exact ⟨_, run, indexed', Table.read_removeAll _ _, rfl⟩
  batchRemoveUtxos_error {s outpoints o} _ mem absent := by
    obtain ⟨error, failed⟩ := RocksView.removeUtxos_absent ∅ mem absent
    refine ⟨error, ?_⟩
    change s.batchRemoveUtxos outpoints = _
    rw [RocksView.batchRemoveUtxos, failed]
    rfl
  getUtxosForAddress_ok address indexed := RocksView.getUtxosForAddress_ok indexed address

section Delta

variable {DB : Type} [StorageWrite DB]

namespace ForkDbOverlay

/-- The overlays that UTXO writes lead to, in any order and with anything written; the other
fields may change in between. -/
inductive Reached (base : DB) : ForkDbOverlay DB → Prop where
  | opened {overlay : ForkDbOverlay DB} : overlay.base = base → overlay.utxos = ∅ →
      overlay.removedUtxos = [] → Reached base overlay
  | put {overlay overlay' : ForkDbOverlay DB} {entries : List (OutPoint × UTXO)} :
      Reached base overlay → batchPutUtxos overlay entries = .ok overlay' → Reached base overlay'
  | removed {overlay overlay' : ForkDbOverlay DB} {outpoints : List OutPoint} :
      Reached base overlay → StryiChain.batchRemoveUtxos overlay outpoints = .ok overlay' →
      Reached base overlay'
  | moved {overlay overlay' : ForkDbOverlay DB} : Reached base overlay →
      overlay'.base = overlay.base → overlay'.utxos = overlay.utxos →
      overlay'.removedUtxos = overlay.removedUtxos → Reached base overlay'

variable {base : DB} {overlay overlay' : ForkDbOverlay DB}

theorem batchRemoveUtxos_eq_ok {outpoints : List OutPoint}
    (run : overlay.batchRemoveUtxos outpoints = .ok overlay') :
    overlay' = outpoints.foldl dropUtxo overlay := by
  rw [batchRemoveUtxos, bind_eq_ok] at run
  obtain ⟨-, -, done⟩ := run
  exact ((pure_eq_ok _ _).mp done).symm

omit [StorageWrite DB] in
/-- The removal loop keeps the base and lists no outpoint twice. -/
theorem foldl_dropUtxo {outpoints : List OutPoint} (distinct : overlay.removedUtxos.Nodup) :
    (outpoints.foldl dropUtxo overlay).base = overlay.base ∧
      (outpoints.foldl dropUtxo overlay).removedUtxos.Nodup := by
  induction outpoints generalizing overlay with
  | nil => exact ⟨rfl, distinct⟩
  | cons o os ih =>
    have next : (overlay.dropUtxo o).removedUtxos.Nodup := distinct.insert
    exact ih next

namespace Reached

/-- The base is never written, and the removals are a set. -/
theorem shape (reached : Reached base overlay) :
    overlay.base = base ∧ overlay.removedUtxos.Nodup := by
  induction reached with
  | opened same _ removed =>
    rw [removed]
    exact ⟨same, List.nodup_nil⟩
  | put _ run ih =>
    cases run
    exact ih
  | removed _ run ih =>
    rw [batchRemoveUtxos_eq_ok run]
    exact ⟨(foldl_dropUtxo ih.2).1.trans ih.1, (foldl_dropUtxo ih.2).2⟩
  | moved _ sameBase _ sameRemoved ih =>
    rw [sameBase, sameRemoved]
    exact ih

variable [Primitives]

/-- A new overlay. -/
theorem new {ancestor : BlockHash} (run : ForkDbOverlay.new base ancestor = .ok overlay) :
    Reached base overlay := by
  simp only [ForkDbOverlay.new, bind_eq_ok, pure_eq_ok] at run
  obtain ⟨_, _, _, _, _, _, _, _, _, _, _, _, _, _, rfl⟩ := run
  exact .opened rfl rfl rfl

/-- An undo record is played back by a removal and a put. -/
theorem played (reached : Reached base overlay) {undo : BlockUndo}
    (run : StryiChain.rewindBlock undo overlay = .ok overlay') : Reached base overlay' := by
  rw [StryiChain.rewindBlock, bind_eq_ok] at run
  obtain ⟨middle, remove, put⟩ := run
  exact (reached.removed remove).put put

/-- A block is applied by a removal of what it spends and a put of what it creates. -/
theorem applied (reached : Reached base overlay) {block : Block} {undo : BlockUndo}
    (run : applyBlock block overlay = .ok (undo, overlay')) : Reached base overlay' := by
  simp only [applyBlock, bind_eq_ok, pure_eq_ok, Prod.exists, Prod.mk.injEq] at run
  obtain ⟨spent, middle, spend, last, put, -, rfl⟩ := run
  have reached' : Reached base middle := by
    unfold spendInputs at spend
    split at spend
    · cases spend
      exact reached
    · simp only [bind_eq_ok, pure_eq_ok, Prod.mk.injEq] at spend
      obtain ⟨_, _, _, _, _, remove, -, rfl⟩ := spend
      exact reached.removed remove
  unfold putCreated at put
  split at put
  · cases put
    exact reached'
  · exact reached'.put put

/-- Rewinding a canonical block. -/
theorem rewindBlock (reached : Reached base overlay) (run : overlay.rewindBlock = .ok overlay') :
    Reached base overlay' := by
  simp only [ForkDbOverlay.rewindBlock, bind_eq_ok, mapError_eq_ok, pure_eq_ok] at run
  obtain ⟨_, _, _, _, _, _, _, _, _, _, _, _, _, _, _, _, view, play, rfl⟩ := run
  exact (reached.played play).moved rfl rfl rfl

/-- Replaying a block of the branch. -/
theorem replayBlock (reached : Reached base overlay) {block : Block}
    (run : overlay.replayBlock block = .ok overlay') : Reached base overlay' := by
  simp only [ForkDbOverlay.replayBlock, bind_eq_ok, mapError_eq_ok, pure_eq_ok, Prod.exists] at run
  obtain ⟨_, _, _, _, undo, view, apply, rfl⟩ := run
  exact (reached.applied apply).moved rfl rfl rfl

end Reached

section IntoDelta

variable [Primitives] {m : Coins} {delta : ForkDbDelta}

/-- The removals of a delta are those that the base has and the overlay does not bind again. -/
theorem intoDelta_removed (reads : Reads overlay.base m) (run : overlay.intoDelta = .ok delta) :
    delta.removedUtxos = (iter overlay.removedUtxos).filter fun o =>
      (overlay.utxos.read o).isNone && (m o).isSome := by
  have test : ∀ o ∈ iter overlay.removedUtxos, overlay.removesFromBase o =
      .ok ((overlay.utxos.read o).isNone && (m o).isSome) := by
    intro o _
    unfold removesFromBase
    rw [reads o]
    cases overlay.utxos.read o <;> rfl
  rw [intoDelta, filterE_eq_ok test] at run
  simp only [bind_eq_ok, bind_ok, pure_eq_ok] at run
  obtain ⟨-, -, utxos, -, rfl⟩ := run
  rfl

/-- The entries of a delta are those of the overlay that the base does not have. -/
theorem intoDelta_utxos (reads : Reads overlay.base m) (run : overlay.intoDelta = .ok delta) :
    delta.utxos = (iter overlay.utxos.toPairs).filter fun entry => m entry.1 ≠ some entry.2 := by
  have test : ∀ entry ∈ iter overlay.utxos.toPairs, overlay.changesBase entry =
      .ok (decide (m entry.1 ≠ some entry.2)) := by
    intro entry _
    rw [changesBase, reads entry.1]
    rfl
  rw [intoDelta, filterE_eq_ok test] at run
  simp only [bind_eq_ok, bind_ok, pure_eq_ok] at run
  obtain ⟨-, -, removed, -, rfl⟩ := run
  rfl

theorem mem_intoDelta_removed (reads : Reads overlay.base m)
    (run : overlay.intoDelta = .ok delta) (o : OutPoint) :
    o ∈ delta.removedUtxos ↔
      o ∈ overlay.removedUtxos ∧ overlay.utxos.read o = none ∧ m o ≠ none := by
  rw [intoDelta_removed reads run, List.mem_filter, mem_iter, Bool.and_eq_true,
    Option.isNone_iff_eq_none, Option.isSome_iff_ne_none]

theorem mem_intoDelta_utxos (reads : Reads overlay.base m) (run : overlay.intoDelta = .ok delta)
    (o : OutPoint) (u : UTXO) :
    (o, u) ∈ delta.utxos ↔ overlay.utxos.read o = some u ∧ m o ≠ some u := by
  rw [intoDelta_utxos reads run, List.mem_filter, mem_iter, Table.mem_toPairs, decide_eq_true_eq]

/-- The map that the delta makes of the base is the view of the overlay. -/
theorem intoDelta_view (reads : Reads overlay.base m) (run : overlay.intoDelta = .ok delta)
    (o : OutPoint) :
    overlay.getUtxo o = .ok (putAll delta.utxos (eraseAll delta.removedUtxos m) o) := by
  have keys : ((iter overlay.utxos.toPairs).map Prod.fst).Nodup :=
    ((iter_perm _).map Prod.fst).nodup_iff.mpr overlay.utxos.nodup_toPairs_keys
  have distinct : (delta.utxos.map Prod.fst).Nodup := by
    rw [intoDelta_utxos reads run]
    exact keys.sublist (List.filter_sublist.map Prod.fst)
  rw [getUtxo_over reads, overlay.utxos.putAll_difference m distinct
    (mem_intoDelta_removed reads run) (mem_intoDelta_utxos reads run)]

end IntoDelta

/-- The entries of an owner are those of the view. -/
theorem getUtxosForAddress_over [Primitives] {m : Coins} (address : AccountAddress)
    {found : Table OutPoint UTXO}
    (answer : StryiChain.getUtxosForAddress overlay.base address = .ok found)
    (owned : ∀ o u, found.read o = some u ↔ m o = some u ∧ u.owner = address) :
    ∃ result, overlay.getUtxosForAddress address = .ok result ∧ ∀ o u,
      result.read o = some u ↔
        (overlay.utxos.read o).or (eraseAll overlay.removedUtxos m o) = some u ∧
          u.owner = address := by
  rw [getUtxosForAddress, answer]
  refine ⟨_, rfl, fun o u => ?_⟩
  rw [Table.read_insertAll_empty (Table.nodup_keys_append fun entry retained => by
      simpa using (of_decide_eq_true retained).2), List.mem_append, List.mem_filter,
    List.mem_filter, Table.mem_toPairs, Table.mem_toPairs, decide_eq_true_eq, decide_eq_true_eq,
    owned]
  cases overlay.utxos.read o with
  | some own =>
    simp [eq_comm]
  | none =>
    unfold eraseAll
    by_cases gone : o ∈ overlay.removedUtxos <;> simp [gone]

end ForkDbOverlay

/-- The delta of an overlay is exactly its view: the base has every outpoint the delta removes, so
that the removal succeeds there; the map it makes of the base answers every outpoint and every
owner as the overlay does; and no entry of it is already in the base. Rewinding and replaying are
such sequences of writes. -/
theorem delta_exact [Primitives] (laws : OwnerLaws DB) {base : DB} (sound : laws.Sound base) :
    (∀ overlay : ForkDbOverlay DB, overlay.Reached base → ∀ delta, overlay.intoDelta = .ok delta →
      (∀ o ∈ delta.removedUtxos, laws.coins base o ≠ none) ∧
      (∀ entry ∈ delta.utxos, laws.coins base entry.1 ≠ some entry.2) ∧
      (∀ o, overlay.getUtxo o =
        .ok (putAll delta.utxos (eraseAll delta.removedUtxos (laws.coins base)) o)) ∧
      (∀ address, ∃ found, overlay.getUtxosForAddress address = .ok found ∧
        ∀ o u, found.read o = some u ↔
          putAll delta.utxos (eraseAll delta.removedUtxos (laws.coins base)) o = some u ∧
            u.owner = address) ∧
      ∃ removed, batchRemoveUtxos base delta.removedUtxos = .ok removed ∧
        laws.coins removed = eraseAll delta.removedUtxos (laws.coins base) ∧
        ((∀ entry ∈ delta.utxos, laws.Fits entry) →
          ∃ next, batchPutUtxos removed delta.utxos = .ok next ∧
            ∀ o, getUtxo next o = overlay.getUtxo o)) ∧
    (∀ ancestor overlay, ForkDbOverlay.new base ancestor = .ok overlay → overlay.Reached base) ∧
    (∀ overlay overlay' : ForkDbOverlay DB, overlay.Reached base →
      overlay.rewindBlock = .ok overlay' → overlay'.Reached base) ∧
    ∀ (overlay overlay' : ForkDbOverlay DB) (block : Block), overlay.Reached base →
      overlay.replayBlock block = .ok overlay' → overlay'.Reached base := by
  refine ⟨?delta, fun _ _ run => .new run, fun _ _ reached run => reached.rewindBlock run,
    fun _ _ _ reached run => reached.replayBlock run⟩
  intro overlay reached delta run
  obtain ⟨same, distinct⟩ := reached.shape
  have reads : Reads overlay.base (laws.coins base) := by
    rw [same]
    exact laws.reads sound
  have view := ForkDbOverlay.intoDelta_view reads run
  have present : ∀ o ∈ delta.removedUtxos, laws.coins base o ≠ none := fun o mem =>
    ((ForkDbOverlay.mem_intoDelta_removed reads run o).mp mem).2.2
  have nodup : delta.removedUtxos.Nodup := by
    rw [ForkDbOverlay.intoDelta_removed reads run]
    exact (nodup_iter.mpr distinct).filter _
  refine ⟨present, ?changes, view, ?owner, ?write⟩
  case changes =>
    intro entry mem
    exact ((ForkDbOverlay.mem_intoDelta_utxos reads run entry.1 entry.2).mp mem).2
  case owner =>
    intro address
    obtain ⟨found, answer, owned⟩ := laws.getUtxosForAddress_ok address sound
    rw [← same] at answer
    obtain ⟨result, answer', lookup⟩ :=
      ForkDbOverlay.getUtxosForAddress_over address answer owned
    refine ⟨result, answer', fun o u => ?_⟩
    have equal := (ForkDbOverlay.getUtxo_over reads o).symm.trans (view o)
    rw [lookup, Except.ok.inj equal]
  case write =>
    obtain ⟨removed, remove, sound', coins, -⟩ := laws.batchRemoveUtxos_ok sound nodup present
    refine ⟨removed, remove, coins, fun fits => ?_⟩
    obtain ⟨next, put, sound'', coins', -⟩ := laws.batchPutUtxos_ok sound' fits
    refine ⟨next, put, fun o => ?_⟩
    rw [laws.getUtxo_eq o sound'', coins', coins, view]

end Delta

namespace Sample

/-- A base with two coins. -/
def twoCoins : MemoryView :=
  { MemoryView.default with
    utxos := Table.insertAll [(⟨⟨1⟩, 0⟩, ⟨⟨1⟩, 0, 5, ⟨7⟩⟩), (⟨⟨2⟩, 0⟩, ⟨⟨2⟩, 0, 6, ⟨8⟩⟩)] ∅ }

/-- An overlay at the end of a replay, before any coin has moved. -/
def unmoved : ForkDbOverlay MemoryView where
  base := twoCoins
  commonAncestor := (0, .empty)
  expectedHead := (0, .empty)
  rewindTip := (0, .empty)
  branchTip := (0, .empty)
  utxos := ∅
  removedUtxos := []
  blocks := AList.insert .empty (genesis, ⟨[], []⟩) ∅
  heights := ∅
  detached := []

/-- The first coin is spent and restored, a third one is created and spent, and the second coin
is spent for good. -/
def movedCoins : Except StorageError (ForkDbOverlay MemoryView) := do
  let overlay ← batchRemoveUtxos unmoved [⟨⟨1⟩, 0⟩]
  let overlay ← batchPutUtxos overlay
    [(⟨⟨1⟩, 0⟩, ⟨⟨1⟩, 0, 5, ⟨7⟩⟩), (⟨⟨3⟩, 0⟩, ⟨⟨3⟩, 0, 9, ⟨9⟩⟩)]
  batchRemoveUtxos overlay [⟨⟨3⟩, 0⟩, ⟨⟨2⟩, 0⟩]

end Sample

open Sample in
/-- Only the second coin is in the delta. -/
theorem delta_exact_sample : ∃ overlay delta, movedCoins = .ok overlay ∧
    overlay.intoDelta = .ok delta ∧ delta.removedUtxos = [⟨⟨2⟩, 0⟩] ∧ delta.utxos = [] ∧
    ∀ o, overlay.getUtxo o =
      .ok (putAll delta.utxos (eraseAll delta.removedUtxos twoCoins.utxos.read) o) := by
  have sound : MemoryView.ownerLaws.Sound twoCoins := trivial
  have opened : ForkDbOverlay.Reached twoCoins unmoved := .opened rfl rfl rfl
  obtain ⟨overlay, run⟩ : ∃ overlay, movedCoins = .ok overlay := ⟨_, rfl⟩
  have reached : ForkDbOverlay.Reached twoCoins overlay := by
    have steps := run
    simp only [movedCoins, bind_eq_ok] at steps
    obtain ⟨_, first, _, second, third⟩ := steps
    exact ((opened.removed first).put second).removed third
  obtain ⟨delta, net, removed, utxos⟩ : ∃ delta, overlay.intoDelta = .ok delta ∧
      delta.removedUtxos = [⟨⟨2⟩, 0⟩] ∧ delta.utxos = [] := by
    cases run
    exact ⟨_, rfl, rfl, rfl⟩
  exact ⟨overlay, delta, run, net, removed, utxos,
    ((delta_exact MemoryView.ownerLaws sound).1 overlay reached delta net).2.2.1⟩

end StryiChain
