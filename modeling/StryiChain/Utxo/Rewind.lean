import StryiChain.Storage.MemoryLawful
import StryiChain.Utxo.Positions

/-!
# Undo records are exact

`rewind_block` takes back what `apply_block` did, unless an output that remains has overwritten
an entry the block did not draw. A stack of blocks is taken back one record at a time, the last
one first.
-/

namespace StryiChain

section Exact

variable [Primitives]

/-- Every output that remains is stored where nothing is, or where the block has drawn the entry
itself. -/
def Undoable (block : Block) (m : Coins) : Prop :=
  ∀ o, Remains block.data.transactions o → m o = none ∨ Draws block.data.transactions o

variable {S : Type} [UtxoWrite S]

/-- Plays back the undo records of a stack of blocks, the last one first. -/
def rewindStack : List BlockUndo → S → Except StorageError S
  | [], storage => .ok storage
  | undo :: undos, storage => do
      let storage ← rewindStack undos storage
      rewindBlock undo storage

/-- A stack of blocks that have been applied one after the other, each where it can be undone,
with the records that were kept. -/
inductive AppliedStack (laws : UtxoLaws S) : List Block → S → List BlockUndo → S → Prop
  | nil (s : S) : AppliedStack laws [] s [] s
  | cons {block : Block} {blocks : List Block} {undo : BlockUndo} {undos : List BlockUndo}
      {s s' s'' : S} : applyBlock block s = .ok (undo, s') → Undoable block (laws.coins s) →
      AppliedStack laws blocks s' undos s'' →
      AppliedStack laws (block :: blocks) s (undo :: undos) s''

theorem undoable_iff {block : Block} {m : Coins} : Undoable block m ↔ Coins.Fresh block m := by
  simp only [Undoable, Coins.Fresh, mem_created_iff, mem_external_iff]

variable {laws : UtxoLaws S} {s s' : S} {block : Block} {undo : BlockUndo}

/-- The record lists what remains of the block. -/
theorem mem_undo_created (sound : laws.Sound s) (run : applyBlock block s = .ok (undo, s'))
    (o : OutPoint) : o ∈ undo.createdOutpoints ↔ Remains block.data.transactions o := by
  obtain ⟨-, rfl, -⟩ := UtxoLaws.applyBlock_eq_ok sound run
  exact mem_created_iff block o

/-- The record lists what the block has drawn, with the entries of the map before it. -/
theorem mem_undo_spent_iff (sound : laws.Sound s) (run : applyBlock block s = .ok (undo, s'))
    (o : OutPoint) (u : UTXO) :
    (o, u) ∈ undo.spentUtxos ↔ Draws block.data.transactions o ∧ laws.coins s o = some u := by
  obtain ⟨-, rfl, -⟩ := UtxoLaws.applyBlock_eq_ok sound run
  rw [← mem_external_iff]
  constructor
  · exact fun mem => Coins.mem_undo_spent mem
  · rintro ⟨drawn, present⟩
    exact List.mem_reverse.mpr (List.mem_filterMap.mpr ⟨o, drawn, by rw [present]; rfl⟩)

/-- One block, taken back from any view with the map it has left. -/
theorem rewindBlock_exact (sound : laws.Sound s) (run : applyBlock block s = .ok (undo, s'))
    (undoable : Undoable block (laws.coins s)) {t : S} (soundAfter : laws.Sound t)
    (same : laws.coins t = laws.coins s') :
    ∃ t', rewindBlock undo t = .ok t' ∧ laws.Updates t t' (laws.coins s) := by
  obtain ⟨applicable, rfl, -, map, -⟩ := UtxoLaws.applyBlock_eq_ok sound run
  have after : laws.coins t = Coins.apply block (laws.coins s) := same.trans map
  have present : ∀ o ∈ (Coins.undo block (laws.coins s)).createdOutpoints,
      laws.coins t o ≠ none := by
    intro o mem
    rw [after]
    exact Coins.apply_created_ne_none mem
  obtain ⟨t', rewind, updates⟩ := UtxoLaws.rewindBlock_ok soundAfter
    (UtxoLaws.playable_undo sound applicable) present
  rw [after, Coins.rewind_apply applicable (undoable_iff.mp undoable)] at updates
  exact ⟨t', rewind, updates⟩

/-- A whole stack, taken back from any view with the map it has left. -/
theorem rewindStack_exact {blocks : List Block} {undos : List BlockUndo} (sound : laws.Sound s)
    (stack : AppliedStack laws blocks s undos s') {t : S} (soundAfter : laws.Sound t)
    (same : laws.coins t = laws.coins s') :
    ∃ t', rewindStack undos t = .ok t' ∧ laws.Updates t t' (laws.coins s) := by
  induction stack generalizing t with
  | nil s => exact ⟨t, rfl, soundAfter, same, rfl⟩
  | cons run undoable _ ih =>
    obtain ⟨-, -, soundNext, -⟩ := UtxoLaws.applyBlock_eq_ok sound run
    obtain ⟨middle, above, soundMiddle, mapMiddle, frameMiddle⟩ := ih soundNext soundAfter same
    obtain ⟨last, below, soundLast, mapLast, frameLast⟩ :=
      rewindBlock_exact sound run undoable soundMiddle mapMiddle
    refine ⟨last, ?_, soundLast, mapLast, frameLast.trans frameMiddle⟩
    rw [rewindStack, above, bind_ok, below]

theorem AppliedStack.sound {blocks : List Block} {undos : List BlockUndo} (sound : laws.Sound s)
    (stack : AppliedStack laws blocks s undos s') : laws.Sound s' := by
  induction stack with
  | nil s => exact sound
  | cons run _ _ ih =>
    obtain ⟨-, -, soundNext, -⟩ := UtxoLaws.applyBlock_eq_ok sound run
    exact ih soundNext

/-- Undo is exact, over any storage that behaves as a map, such as the in-memory one in every
state. An output that the block spends itself is in neither part of the record; only an entry that
the map held under the same outpoint can be. -/
theorem rewind_restores (laws : UtxoLaws S) {s : S} (sound : laws.Sound s) :
    (∀ block undo s', applyBlock block s = .ok (undo, s') → Undoable block (laws.coins s) →
      ∃ s'', rewindBlock undo s' = .ok s'' ∧ laws.coins s'' = laws.coins s) ∧
    (∀ block undo s', applyBlock block s = .ok (undo, s') →
      ∀ o ∈ createdBy block.data.transactions, ¬ Remains block.data.transactions o →
        o ∉ undo.createdOutpoints ∧ ∀ u, (o, u) ∈ undo.spentUtxos →
          Draws block.data.transactions o ∧ laws.coins s o = some u) ∧
    (∀ blocks undos s', AppliedStack laws blocks s undos s' →
      ∃ s'', rewindStack undos s' = .ok s'' ∧ laws.coins s'' = laws.coins s) := by
  refine ⟨?_, ?_, ?_⟩
  · intro block undo s' run undoable
    obtain ⟨-, -, soundAfter, -⟩ := UtxoLaws.applyBlock_eq_ok sound run
    obtain ⟨s'', rewind, -, map, -⟩ := rewindBlock_exact sound run undoable soundAfter rfl
    exact ⟨s'', rewind, map⟩
  · intro block undo s' run o _ spent
    rw [mem_undo_created sound run]
    exact ⟨spent, fun u mem => (mem_undo_spent_iff sound run o u).mp mem⟩
  · intro blocks undos s' stack
    obtain ⟨s'', rewind, -, map, -⟩ := rewindStack_exact sound stack (stack.sound sound) rfl
    exact ⟨s'', rewind, map⟩

end Exact

open Sample in
/-- Two blocks, the first of which spends an output of its own. -/
theorem rewind_restores_sample :
    ∃ undos s' s'', AppliedStack MemoryView.utxoLaws
        [above genesis 1 [earn, passOn], above (above genesis 1 [earn, passOn]) 2 []] funds undos s' ∧
      rewindStack undos s' = .ok s'' ∧ s''.utxos.read = funds.utxos.read := by
  have applied : (applyBlock (above genesis 1 [earn, passOn]) funds).toOption.any (fun first =>
      decide (Coins.Fresh (above genesis 1 [earn, passOn]) funds.utxos.read) &&
      (applyBlock (above (above genesis 1 [earn, passOn]) 2 []) first.2).toOption.any fun _ =>
        decide (Coins.Fresh (above (above genesis 1 [earn, passOn]) 2 []) first.2.utxos.read)) =
      true := by decide +kernel
  obtain ⟨⟨undo, s⟩, run, rest⟩ := exists_ok_of_any applied
  rw [Bool.and_eq_true, decide_eq_true_eq] at rest
  obtain ⟨⟨undo', s'⟩, run', fresh'⟩ := exists_ok_of_any rest.2
  rw [decide_eq_true_eq] at fresh'
  have stack : AppliedStack MemoryView.utxoLaws _ funds [undo, undo'] s' :=
    .cons run (undoable_iff.mpr rest.1) (.cons run' (undoable_iff.mpr fresh') (.nil s'))
  obtain ⟨s'', rewind, map⟩ :=
    (rewind_restores MemoryView.utxoLaws trivial).2.2 _ _ _ stack
  exact ⟨_, s', s'', stack, rewind, map⟩

end StryiChain
