import StryiChain.Utxo.Coins

/-!
# Writing a UTXO set

What `apply_block` and `rewind_block` rely on in a write view, and what they then do: they
carry out `Coins.apply` and `Coins.rewind`, and touch nothing else. Both the storage backends and
the fork overlay satisfy the laws.
-/

namespace StryiChain

/-- A write view that behaves as a map. `Sound` is the invariant of its tables, `coins` the map
they hold, and `rest` everything that a UTXO write must leave alone. -/
class LawfulUtxoWrite (S : Type) [UtxoWrite S] where
  Sound : S → Prop
  coins : S → Coins
  Rest : Type
  rest : S → Rest
  wellKeyed : ∀ {s : S}, Sound s → (coins s).WellKeyed
  getUtxo_eq : ∀ {s : S} (o : OutPoint), Sound s → getUtxo s o = .ok (coins s o)
  batchPutUtxos_ok : ∀ {s : S} {entries : List (OutPoint × UTXO)}, Sound s →
    (∀ entry ∈ entries, Keyed entry) → ∃ s', batchPutUtxos s entries = .ok s' ∧ Sound s' ∧
      coins s' = putAll entries (coins s) ∧ rest s' = rest s
  batchRemoveUtxos_ok : ∀ {s : S} {outpoints : List OutPoint}, Sound s → outpoints.Nodup →
    (∀ o ∈ outpoints, coins s o ≠ none) → ∃ s', batchRemoveUtxos s outpoints = .ok s' ∧
      Sound s' ∧ coins s' = eraseAll outpoints (coins s) ∧ rest s' = rest s
  batchRemoveUtxos_error : ∀ {s : S} {outpoints : List OutPoint} {o : OutPoint}, Sound s →
    o ∈ outpoints → coins s o = none → ∃ error, batchRemoveUtxos s outpoints = .error error

section Read

/-- The view answers every lookup as the map does. -/
def Reads {S : Type} [UtxoStorage S] (s : S) (m : Coins) : Prop := ∀ o, getUtxo s o = .ok (m o)

variable {S : Type} [UtxoStorage S] {s : S} {m : Coins}

theorem fetchUtxo_some (reads : Reads s m) {o : OutPoint} {utxo : UTXO}
    (present : m o = some utxo) (result : Table OutPoint UTXO) :
    fetchUtxo s result o = .ok (AList.insert o utxo result) := by
  simp [fetchUtxo, reads o, present]

theorem fetchUtxo_none (reads : Reads s m) {o : OutPoint} (absent : m o = none)
    (result : Table OutPoint UTXO) : fetchUtxo s result o = .error (.utxoNotFound o) := by
  simp [fetchUtxo, reads o, absent]

theorem batchGetUtxos_loop (reads : Reads s m) (outpoints : List OutPoint)
    (result : Table OutPoint UTXO) (present : ∀ o ∈ outpoints, m o ≠ none) :
    ∃ found, outpoints.foldlM (fetchUtxo s) result = .ok found ∧
      ∀ o, found.read o = if o ∈ outpoints then m o else result.read o := by
  induction outpoints generalizing result with
  | nil => exact ⟨result, rfl, by simp⟩
  | cons op ops ih =>
    obtain ⟨utxo, hutxo⟩ := Option.ne_none_iff_exists'.mp (present op (by simp))
    obtain ⟨found, run, lookup⟩ := ih (AList.insert op utxo result)
      fun o ho => present o (List.mem_cons_of_mem _ ho)
    refine ⟨found, ?_, fun o => ?_⟩
    · rw [List.foldlM_cons, fetchUtxo_some reads hutxo, bind_ok, run]
    · rw [lookup, Table.read_insert]
      by_cases same : o = op
      · subst same
        simp [hutxo]
      · simp [same]

/-- A batch of present outpoints is read as the map has them. -/
theorem batchGetUtxos_ok (reads : Reads s m) {outpoints : List OutPoint}
    (present : ∀ o ∈ outpoints, m o ≠ none) :
    ∃ found, batchGetUtxos s outpoints = .ok found ∧
      ∀ o, found.read o = if o ∈ outpoints then m o else none := by
  simpa [batchGetUtxos] using batchGetUtxos_loop reads outpoints ∅ present

/-- The first absent outpoint of a batch is the error. -/
theorem batchGetUtxos_error (reads : Reads s m) {outpoints : List OutPoint} {o : OutPoint}
    (mem : o ∈ outpoints) (absent : m o = none) :
    ∃ missing, missing ∈ outpoints ∧ m missing = none ∧
      batchGetUtxos s outpoints = .error (.utxoNotFound missing) := by
  unfold batchGetUtxos
  generalize (∅ : Table OutPoint UTXO) = result
  induction outpoints generalizing result with
  | nil => cases mem
  | cons op ops ih =>
    cases hop : m op with
    | none =>
      refine ⟨op, by simp, hop, ?_⟩
      rw [List.foldlM_cons, fetchUtxo_none reads hop, bind_error]
    | some utxo =>
      have later : o ∈ ops := by
        rcases List.mem_cons.mp mem with rfl | later
        · simp [hop] at absent
        · exact later
      obtain ⟨missing, hmem, hnone, run⟩ := ih later (AList.insert op utxo result)
      refine ⟨missing, List.mem_cons_of_mem _ hmem, hnone, ?_⟩
      rw [List.foldlM_cons, fetchUtxo_some reads hop, bind_ok, run]

end Read

namespace LawfulUtxoWrite

variable {S : Type} [UtxoWrite S] [LawfulUtxoWrite S] {s s' : S}

/-- The view `s'` is `s` with another map. -/
def Updates (s s' : S) (m : Coins) : Prop :=
  Sound s' ∧ coins s' = m ∧ rest s' = rest s

theorem reads (sound : Sound s) : Reads s (coins s) := fun o => getUtxo_eq o sound

end LawfulUtxoWrite

section TakeSpent

theorem takeEntry_some {existing : Table OutPoint UTXO} {o : OutPoint} {utxo : UTXO}
    (present : existing.read o = some utxo) (spent : List (OutPoint × UTXO)) :
    takeEntry (existing, spent) o =
      .ok (AList.erase o existing, List.insert (o, utxo) spent) := by
  simp [takeEntry, present]

theorem takeEntry_none {existing : Table OutPoint UTXO} {o : OutPoint}
    (absent : existing.read o = none) (spent : List (OutPoint × UTXO)) :
    takeEntry (existing, spent) o = .error (.utxoNotFound o) := by
  simp [takeEntry, absent]

/-- The accumulating loop of `takeSpent`. The entries not yet taken are still in the table. -/
theorem takeSpent_loop {m : Coins} {existing : Table OutPoint UTXO} {inputs : List OutPoint}
    {spent : List (OutPoint × UTXO)} (distinct : inputs.Nodup)
    (present : ∀ o ∈ inputs, existing.read o = m o ∧ m o ≠ none)
    (later : ∀ e ∈ spent, e.1 ∉ inputs) :
    ∃ left, inputs.foldlM takeEntry (existing, spent) =
      .ok (left, (inputs.filterMap fun o => (m o).map fun u => (o, u)).reverse ++ spent) := by
  induction inputs generalizing existing spent with
  | nil => exact ⟨existing, rfl⟩
  | cons op ops ih =>
    rw [List.nodup_cons] at distinct
    obtain ⟨same, some⟩ := present op (by simp)
    obtain ⟨utxo, hutxo⟩ := Option.ne_none_iff_exists'.mp some
    have new : (op, utxo) ∉ spent := fun mem => later _ mem (by simp)
    have presentLeft : ∀ o ∈ ops, Table.read (AList.erase op existing) o = m o ∧ m o ≠ none := by
      intro o ho
      have other : o ≠ op := fun h => distinct.1 (h ▸ ho)
      rw [Table.read_erase, Function.update_of_ne other]
      exact present o (List.mem_cons_of_mem _ ho)
    have laterLeft : ∀ e ∈ (op, utxo) :: spent, e.1 ∉ ops := by
      intro e he
      rcases List.mem_cons.mp he with rfl | he
      · exact distinct.1
      · exact fun mem => later e he (List.mem_cons_of_mem _ mem)
    obtain ⟨left, run⟩ := ih distinct.2 presentLeft laterLeft
    refine ⟨left, ?_⟩
    rw [List.foldlM_cons, takeEntry_some (same.trans hutxo), bind_ok,
      List.insert_of_not_mem new, run]
    simp [hutxo]

/-- Distinct present inputs are moved into the undo record, the last one first. -/
theorem takeSpent_ok {m : Coins} {existing : Table OutPoint UTXO} {inputs : List OutPoint}
    (distinct : inputs.Nodup) (present : ∀ o ∈ inputs, existing.read o = m o ∧ m o ≠ none) :
    takeSpent existing inputs =
      .ok (inputs.filterMap fun o => (m o).map fun u => (o, u)).reverse := by
  have none : ∀ e ∈ ([] : List (OutPoint × UTXO)), e.1 ∉ inputs := by simp
  obtain ⟨left, run⟩ := takeSpent_loop distinct present none
  rw [takeSpent, run]
  simp

/-- Once an entry has been taken, its outpoint is missing. -/
theorem takeSpent_loop_error {existing : Table OutPoint UTXO} {inputs : List OutPoint}
    {spent : List (OutPoint × UTXO)} {o : OutPoint} (mem : o ∈ inputs)
    (absent : existing.read o = none) :
    ∃ error, inputs.foldlM takeEntry (existing, spent) = .error error := by
  induction inputs generalizing existing spent with
  | nil => cases mem
  | cons op ops ih =>
    rw [List.foldlM_cons]
    cases hop : existing.read op with
    | none => exact ⟨.utxoNotFound op, by rw [takeEntry_none hop, bind_error]⟩
    | some utxo =>
      rw [takeEntry_some hop, bind_ok]
      have later : o ∈ ops := by
        rcases List.mem_cons.mp mem with rfl | later
        · simp [hop] at absent
        · exact later
      refine ih later ?_
      rw [Table.read_erase]
      by_cases same : o = op
      · subst same
        simp
      · rwa [Function.update_of_ne same]

/-- A repeated input is missing the second time. -/
theorem takeSpent_error (existing : Table OutPoint UTXO) {inputs : List OutPoint}
    (repeated : ¬ inputs.Nodup) : ∃ error, takeSpent existing inputs = .error error := by
  suffices ∃ error, inputs.foldlM takeEntry (existing, []) = .error error by
    obtain ⟨error, run⟩ := this
    exact ⟨error, by rw [takeSpent, run]; rfl⟩
  generalize ([] : List (OutPoint × UTXO)) = spent
  induction inputs generalizing existing spent with
  | nil => simp at repeated
  | cons op ops ih =>
    rw [List.foldlM_cons]
    cases hop : existing.read op with
    | none => exact ⟨.utxoNotFound op, by rw [takeEntry_none hop, bind_error]⟩
    | some utxo =>
      rw [takeEntry_some hop, bind_ok]
      by_cases again : op ∈ ops
      · exact takeSpent_loop_error again (by rw [Table.read_erase, Function.update_self])
      · exact ih _ (fun h => repeated (List.nodup_cons.mpr ⟨again, h⟩)) _

end TakeSpent

/-- The laws of a write view, with the entries it takes. A backend that compares an entry with its
key takes only keyed ones, a plain map takes all. -/
structure UtxoLaws (S : Type) [UtxoWrite S] where
  Sound : S → Prop
  coins : S → Coins
  Rest : Type
  rest : S → Rest
  Fits : OutPoint × UTXO → Prop
  fits_keyed : ∀ {entry : OutPoint × UTXO}, Keyed entry → Fits entry
  fits_stored : ∀ {s : S} {o : OutPoint} {u : UTXO}, Sound s → coins s o = some u → Fits (o, u)
  getUtxo_eq : ∀ {s : S} (o : OutPoint), Sound s → getUtxo s o = .ok (coins s o)
  batchPutUtxos_ok : ∀ {s : S} {entries : List (OutPoint × UTXO)}, Sound s →
    (∀ entry ∈ entries, Fits entry) → ∃ s', batchPutUtxos s entries = .ok s' ∧ Sound s' ∧
      coins s' = putAll entries (coins s) ∧ rest s' = rest s
  batchRemoveUtxos_ok : ∀ {s : S} {outpoints : List OutPoint}, Sound s → outpoints.Nodup →
    (∀ o ∈ outpoints, coins s o ≠ none) → ∃ s', batchRemoveUtxos s outpoints = .ok s' ∧
      Sound s' ∧ coins s' = eraseAll outpoints (coins s) ∧ rest s' = rest s
  batchRemoveUtxos_error : ∀ {s : S} {outpoints : List OutPoint} {o : OutPoint}, Sound s →
    o ∈ outpoints → coins s o = none → ∃ error, batchRemoveUtxos s outpoints = .error error

/-- A lawful view takes the keyed entries. -/
def LawfulUtxoWrite.laws (S : Type) [UtxoWrite S] [LawfulUtxoWrite S] : UtxoLaws S where
  Sound := Sound
  coins := coins
  Rest := Rest S
  rest := rest
  Fits := Keyed
  fits_keyed keyed := keyed
  fits_stored sound present := wellKeyed sound _ _ present
  getUtxo_eq := getUtxo_eq
  batchPutUtxos_ok := batchPutUtxos_ok
  batchRemoveUtxos_ok := batchRemoveUtxos_ok
  batchRemoveUtxos_error := batchRemoveUtxos_error

/-- A record that can be played back: its outpoints differ and its entries agree with their
keys. -/
structure Coins.UndoOk (undo : BlockUndo) : Prop where
  created : undo.createdOutpoints.Nodup
  spent : (undo.spentUtxos.map Prod.fst).Nodup
  keyed : ∀ entry ∈ undo.spentUtxos, Keyed entry

namespace UtxoLaws

variable {S : Type} [UtxoWrite S] (laws : UtxoLaws S) {s s' : S}

/-- The view `s'` is `s` with another map. -/
def Updates (s s' : S) (m : Coins) : Prop :=
  laws.Sound s' ∧ laws.coins s' = m ∧ laws.rest s' = laws.rest s

theorem reads (sound : laws.Sound s) : Reads s (laws.coins s) := fun o => laws.getUtxo_eq o sound

/-- A record that the view can play back. -/
structure Playable (undo : BlockUndo) : Prop where
  created : undo.createdOutpoints.Nodup
  spent : (undo.spentUtxos.map Prod.fst).Nodup
  fits : ∀ entry ∈ undo.spentUtxos, laws.Fits entry

variable {laws} [Primitives] {block : Block}

theorem spendInputs_ok (sound : laws.Sound s)
    (applicable : Coins.Applicable block (laws.coins s)) :
    ∃ s', spendInputs s block.external =
        .ok ((Coins.undo block (laws.coins s)).spentUtxos, s') ∧
      laws.Updates s s' (eraseAll block.external (laws.coins s)) := by
  obtain ⟨distinct, present⟩ := applicable
  unfold spendInputs Coins.undo
  generalize block.external = inputs at distinct present
  cases inputs with
  | nil => exact ⟨s, rfl, sound, by simp, rfl⟩
  | cons o os =>
    obtain ⟨found, fetch, lookup⟩ := batchGetUtxos_ok (laws.reads sound) present
    have fetched : ∀ o' ∈ o :: os,
        found.read o' = laws.coins s o' ∧ laws.coins s o' ≠ none :=
      fun o' ho => ⟨by rw [lookup, if_pos ho], present o' ho⟩
    have take := takeSpent_ok distinct fetched
    obtain ⟨s', remove, updates⟩ := laws.batchRemoveUtxos_ok sound distinct present
    refine ⟨s', ?_, updates⟩
    simp [fetch, take, remove]

theorem spendInputs_error (sound : laws.Sound s)
    (blocked : ¬ Coins.Applicable block (laws.coins s)) :
    ∃ error, spendInputs s block.external = .error error := by
  unfold Coins.Applicable at blocked
  unfold spendInputs
  generalize block.external = inputs at blocked
  cases inputs with
  | nil => simp at blocked
  | cons o os =>
    by_cases present : ∀ o' ∈ o :: os, laws.coins s o' ≠ none
    · obtain ⟨found, fetch, -⟩ := batchGetUtxos_ok (laws.reads sound) present
      have repeated : ¬ (o :: os).Nodup := fun distinct => blocked ⟨distinct, present⟩
      obtain ⟨error, take⟩ := takeSpent_error found repeated
      exact ⟨error, by simp [fetch, take]⟩
    · push Not at present
      obtain ⟨o', mem, absent⟩ := present
      obtain ⟨missing, -, -, fetch⟩ := batchGetUtxos_error (laws.reads sound) mem absent
      exact ⟨_, by simp only [List.isEmpty_cons, Bool.false_eq_true, if_false, fetch]; rfl⟩

theorem putCreated_ok (sound : laws.Sound s) (block : Block) :
    ∃ s', putCreated s block.created = .ok s' ∧
      laws.Updates s s' (putAll block.created.toPairs (laws.coins s)) := by
  unfold putCreated
  split
  · rename_i empty
    have none : block.created.toPairs = [] := by
      rw [← List.map_eq_nil_iff (f := Prod.fst), Table.toPairs_keys]
      exact List.isEmpty_iff.mp empty
    exact ⟨s, rfl, sound, by rw [none, putAll_nil], rfl⟩
  · have fits : ∀ entry ∈ iter block.created.toPairs, laws.Fits entry := fun entry mem =>
      laws.fits_keyed (keyed_created block _ _ (Table.mem_toPairs.mp (mem_iter.mp mem)))
    obtain ⟨s', put, sound', map, frame⟩ := laws.batchPutUtxos_ok sound fits
    refine ⟨s', put, sound', ?_, frame⟩
    rw [map]
    exact (putAll_perm (iter_perm _).symm (Table.nodup_toPairs_keys _) _).symm

/-- `apply_block` carries out `Coins.apply` and returns its undo record. -/
theorem applyBlock_ok (sound : laws.Sound s)
    (applicable : Coins.Applicable block (laws.coins s)) :
    ∃ s', applyBlock block s = .ok (Coins.undo block (laws.coins s), s') ∧
      laws.Updates s s' (Coins.apply block (laws.coins s)) := by
  obtain ⟨middle, spend, soundMiddle, mapMiddle, frameMiddle⟩ := spendInputs_ok sound applicable
  obtain ⟨last, put, soundLast, mapLast, frameLast⟩ := putCreated_ok soundMiddle block
  refine ⟨last, ?_, soundLast, ?_, frameLast.trans frameMiddle⟩
  · change (spendInputs s block.external >>= fun x => _) = _
    rw [spend, bind_ok]
    change (putCreated middle block.created >>= fun x => _) = _
    rw [put]
    rfl
  · rw [mapLast, mapMiddle]
    rfl

theorem applyBlock_error (sound : laws.Sound s)
    (blocked : ¬ Coins.Applicable block (laws.coins s)) :
    ∃ error, applyBlock block s = .error error := by
  obtain ⟨error, spend⟩ := spendInputs_error sound blocked
  refine ⟨error, ?_⟩
  change (spendInputs s block.external >>= fun x => _) = _
  rw [spend]
  rfl

/-- What a successful `apply_block` says about the view before and after. -/
theorem applyBlock_eq_ok (sound : laws.Sound s) {undo : BlockUndo}
    (run : applyBlock block s = .ok (undo, s')) :
    Coins.Applicable block (laws.coins s) ∧ undo = Coins.undo block (laws.coins s) ∧
      laws.Updates s s' (Coins.apply block (laws.coins s)) := by
  by_cases applicable : Coins.Applicable block (laws.coins s)
  · obtain ⟨last, ok, updates⟩ := applyBlock_ok sound applicable
    rw [ok, Except.ok.injEq, Prod.mk.injEq] at run
    obtain ⟨rfl, rfl⟩ := run
    exact ⟨applicable, rfl, updates⟩
  · obtain ⟨error, failed⟩ := applyBlock_error sound applicable
    rw [failed] at run
    cases run

theorem playable_undo (sound : laws.Sound s)
    (applicable : Coins.Applicable block (laws.coins s)) :
    laws.Playable (Coins.undo block (laws.coins s)) :=
  ⟨block.created.keys_nodup, Coins.nodup_undo_spent_keys applicable, fun _ mem =>
    laws.fits_stored sound (Coins.mem_undo_spent mem).2⟩

/-- `rewind_block` carries out `Coins.rewind` when everything the record created is there. -/
theorem rewindBlock_ok (sound : laws.Sound s) {undo : BlockUndo} (playable : laws.Playable undo)
    (present : ∀ o ∈ undo.createdOutpoints, laws.coins s o ≠ none) :
    ∃ s', rewindBlock undo s = .ok s' ∧ laws.Updates s s' (Coins.rewind undo (laws.coins s)) := by
  have present' : ∀ o ∈ iter undo.createdOutpoints, laws.coins s o ≠ none :=
    fun o ho => present o (mem_iter.mp ho)
  have fits : ∀ entry ∈ iter undo.spentUtxos, laws.Fits entry :=
    fun entry mem => playable.fits entry (mem_iter.mp mem)
  obtain ⟨middle, remove, soundMiddle, mapMiddle, frameMiddle⟩ :=
    laws.batchRemoveUtxos_ok sound (nodup_iter.mpr playable.created) present'
  obtain ⟨last, put, soundLast, mapLast, frameLast⟩ := laws.batchPutUtxos_ok soundMiddle fits
  refine ⟨last, ?_, soundLast, ?_, frameLast.trans frameMiddle⟩
  · simp [rewindBlock, remove, put]
  · rw [mapLast, mapMiddle, Coins.rewind,
      ← putAll_perm (iter_perm undo.spentUtxos).symm playable.spent,
      eraseAll_congr fun k => mem_iter]

theorem rewindBlock_error (sound : laws.Sound s) {undo : BlockUndo} {o : OutPoint}
    (mem : o ∈ undo.createdOutpoints) (absent : laws.coins s o = none) :
    ∃ error, rewindBlock undo s = .error error := by
  obtain ⟨error, remove⟩ := laws.batchRemoveUtxos_error sound (mem_iter.mpr mem) absent
  exact ⟨error, by simp [rewindBlock, remove]⟩

end UtxoLaws

section Processor

open LawfulUtxoWrite

variable [Primitives] {S : Type} [UtxoWrite S] [LawfulUtxoWrite S] {s s' : S} {block : Block}

/-- `apply_block` carries out `Coins.apply` and returns its undo record. -/
theorem applyBlock_ok (sound : Sound s) (applicable : Coins.Applicable block (coins s)) :
    ∃ s', applyBlock block s = .ok (Coins.undo block (coins s), s') ∧
      Updates s s' (Coins.apply block (coins s)) :=
  (laws S).applyBlock_ok sound applicable

/-- What a successful `apply_block` says about the view before and after. -/
theorem applyBlock_eq_ok (sound : Sound s) {undo : BlockUndo}
    (run : applyBlock block s = .ok (undo, s')) :
    Coins.Applicable block (coins s) ∧ undo = Coins.undo block (coins s) ∧
      Updates s s' (Coins.apply block (coins s)) :=
  (laws S).applyBlock_eq_ok sound run

theorem Coins.undoOk {m : Coins} (keyed : m.WellKeyed) (applicable : Coins.Applicable block m) :
    Coins.UndoOk (Coins.undo block m) :=
  ⟨block.created.keys_nodup, Coins.nodup_undo_spent_keys applicable, Coins.undo_keyed keyed⟩

omit [Primitives] in
theorem Coins.UndoOk.playable {undo : BlockUndo} (undoOk : Coins.UndoOk undo) :
    (laws S).Playable undo :=
  ⟨undoOk.created, undoOk.spent, undoOk.keyed⟩

/-- `rewind_block` carries out `Coins.rewind` when everything the record created is there. -/
theorem rewindBlock_ok (sound : Sound s) {undo : BlockUndo} (undoOk : Coins.UndoOk undo)
    (present : ∀ o ∈ undo.createdOutpoints, coins s o ≠ none) :
    ∃ s', rewindBlock undo s = .ok s' ∧ Updates s s' (Coins.rewind undo (coins s)) :=
  (laws S).rewindBlock_ok sound undoOk.playable present

theorem rewindBlock_error (sound : Sound s) {undo : BlockUndo} {o : OutPoint}
    (mem : o ∈ undo.createdOutpoints) (absent : coins s o = none) :
    ∃ error, rewindBlock undo s = .error error :=
  (laws S).rewindBlock_error sound mem absent

/-- What a successful `rewind_block` says about the view before and after. -/
theorem rewindBlock_eq_ok (sound : Sound s) {undo : BlockUndo} (undoOk : Coins.UndoOk undo)
    (run : rewindBlock undo s = .ok s') :
    (∀ o ∈ undo.createdOutpoints, coins s o ≠ none) ∧
      Updates s s' (Coins.rewind undo (coins s)) := by
  by_cases present : ∀ o ∈ undo.createdOutpoints, coins s o ≠ none
  · obtain ⟨last, ok, updates⟩ := rewindBlock_ok sound undoOk present
    rw [ok, Except.ok.injEq] at run
    subst run
    exact ⟨present, updates⟩
  · push Not at present
    obtain ⟨o, mem, absent⟩ := present
    obtain ⟨error, failed⟩ := rewindBlock_error sound mem absent
    rw [failed] at run
    cases run

end Processor

end StryiChain
