import StryiChain.Utxo.Processor

/-!
# Blocks as updates of a UTXO map

What a block does to the UTXO set, as a function on lookup functions. `Coins.apply` and
`Coins.rewind` are the abstract counterparts of `apply_block` and `rewind_block`. A block is
fresh on a map when it overwrites nothing that it does not consume itself; only fresh blocks are
undone exactly, the others lose what they overwrote.
-/

namespace StryiChain

variable [Primitives]

/-- A UTXO set, as its lookup function. -/
abbrev Coins := OutPoint → Option UTXO

/-- The inputs of a block that have to be present before it. -/
def Block.external (block : Block) : List OutPoint := (BlockScan.ofBlock block).externalInputs

/-- The outputs of a block that survive it. -/
def Block.created (block : Block) : Table OutPoint UTXO := (BlockScan.ofBlock block).createdUtxos

/-- An entry agrees with its key. -/
def Keyed (entry : OutPoint × UTXO) : Prop :=
  entry.2.txid = entry.1.txid ∧ entry.2.vout = entry.1.vout

namespace Coins

/-- Every entry of the map agrees with its key. -/
def WellKeyed (m : Coins) : Prop := ∀ o u, m o = some u → Keyed (o, u)

/-- The block can be applied: its external inputs are distinct and present. -/
def Applicable (block : Block) (m : Coins) : Prop :=
  block.external.Nodup ∧ ∀ o ∈ block.external, m o ≠ none

instance (block : Block) (m : Coins) : Decidable (Applicable block m) :=
  inferInstanceAs (Decidable (_ ∧ _))

/-- The map after the block. -/
def apply (block : Block) (m : Coins) : Coins :=
  putAll block.created.toPairs (eraseAll block.external m)

/-- The undo record of the block. The set of spent entries is filled from the front. -/
def undo (block : Block) (m : Coins) : BlockUndo where
  spentUtxos := (block.external.filterMap fun o => (m o).map fun u => (o, u)).reverse
  createdOutpoints := block.created.keys

/-- The map after an undo record has been played back. -/
def rewind (undo : BlockUndo) (m : Coins) : Coins :=
  putAll undo.spentUtxos (eraseAll undo.createdOutpoints m)

/-- The block overwrites nothing that it does not consume. -/
def Fresh (block : Block) (m : Coins) : Prop :=
  ∀ o ∈ block.created.keys, m o = none ∨ o ∈ block.external

instance (block : Block) (m : Coins) : Decidable (Fresh block m) :=
  inferInstanceAs (Decidable (∀ _ ∈ _, _))

end Coins

open Coins

section Scan

/-- Nothing in a table of created outputs disagrees with its key. -/
def TableKeyed (t : Table OutPoint UTXO) : Prop := ∀ o u, t.read o = some u → Keyed (o, u)

theorem keyed_createdUtxos {tx : Transaction} {entry : OutPoint × UTXO}
    (mem : entry ∈ tx.createdUtxos) : Keyed entry := by
  obtain ⟨⟨output, index⟩, -, rfl⟩ := List.mem_map.mp mem
  exact ⟨rfl, rfl⟩

/-- Whatever holds of the outputs of the transactions holds of the outputs that survive the scan. -/
theorem BlockScan.created_all {P : OutPoint → UTXO → Prop} (txs : List Transaction)
    (own : ∀ tx ∈ txs, ∀ entry ∈ tx.createdUtxos, P entry.1 entry.2) (scan : BlockScan)
    (old : ∀ o u, scan.createdUtxos.read o = some u → P o u) :
    ∀ o u, (txs.foldl BlockScan.transaction scan).createdUtxos.read o = some u → P o u := by
  have inputs : ∀ (ops : List OutPoint) (scan : BlockScan),
      (∀ o u, scan.createdUtxos.read o = some u → P o u) →
      ∀ o u, (ops.foldl BlockScan.input scan).createdUtxos.read o = some u → P o u := by
    intro ops
    induction ops with
    | nil => exact fun _ old => old
    | cons op ops ih =>
      intro scan old
      apply ih
      intro o u present
      unfold BlockScan.input at present
      split at present
      · rw [Table.read_erase] at present
        by_cases same : o = op
        · subst same
          simp at present
        · rw [Function.update_of_ne same] at present
          exact old o u present
      · exact old o u present
  induction txs generalizing scan with
  | nil => exact old
  | cons tx txs ih =>
    apply ih fun tx' mem => own tx' (List.mem_cons_of_mem _ mem)
    intro o u present
    change (Table.insertAll _ _).read o = some u at present
    rw [Table.read_insertAll] at present
    rcases putAll_eq_some present with mem | ⟨-, before⟩
    · exact own tx List.mem_cons_self (o, u) mem
    · exact inputs tx.paymentInputs scan old o u before

/-- The surviving outputs of a block are stored under their own outpoints. -/
theorem keyed_created (block : Block) : TableKeyed block.created :=
  BlockScan.created_all block.data.transactions (fun _ _ _ mem => keyed_createdUtxos mem) ⟨∅, []⟩
    (by simp)

/-- What a block creates carries the hash of one of its transactions. -/
theorem created_txid {block : Block} {o : OutPoint} {u : UTXO}
    (present : block.created.read o = some u) :
    ∃ tx ∈ block.data.transactions, o.txid = tx.data.hash := by
  apply BlockScan.created_all (P := fun o _ => ∃ tx ∈ block.data.transactions,
    o.txid = tx.data.hash) block.data.transactions _ ⟨∅, []⟩ (by simp) o u present
  intro tx mem entry created
  obtain ⟨_, -, rfl⟩ := List.mem_map.mp created
  exact ⟨tx, mem, rfl⟩

end Scan

namespace Coins

variable {block : Block} {m m' : Coins}

theorem apply_apply_eq (block : Block) (m : Coins) (o : OutPoint) :
    apply block m o = (block.created.read o).or (eraseAll block.external m o) :=
  Table.putAll_toPairs _ _ _

/-- What a map below another one can apply, the other one can apply too. -/
theorem Applicable.mono (below : Submap m m') (applicable : Applicable block m) :
    Applicable block m' := by
  refine ⟨applicable.1, fun o ho => ?_⟩
  obtain ⟨u, hu⟩ := Option.ne_none_iff_exists'.mp (applicable.2 o ho)
  simp [below o u hu]

theorem apply_mono (below : Submap m m') (block : Block) :
    Submap (apply block m) (apply block m') := below.update _ _

/-- The undo record only reads entries that are present, so a map above gives the same one. -/
theorem undo_mono (below : Submap m m') (applicable : Applicable block m) :
    undo block m = undo block m' := by
  have same : ∀ o ∈ block.external, m o = m' o := by
    intro o ho
    obtain ⟨u, hu⟩ := Option.ne_none_iff_exists'.mp (applicable.2 o ho)
    rw [hu, below o u hu]
  have spent : (block.external.filterMap fun o => (m o).map fun u => (o, u)) =
      block.external.filterMap fun o => (m' o).map fun u => (o, u) :=
    List.filterMap_congr fun o ho => by rw [same o ho]
  simp only [undo, spent]

theorem apply_wellKeyed (keyed : WellKeyed m) (block : Block) : WellKeyed (apply block m) := by
  intro o u present
  rcases putAll_eq_some present with mem | ⟨-, old⟩
  · exact keyed_created block o u (Table.mem_toPairs.mp mem)
  · by_cases h : o ∈ block.external
    · simp [eraseAll_of_mem h] at old
    · exact keyed o u (by rwa [eraseAll_of_notMem h] at old)

theorem mem_undo_spent {entry : OutPoint × UTXO} (mem : entry ∈ (undo block m).spentUtxos) :
    entry.1 ∈ block.external ∧ m entry.1 = some entry.2 := by
  simp only [undo, List.mem_reverse, List.mem_filterMap, Option.map_eq_some_iff] at mem
  obtain ⟨o, ho, u, hu, rfl⟩ := mem
  exact ⟨ho, hu⟩

/-- The spent entries are keyed by exactly the external inputs, in reverse order. -/
theorem undo_spent_keys (applicable : Applicable block m) :
    (undo block m).spentUtxos.map Prod.fst = block.external.reverse := by
  simp only [undo, List.map_reverse]
  congr 1
  have present := applicable.2
  generalize block.external = inputs at present ⊢
  induction inputs with
  | nil => rfl
  | cons o os ih =>
    obtain ⟨u, hu⟩ := Option.ne_none_iff_exists'.mp (present o (by simp))
    simp only [List.filterMap_cons, hu, Option.map_some, List.map_cons]
    rw [ih fun o ho => present o (List.mem_cons_of_mem _ ho)]

theorem mem_undo_spent_keys (applicable : Applicable block m) (o : OutPoint) :
    o ∈ (undo block m).spentUtxos.map Prod.fst ↔ o ∈ block.external := by
  rw [undo_spent_keys applicable, List.mem_reverse]

theorem nodup_undo_spent_keys (applicable : Applicable block m) :
    ((undo block m).spentUtxos.map Prod.fst).Nodup := by
  rw [undo_spent_keys applicable]
  exact List.nodup_reverse.mpr applicable.1

theorem undo_keyed (keyed : WellKeyed m) :
    ∀ entry ∈ (undo block m).spentUtxos, Keyed entry := by
  intro entry mem
  exact keyed _ _ (mem_undo_spent mem).2

/-- Undo is exact for a fresh block. -/
theorem rewind_apply (applicable : Applicable block m) (fresh : Fresh block m) :
    rewind (undo block m) (apply block m) = m := by
  have created : (undo block m).createdOutpoints = block.created.toPairs.map Prod.fst :=
    (Table.toPairs_keys _).symm
  rw [rewind, created]
  refine restore_eq (mem_undo_spent_keys applicable) (nodup_undo_spent_keys applicable)
    (fun e he => (mem_undo_spent he).2) ?_
  rw [Table.toPairs_keys]
  exact fresh

/-- Undo never leaves more than there was, fresh or not. -/
theorem rewind_submap (applicable : Applicable block m) (below : Submap m' (apply block m)) :
    Submap (rewind (undo block m) m') m := by
  have created : (undo block m).createdOutpoints = block.created.toPairs.map Prod.fst :=
    (Table.toPairs_keys _).symm
  rw [rewind, created]
  exact restore_submap (mem_undo_spent_keys applicable) (fun e he => (mem_undo_spent he).2) below

/-- What a block created is there after it. -/
theorem apply_created_ne_none {o : OutPoint} (mem : o ∈ block.created.keys) :
    apply block m o ≠ none := by
  rw [apply_apply_eq]
  obtain ⟨u, hu⟩ := Table.mem_keys_iff.mp mem
  simp [hu]

/-- One transaction on its own: its inputs, if it is a payment, are deleted and its outputs
inserted. -/
def transact (m : Coins) (tx : Transaction) : Coins :=
  putAll tx.createdUtxos (eraseAll tx.paymentInputs m)

/-- The map that the transactions of a list of blocks leave behind, one after the other, from
nothing. -/
def replay (blocks : List Block) : Coins :=
  (blocks.flatMap fun block => block.data.transactions).foldl transact fun _ => none

/-- The blocks of a list can be applied one after the other. -/
def Applies : Coins → List Block → Prop
  | _, [] => True
  | m, block :: blocks => Applicable block m ∧ Applies (apply block m) blocks

/-- The map after all blocks of a list. -/
def applyAll (blocks : List Block) (m : Coins) : Coins :=
  blocks.foldl (fun m block => apply block m) m

/-- The map that a chain leaves behind, from nothing. -/
def ledger (chain : List Block) : Coins := applyAll chain fun _ => none

@[simp] theorem applyAll_nil (m : Coins) : applyAll [] m = m := rfl

@[simp] theorem applyAll_cons (b : Block) (bs : List Block) (m : Coins) :
    applyAll (b :: bs) m = applyAll bs (apply b m) := rfl

theorem applyAll_append (bs bs' : List Block) (m : Coins) :
    applyAll (bs ++ bs') m = applyAll bs' (applyAll bs m) := List.foldl_append

theorem ledger_append (w bs : List Block) : ledger (w ++ bs) = applyAll bs (ledger w) :=
  applyAll_append _ _ _

theorem ledger_concat (w : List Block) (b : Block) : ledger (w ++ [b]) = apply b (ledger w) := by
  rw [ledger_append]
  rfl

theorem applies_append {bs bs' : List Block} {m : Coins} :
    Applies m (bs ++ bs') ↔ Applies m bs ∧ Applies (applyAll bs m) bs' := by
  induction bs generalizing m with
  | nil => simp [Applies]
  | cons b bs ih => simp [Applies, ih, and_assoc]

theorem applyAll_mono (below : Submap m m') (bs : List Block) :
    Submap (applyAll bs m) (applyAll bs m') := by
  induction bs generalizing m m' with
  | nil => exact below
  | cons b bs ih => exact ih (apply_mono below b)

theorem applyAll_wellKeyed (keyed : WellKeyed m) (bs : List Block) :
    WellKeyed (applyAll bs m) := by
  induction bs generalizing m with
  | nil => exact keyed
  | cons b bs ih => exact ih (apply_wellKeyed keyed b)

theorem ledger_wellKeyed (w : List Block) : WellKeyed (ledger w) :=
  applyAll_wellKeyed (fun o u h => by cases h) w

theorem finite_ledger (w : List Block) : {o | ledger w o ≠ none}.Finite := by
  induction w using List.reverseRecOn with
  | nil => simp [ledger]
  | append_singleton w b ih =>
    rw [ledger_concat]
    exact finite_update ih _ _

/-- The blocks of a list, each with the undo record it gets when they are applied in order. -/
def records : Coins → List Block → List (Block × BlockUndo)
  | _, [] => []
  | m, b :: bs => (b, undo b m) :: records (apply b m) bs

theorem records_concat (m : Coins) (bs : List Block) (b : Block) :
    records m (bs ++ [b]) = records m bs ++ [(b, undo b (applyAll bs m))] := by
  induction bs generalizing m with
  | nil => rfl
  | cons a bs ih => rw [List.cons_append, records, records, ih, List.cons_append, applyAll_cons]

@[simp] theorem map_fst_records (m : Coins) (bs : List Block) :
    (records m bs).map Prod.fst = bs := by
  induction bs generalizing m with
  | nil => rfl
  | cons b bs ih => rw [records, List.map_cons, ih]

/-- The records only read what is present, so a map above gives the same ones. -/
theorem records_mono {bs : List Block} (below : Submap m m') (applies : Applies m bs) :
    records m bs = records m' bs := by
  induction bs generalizing m m' with
  | nil => rfl
  | cons b bs ih =>
    rw [records, records, undo_mono below applies.1, ih (apply_mono below b) applies.2]

/-- Rewinds the blocks of `above`, the last one first, with the undo records they have on the
chain `below ++ above`. -/
def unwind : List Block → List Block → Coins → Coins
  | _, [], m => m
  | below, b :: above, m => rewind (undo b (ledger below)) (unwind (below ++ [b]) above m)

/-- Every block of `above` is fresh on the chain below it. -/
def FreshAbove : List Block → List Block → Prop
  | _, [] => True
  | below, b :: above => Fresh b (ledger below) ∧ FreshAbove (below ++ [b]) above

instance decidableFreshAbove : (below above : List Block) → Decidable (FreshAbove below above)
  | _, [] => isTrue trivial
  | below, b :: above =>
      have := decidableFreshAbove (below ++ [b]) above
      inferInstanceAs (Decidable (_ ∧ _))

theorem freshAbove_append {below above above' : List Block} :
    FreshAbove below (above ++ above') ↔
      FreshAbove below above ∧ FreshAbove (below ++ above) above' := by
  induction above generalizing below with
  | nil => simp [FreshAbove]
  | cons b above ih => simp [FreshAbove, ih, and_assoc]

/-- Blocks that are fresh from the first one on are fresh above every lower part. -/
theorem FreshAbove.split {g : Block} {rest p q : List Block} (fresh : FreshAbove [g] rest)
    (same : g :: rest = p ++ q) (ne : p ≠ []) : FreshAbove p q := by
  obtain ⟨first, below, rfl⟩ := List.exists_cons_of_ne_nil ne
  rw [List.cons_append, List.cons.injEq] at same
  obtain ⟨rfl, rfl⟩ := same
  exact (freshAbove_append.mp fresh).2

/-- Rewinding never leaves more than the chain below had. -/
theorem unwind_submap {below above : List Block}
    (applies : Applies (ledger below) above) (le : Submap m (ledger (below ++ above))) :
    Submap (unwind below above m) (ledger below) := by
  induction above generalizing below with
  | nil => simpa [unwind] using le
  | cons b above ih =>
    refine rewind_submap applies.1 ?_
    rw [← ledger_concat]
    exact ih (by rw [ledger_concat]; exact applies.2) (by simpa using le)

/-- Rewinding fresh blocks gives back the map of the chain below. -/
theorem unwind_eq {below above : List Block} (applies : Applies (ledger below) above)
    (fresh : FreshAbove below above) :
    unwind below above (ledger (below ++ above)) = ledger below := by
  induction above generalizing below with
  | nil => simp [unwind]
  | cons b above ih =>
    have later : Applies (ledger (below ++ [b])) above := by
      rw [ledger_concat]
      exact applies.2
    have rest := ih later fresh.2
    rw [List.append_assoc, List.singleton_append] at rest
    rw [unwind, rest, ledger_concat]
    exact rewind_apply applies.1 fresh.1

section Worth

omit [Primitives]

/-- The value held at an outpoint. -/
def worth (m : Coins) (o : OutPoint) : Nat := valueAt (fun u : UTXO => u.value.toNat) m o

/-- The value held at a list of outpoints. -/
def worthAll (m : Coins) (l : List OutPoint) : Nat := (l.map m.worth).sum

theorem worth_of_some {o : OutPoint} {u : UTXO} (present : m o = some u) :
    m.worth o = u.value.toNat := by
  simp [worth, valueAt, present]

@[simp] theorem worthAll_nil : m.worthAll [] = 0 := rfl

@[simp] theorem worthAll_cons (o : OutPoint) (l : List OutPoint) :
    m.worthAll (o :: l) = m.worth o + m.worthAll l := by simp [worthAll]

@[simp] theorem worthAll_append (l l' : List OutPoint) :
    m.worthAll (l ++ l') = m.worthAll l + m.worthAll l' := by simp [worthAll]

theorem worthAll_congr {l : List OutPoint} (same : ∀ o ∈ l, m o = m' o) :
    m.worthAll l = m'.worthAll l := by
  have each : ∀ o ∈ l, m.worth o = m'.worth o := by
    intro o mem
    simp only [worth, valueAt, same o mem]
  rw [worthAll, worthAll, List.map_congr_left each]

end Worth

end Coins

end StryiChain
