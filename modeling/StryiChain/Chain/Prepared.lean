import StryiChain.Chain.Transitions

/-!
# Prepared branches against appended ones

A branch can be read in an overlay, and committed as one prepared reorganization; or it can be
appended block by block to a storage that holds only the chain below it. Validation cannot tell
the two views apart, and the two storages answer alike.
-/

namespace StryiChain

open LawfulStorage

section Prepared

variable [Primitives] {DB : Type} [FullNodeStorage DB]

/-- A number of rewinds. -/
def rewindTimes : Nat → ForkDbOverlay DB → Except StorageError (ForkDbOverlay DB)
  | 0, overlay => .ok overlay
  | n + 1, overlay => do
      let overlay ← overlay.rewindBlock
      rewindTimes n overlay

/-- The overlay that is opened at a block, rewound to it from so many blocks above, and replayed
with the blocks of a branch. -/
def branchOverlay (s : DB) (lca : BlockHash) (above : Nat) (bs : List Block) :
    Except StorageError (ForkDbOverlay DB) := do
  let overlay ← ForkDbOverlay.new s lca
  let overlay ← rewindTimes above overlay
  bs.foldlM ForkDbOverlay.replayBlock overlay

/-- Blocks appended one at a time. -/
def appendAll (s : DB) (bs : List Block) : Except StorageError DB :=
  bs.foldlM
    (fun s b => do
      let (_, s) ← commitTransition s (.append b)
      return s)
    s

/-- A storage that holds a chain and nothing else. -/
def growFrom (g : Block) (chainMetadata : ChainMetadata) (rest : List Block) :
    Except StorageError DB := do
  let (_, s) ← commitTransition (StorageWrite.initial : DB) (.genesis g chainMetadata)
  appendAll s rest

/-- Two storages answer alike about the canonical chain and about the given blocks of it. -/
structure SameReads {DB' : Type} [FullNodeStorage DB'] (s : DB) (s' : DB') (bs : List Block) :
    Prop where
  utxo : ∀ o, getUtxo s o = getUtxo s' o
  height : ∀ h, getBlockHashByHeight s h = getBlockHashByHeight s' h
  transaction : ∀ txid, getTransaction s txid = getTransaction s' txid
  state : chainState s = chainState s'
  index : ∀ b ∈ bs, getBlockIndex s b.blockHash = getBlockIndex s' b.blockHash
  undo : ∀ b ∈ bs, getBlockUndo s b.blockHash = getBlockUndo s' b.blockHash

end Prepared

section Branch

variable [Primitives] {DB : Type} [FullNodeStorage DB] [LawfulStorage DB] {U : Block → Prop}
  {s s' : DB} {p q r bs : List Block} {a b : Block} {overlay overlay' : ForkDbOverlay DB}

omit [LawfulStorage DB] in
/-- Replaying a branch as the engine does it, but for the layer of an error. -/
theorem replay_eq_ok (layer : StorageLayer) :
    bs.foldlM ForkDbOverlay.replayBlock overlay = .ok overlay' ↔
      replayAll layer overlay bs = .ok overlay' := by
  induction bs generalizing overlay with
  | nil => simp [replayAll]
  | cons b bs ih =>
    rw [replayAll, List.foldlM_cons, List.foldlM_cons]
    simp only [bind_eq_ok, mapError_eq_ok]
    exact exists_congr fun middle => and_congr_right fun _ => ih

/-- Rewinding a coherent storage down to the fork point. -/
theorem rewindTimes_ok (coherent : Coherent U s (p ++ q ++ r)) (ne : p ≠ [])
    (rewinding : overlay.Rewinding s p q r) :
    ∃ overlay', rewindTimes q.length overlay = .ok overlay' ∧
      overlay'.Rewinding s p [] (q ++ r) := by
  induction q using List.reverseRecOn generalizing overlay r with
  | nil => exact ⟨overlay, rfl, rewinding⟩
  | append_singleton q b ih =>
    have regroup : p ++ (q ++ [b]) ++ r = p ++ q ++ b :: r := by simp
    have present : ∀ o ∈ b.created.keys, overlay.coins o ≠ none := by
      rw [rewinding.coins_eq, coherent.unwind_eq, ← List.append_assoc, Coins.ledger_concat]
      exact fun o mem => Coins.apply_created_ne_none mem
    obtain ⟨middle, rewind⟩ := ForkDbOverlay.rewindBlock_ok coherent.sound rewinding
      coherent.chain coherent.represents ne coherent.applies present
    obtain ⟨-, next⟩ := ForkDbOverlay.rewindBlock_eq_ok coherent.sound rewinding coherent.chain
      coherent.represents ne coherent.applies rewind
    obtain ⟨overlay', rest, done⟩ := ih (regroup ▸ coherent) next
    refine ⟨overlay', ?_, by simpa using done⟩
    rw [List.length_append, List.length_singleton, rewindTimes, rewind, bind_ok, rest]

/-- The overlay at the fork point, before the branch is replayed. -/
theorem branchOverlay_start (coherent : Coherent U s (p ++ q)) (last : p.getLast? = some a) :
    ∃ rewound : ForkDbOverlay DB, rewound.Replayed s p q [] ∧ rewound.coins = Coins.ledger p ∧
      ∀ bs, branchOverlay s a.blockHash q.length bs =
        bs.foldlM ForkDbOverlay.replayBlock rewound := by
  have ne : p ≠ [] := by
    rintro rfl
    cases last
  obtain ⟨opened, start, rewinding⟩ :=
    ForkDbOverlay.new_ok coherent.sound coherent.chain coherent.represents last
  obtain ⟨rewound, rewind, reached⟩ :=
    rewindTimes_ok (by rw [List.append_nil]; exact coherent) ne rewinding
  rw [List.append_nil] at reached
  refine ⟨rewound, reached.replayed, ?_, ?_⟩
  · rw [reached.replayed.coins_eq, coherent.unwind_eq]
    rfl
  · intro bs
    rw [branchOverlay, start, bind_ok, rewind, bind_ok]

/-- Whatever overlay of a branch there is, it holds the branch. -/
theorem branchOverlay_eq_ok (coherent : Coherent U s (p ++ q)) (last : p.getLast? = some a)
    (branch : IsChain (p ++ bs)) (run : branchOverlay s a.blockHash q.length bs = .ok overlay) :
    overlay.Replayed s p q bs := by
  obtain ⟨rewound, replayed, -, replay⟩ := branchOverlay_start coherent last
  rw [replay, replay_eq_ok .utxo] at run
  have ne : p ≠ [] := by
    rintro rfl
    cases last
  obtain ⟨-, -, done⟩ := replayAll_eq_ok replayed (by simpa using branch.distinct)
    (by simpa using branch.left ne) run
  simpa using done

/-- A branch of applicable blocks can be replayed over a coherent storage. -/
theorem branchOverlay_ok (coherent : Coherent U s (p ++ q)) (last : p.getLast? = some a)
    (branch : IsChain (p ++ bs)) (applies : Coins.Applies (Coins.ledger p) bs) :
    ∃ overlay, branchOverlay s a.blockHash q.length bs = .ok overlay := by
  obtain ⟨rewound, replayed, coins, replay⟩ := branchOverlay_start coherent last
  have ne : p ≠ [] := by
    rintro rfl
    cases last
  obtain ⟨overlay, run⟩ := replayAll_ok .utxo replayed ne (by simpa using branch)
    (by rw [coins]; exact applies)
  exact ⟨overlay, by rw [replay]; exact (replay_eq_ok .utxo).mpr run⟩

end Branch

section Agreement

variable [Primitives] {DB DB' : Type} [FullNodeStorage DB] [LawfulStorage DB]
  [FullNodeStorage DB'] [LawfulStorage DB'] {U : Block → Prop} {s : DB} {s' : DB'}
  {p q bs : List Block} {a b : Block} {overlay : ForkDbOverlay DB}

/-- A branch is judged in its overlay as on a storage that has it as its canonical chain. -/
theorem validateForFork_agrees (free : HashesIdentify U) (reached : Reached U s)
    (split : canonicalBlocks s = p ++ q) (last : p.getLast? = some a)
    (view : branchOverlay s a.blockHash q.length bs = .ok overlay) (reached' : Reached U s')
    (branch : canonicalBlocks s' = p ++ bs) (validator : BlockValidator) (nowSecs : UInt64)
    (b : Block) :
    validator.validateForFork nowSecs b overlay = .ok () ↔
      validator.validate nowSecs b s' = .ok () := by
  obtain ⟨w, coherent⟩ := reached.coherent free
  obtain rfl : w = p ++ q := by rw [← coherent.blocks_eq, split]
  obtain ⟨w', coherent'⟩ := reached'.coherent free
  obtain rfl : w' = p ++ bs := by rw [← coherent'.blocks_eq, branch]
  have ne : p ≠ [] := by
    rintro rfl
    cases last
  have replayed := branchOverlay_eq_ok coherent last coherent'.chain view
  have views := views_overlay coherent.sound coherent.chain coherent.represents.holds
    coherent'.chain ne replayed
  have views' := views_storage coherent'.sound coherent'.chain coherent'.represents.holds
  have coins : overlay.coins = (tables s').utxo := by
    rw [replayed.coins_eq, coherent.unwind_eq, ← Coins.ledger_append, coherent'.exact]
  rw [coins] at views
  exact views.validate_iff views'

/-- Two coherent storages of one chain answer alike. -/
theorem Coherent.sameReads (coherent : Coherent U s (p ++ bs))
    (coherent' : Coherent U s' (p ++ bs)) (ne : p ≠ []) : SameReads s s' bs := by
  have sound := coherent.sound
  have sound' := coherent'.sound
  have holds := coherent.represents.holds
  have holds' := coherent'.represents.holds
  have position : ∀ b ∈ bs, ∃ i, (p ++ bs)[i]? = some b ∧ 0 < i := by
    intro b mem
    obtain ⟨i, at_i⟩ := List.mem_iff_getElem?.mp mem
    refine ⟨p.length + i, ?_, ?_⟩
    · rw [List.getElem?_append_right (by omega), Nat.add_sub_cancel_left, at_i]
    · have pos := List.length_pos_iff.mpr ne
      omega
  refine ⟨?_, ?_, ?_, ?_, ?_, ?_⟩
  · intro o
    rw [getUtxo_eq o sound, getUtxo_eq o sound', coherent.exact, coherent'.exact]
  · intro h
    rw [getBlockHashByHeight_eq h sound, getBlockHashByHeight_eq h sound', holds.height,
      holds'.height]
  · intro txid
    cases found : confirmed (p ++ bs) txid with
    | none =>
      rw [getTransaction_none sound (by rw [coherent.locates.transaction, found]),
        getTransaction_none sound' (by rw [coherent'.locates.transaction, found])]
    | some location =>
      obtain ⟨b, inside, tx, block, height, at_position, hash⟩ := coherent.locates.located found
      rw [coherent.locates.getTransaction_eq sound holds found inside block height at_position hash,
        coherent'.locates.getTransaction_eq sound' holds' found inside block height at_position
          hash]
  · rw [chainState_eq sound, chainState_eq sound', coherent.represents.state,
      coherent'.represents.state]
  · intro b mem
    obtain ⟨i, at_i, -⟩ := position b mem
    rw [getBlockIndex_eq _ sound, getBlockIndex_eq _ sound', holds.index at_i, holds'.index at_i]
  · intro b mem
    obtain ⟨i, at_i, pos⟩ := position b mem
    rw [getBlockUndo_eq _ sound, getBlockUndo_eq _ sound', holds.undo at_i pos,
      holds'.undo at_i pos]

omit [LawfulStorage DB] in
theorem appendAll_cons (s : DB) (b : Block) (bs : List Block) :
    appendAll s (b :: bs) =
      (commitTransition s (.append b) >>= fun result => appendAll result.2 bs) := by
  rw [appendAll, List.foldlM_cons]
  cases commitTransition s (.append b) <;> rfl

/-- Appended blocks make the chain longer. -/
theorem Coherent.appendAll {s s' : DB} {w : List Block} (coherent : Coherent U s w)
    (free : HashesIdentify U) (inside : ∀ b ∈ bs, U b) (distinct : (txidsOf (w ++ bs)).Nodup)
    (run : StryiChain.appendAll s bs = .ok s') : Coherent U s' (w ++ bs) := by
  induction bs generalizing s w with
  | nil =>
    rw [StryiChain.appendAll, List.foldlM_nil, pure_eq_ok] at run
    subst run
    rw [List.append_nil]
    exact coherent
  | cons b bs ih =>
    rw [appendAll_cons, bind_eq_ok] at run
    obtain ⟨⟨result, middle⟩, one, rest⟩ := run
    rw [List.append_cons] at distinct ⊢
    have first : (txidsOf (w ++ [b])).Nodup := by
      rw [txidsOf, List.flatMap_append] at distinct
      exact (List.nodup_append.mp distinct).1
    have next := coherent.append free (inside b List.mem_cons_self) one first
    exact ih next (fun x mem => inside x (List.mem_cons_of_mem _ mem)) distinct rest

/-- A storage that holds a chain and nothing else is coherent. -/
theorem Coherent.growFrom {s : DB} {g : Block} {chainMetadata : ChainMetadata}
    {rest : List Block} (free : HashesIdentify U) (inside : ∀ b ∈ g :: rest, U b)
    (distinct : (txidsOf (g :: rest)).Nodup)
    (run : StryiChain.growFrom g chainMetadata rest = .ok s) : Coherent U s (g :: rest) := by
  rw [StryiChain.growFrom, bind_eq_ok] at run
  obtain ⟨⟨result, start⟩, genesis, appends⟩ := run
  have coherent := Coherent.genesis (inside g List.mem_cons_self) genesis
  exact coherent.appendAll free (fun b mem => inside b (List.mem_cons_of_mem _ mem)) distinct
    appends

/-- Appended blocks are transitions. -/
theorem Reached.appendAll {s s' : DB} {w : List Block} (reached : Reached U s)
    (coherent : Coherent U s w) (free : HashesIdentify U) (inside : ∀ b ∈ bs, U b)
    (distinct : (txidsOf (w ++ bs)).Nodup) (run : StryiChain.appendAll s bs = .ok s') :
    Reached U s' := by
  induction bs generalizing s w with
  | nil =>
    rw [StryiChain.appendAll, List.foldlM_nil, pure_eq_ok] at run
    exact run ▸ reached
  | cons b bs ih =>
    rw [appendAll_cons, bind_eq_ok] at run
    obtain ⟨⟨result, middle⟩, one, rest⟩ := run
    rw [List.append_cons] at distinct
    have first : (txidsOf (w ++ [b])).Nodup := by
      rw [txidsOf, List.flatMap_append] at distinct
      exact (List.nodup_append.mp distinct).1
    have own := inside b List.mem_cons_self
    have next := coherent.append free own one first
    exact ih (.append reached own one (by rw [next.blocks_eq]; exact first)) next
      (fun x mem => inside x (List.mem_cons_of_mem _ mem)) distinct rest

theorem Reached.growFrom {s : DB} {g : Block} {chainMetadata : ChainMetadata} {rest : List Block}
    (free : HashesIdentify U) (inside : ∀ b ∈ g :: rest, U b)
    (distinct : (txidsOf (g :: rest)).Nodup)
    (run : StryiChain.growFrom g chainMetadata rest = .ok s) : Reached U s := by
  rw [StryiChain.growFrom, bind_eq_ok] at run
  obtain ⟨⟨result, start⟩, genesis, appends⟩ := run
  have own := inside g List.mem_cons_self
  have reached : Reached U start := .genesis own genesis
  exact reached.appendAll (Coherent.genesis own genesis) free
    (fun b mem => inside b (List.mem_cons_of_mem _ mem)) distinct appends

/-- A branch that can be appended to the chain below it can be prepared in an overlay and committed
as a reorganization, which leaves a storage that answers alike. -/
theorem reorganize_eq_append {g : Block} {chainMetadata : ChainMetadata} {rest : List Block}
    {s0 s1 : DB'} (free : HashesIdentify U) (reached : Reached U s)
    (split : canonicalBlocks s = g :: rest ++ q) (last : (g :: rest).getLast? = some a)
    (inside : ∀ b ∈ bs, U b) (nonempty : bs ≠ [])
    (distinct : (txidsOf (g :: rest ++ bs)).Nodup)
    (grown : growFrom g chainMetadata rest = .ok s0) (appended : appendAll s0 bs = .ok s1) :
    ∃ overlay delta result s', branchOverlay s a.blockHash q.length bs = .ok overlay ∧
      overlay.intoDelta = .ok delta ∧
      commitTransition s (.reorganize delta) = .ok (result, s') ∧ SameReads s' s1 bs := by
  obtain ⟨w, coherent⟩ := reached.coherent free
  obtain rfl : w = g :: rest ++ q := by rw [← coherent.blocks_eq, split]
  have lower : (txidsOf (g :: rest)).Nodup := by
    rw [txidsOf, List.flatMap_append] at distinct
    exact (List.nodup_append.mp distinct).1
  have below : Coherent U s0 (g :: rest) :=
    Coherent.growFrom free (fun b mem => coherent.inside b (List.mem_append_left _ mem)) lower grown
  have coherent1 := below.appendAll free inside distinct appended
  have applies := (Coins.applies_append.mp coherent1.applies).2
  obtain ⟨overlay, view⟩ := branchOverlay_ok coherent last coherent1.chain applies
  have holding : overlay.Holding U s (g :: rest) q bs :=
    ⟨branchOverlay_eq_ok coherent last coherent1.chain view, coherent1.chain, inside, applies⟩
  obtain ⟨delta, prepared, -⟩ :=
    ForkDbOverlay.intoDelta_ok holding.replayed holding.chain nonempty
  have replacement := holding.replacement coherent (by simp) nonempty prepared
  have attachable : Attachable (tables s) (g :: rest) bs := by
    refine ⟨holding.chain, coherent1.represents.fits, ?_, ?_⟩
    · intro b mem saved found
      exact free saved b (coherent.stored _ saved found) (inside b mem)
        ((wellFormed coherent.sound).body found)
    · intro b mem
      exact coherent1.locates.fits b (List.mem_append_right _ mem)
  obtain ⟨⟨result, s'⟩, committed⟩ :=
    reorganize_ok replacement coherent.archived attachable nonempty
  refine ⟨overlay, delta, result, s', view, prepared, committed, ?_⟩
  have coherent' := coherent.reorganize free holding (by simp) nonempty prepared committed distinct
  exact coherent'.sameReads coherent1 (by simp)

end Agreement

namespace Sample

/-- The blocks of the samples. -/
def Known (b : Block) : Prop := b ∈ [genesis, rival, other, next]

theorem known_identified : HashesIdentify Known := by
  have apart : ∀ a ∈ [genesis, rival, other, next], ∀ b ∈ [genesis, rival, other, next],
      a.blockHash = b.blockHash → a = b := by decide +kernel
  exact fun a b ha hb same => apart a ha b hb same

/-- A database that holds the given blocks above genesis. -/
def grown (rest : List Block) : Except StorageError RocksView :=
  growFrom genesis ⟨2, "sample", 1, 0⟩ rest

theorem reached_grown {rest : List Block} {s : RocksView} (run : grown rest = .ok s)
    (inside : ∀ b ∈ genesis :: rest, b ∈ [genesis, rival, other, next])
    (distinct : (txidsOf (genesis :: rest)).Nodup) : Reached Known s :=
  Reached.growFrom known_identified inside distinct run

end Sample

open Sample in
/-- A block above a branch that leaves the chain at genesis. -/
theorem validateForFork_agrees_sample : ∃ s overlay s',
    grown [rival] = .ok s ∧ Reached Known s ∧
    branchOverlay s genesis.blockHash 1 [other] = .ok overlay ∧
    grown [other] = .ok s' ∧ Reached Known s' ∧
    (validator.validateForFork 1000 next overlay = .ok () ↔
      validator.validate 1000 next s' = .ok ()) := by
  have built : (grown [rival]).toOption.any (fun s => canonicalBlocks s = [genesis, rival] ∧
      (branchOverlay s genesis.blockHash 1 [other]).toOption.any (fun _ => true) = true) =
        true := by decide +kernel
  have built' : (grown [other]).toOption.any (fun s => canonicalBlocks s = [genesis, other]) =
      true := by decide +kernel
  obtain ⟨s, run, reads⟩ := exists_ok_of_any built
  rw [decide_eq_true_eq] at reads
  obtain ⟨overlay, view, -⟩ := exists_ok_of_any reads.2
  obtain ⟨s', run', reads'⟩ := exists_ok_of_any built'
  rw [decide_eq_true_eq] at reads'
  have reached := reached_grown run (by decide +kernel) (by decide +kernel)
  have reached' := reached_grown run' (by decide +kernel) (by decide +kernel)
  refine ⟨s, overlay, s', run, reached, view, run', reached', ?_⟩
  exact validateForFork_agrees (p := [genesis]) (q := [rival]) known_identified reached reads.1 rfl
    view reached' reads' validator 1000 next

open Sample in
/-- A branch of two blocks that replaces one. -/
theorem reorganize_eq_append_sample : ∃ s s0 s1,
    grown [rival] = .ok s ∧ Reached Known s ∧ grown [] = .ok s0 ∧
    appendAll s0 [other, next] = .ok s1 ∧
    ∃ overlay delta result s', branchOverlay s genesis.blockHash 1 [other, next] = .ok overlay ∧
      overlay.intoDelta = .ok delta ∧
      commitTransition s (.reorganize delta) = .ok (result, s') ∧
      SameReads s' s1 [other, next] := by
  have built : (grown [rival]).toOption.any (fun s => canonicalBlocks s = [genesis, rival]) =
      true := by decide +kernel
  have built' : (grown []).toOption.any (fun s =>
      (appendAll s [other, next]).toOption.any (fun _ => true) = true) = true := by decide +kernel
  obtain ⟨s, run, reads⟩ := exists_ok_of_any built
  rw [decide_eq_true_eq] at reads
  obtain ⟨s0, run0, appends⟩ := exists_ok_of_any built'
  rw [decide_eq_true_eq] at appends
  obtain ⟨s1, appended, -⟩ := exists_ok_of_any appends
  have reached := reached_grown run (by decide +kernel) (by decide +kernel)
  have inside : ∀ b ∈ [other, next], Known b := by
    change ∀ b ∈ [other, next], b ∈ [genesis, rival, other, next]
    decide +kernel
  have split : canonicalBlocks s = genesis :: [] ++ [rival] := reads
  refine ⟨s, s0, s1, run, reached, run0, appended, ?_⟩
  exact reorganize_eq_append known_identified reached split rfl inside (by simp)
    (by decide +kernel) run0 appended

end StryiChain
