import StryiChain.Chain.Overlay

/-!
# Reorganizing the canonical chain

`stage_reorganization` detaches the blocks above the fork point, writes the prepared difference
of the UTXO set and attaches the prepared blocks with their undo records.
-/

namespace StryiChain

variable [Primitives]

namespace Tables

/-- The tables without the blocks of a list, the last one detached first. -/
def detachAll (t : Tables) (q : List Block) : Tables := q.foldr (fun b t => t.removeBlock b) t

/-- The tables with the blocks of a list attached above a chain. -/
def attachAll : Tables → List Block → List Block → Tables
  | t, _, [] => t
  | t, w, b :: bs =>
      attachAll (t.attach b (chainWork (w ++ [b])) (Coins.undo b (Coins.ledger w))) (w ++ [b]) bs

/-- The tables after the blocks `q` above `p` have been replaced by `bs`. -/
def reorganized (t : Tables) (p q bs : List Block) : Tables :=
  { (t.detachAll q).attachAll p bs with
    utxo := Coins.applyAll bs (Coins.unwind p q t.utxo)
    state := stateOf (p ++ bs) }

theorem detachAll_concat (t : Tables) (q : List Block) (b : Block) :
    t.detachAll (q ++ [b]) = (t.removeBlock b).detachAll q := by
  simp [detachAll]

/-- What detaching leaves alone. -/
theorem detachAll_frame (t : Tables) (q : List Block) :
    (t.detachAll q).utxo = t.utxo ∧ (t.detachAll q).block = t.block ∧
      (t.detachAll q).index = t.index ∧ (t.detachAll q).undo = t.undo ∧
      (t.detachAll q).state = t.state ∧ (t.detachAll q).metadata = t.metadata := by
  induction q with
  | nil => exact ⟨rfl, rfl, rfl, rfl, rfl, rfl⟩
  | cons b q ih => exact ih

/-- What attaching leaves alone. -/
theorem attachAll_frame (t : Tables) (w bs : List Block) :
    (t.attachAll w bs).utxo = t.utxo ∧ (t.attachAll w bs).state = t.state ∧
      (t.attachAll w bs).metadata = t.metadata := by
  induction bs generalizing t w with
  | nil => exact ⟨rfl, rfl, rfl⟩
  | cons b bs ih => exact ih _ _

theorem attachAll_with (t : Tables) (m : Coins) (st : Option ChainState) (w bs : List Block) :
    attachAll { t with utxo := m, state := st } w bs =
      { t.attachAll w bs with utxo := m, state := st } := by
  induction bs generalizing t w with
  | nil => rfl
  | cons b bs ih => exact ih (t.attach b _ _) _

/-- The bodies after a block has been attached. -/
theorem attach_block {t : Tables} {b x : Block} {work : Nat} {undo : BlockUndo} {hash : BlockHash}
    (found : (t.attach b work undo).block hash = some x) : t.block hash = some x ∨ x = b := by
  simp only [Tables.attach, Tables.putBlock] at found
  by_cases same : hash = b.blockHash
  · rw [same, Function.update_self, Option.some.injEq] at found
    exact .inr found.symm
  · rw [Function.update_of_ne same] at found
    exact .inl found

theorem appended_block {t : Tables} {w : List Block} {b x : Block} {hash : BlockHash}
    (found : (t.appended w b).block hash = some x) : t.block hash = some x ∨ x = b := by
  change (t.attach b (chainWork (w ++ [b])) (Coins.undo b t.utxo)).block hash = some x at found
  exact attach_block found

/-- The bodies after a reorganization. -/
theorem reorganized_block {t : Tables} {p q bs : List Block} {x : Block} {hash : BlockHash}
    (found : (t.reorganized p q bs).block hash = some x) : t.block hash = some x ∨ x ∈ bs := by
  have attached : ∀ (bs : List Block) (t : Tables) (w : List Block),
      (t.attachAll w bs).block hash = some x → t.block hash = some x ∨ x ∈ bs := by
    intro bs
    induction bs with
    | nil =>
      intro t w found
      exact .inl found
    | cons b bs ih =>
      intro t w found
      rcases ih (t.attach b _ _) _ found with old | later
      · rcases attach_block old with older | rfl
        · exact .inl older
        · exact .inr List.mem_cons_self
      · exact .inr (List.mem_cons_of_mem _ later)
  rcases attached bs (t.detachAll q) p found with old | new
  · rw [(t.detachAll_frame q).2.1] at old
    exact .inl old
  · exact .inr new

end Tables

section Archive

variable {t t' : Tables} {b : Block}

theorem Tables.LocatorsSound.congr (locators : t.LocatorsSound)
    (transaction : t'.transaction = t.transaction) (block : t'.block = t.block) :
    t'.LocatorsSound := by
  intro txid location found
  rw [transaction] at found
  obtain ⟨tx, body, stored, rest⟩ := locators txid location found
  exact ⟨tx, body, by rw [block, stored], rest⟩

theorem Tables.LocatorsSound.removeBlock (locators : t.LocatorsSound) (b : Block) :
    (t.removeBlock b).LocatorsSound := by
  intro txid location found
  simp only [Tables.removeBlock, unlocate] at found
  split at found
  · cases found
  · exact locators txid location found

/-- A new body brings locators that lead to its own transactions. -/
theorem Tables.LocatorsSound.putBlock (locators : t.LocatorsSound) {index : BlockIndexData}
    (accepts : t.Accepts b index) : (t.putBlock b index).LocatorsSound := by
  intro txid location found
  rcases putAll_eq_some found with own | ⟨-, old⟩
  · obtain ⟨⟨tx, i⟩, mem, entry⟩ := List.mem_map.mp own
    rw [Prod.mk.injEq] at entry
    obtain ⟨rfl, rfl⟩ := entry
    have at_i := List.mem_zipIdx_iff_getElem?.mp mem
    have bound := (List.getElem?_eq_some_iff.mp at_i).1
    have fits := accepts.fits
    refine ⟨tx, b, by simp [Tables.putBlock], rfl, ?_, rfl⟩
    dsimp only at at_i bound ⊢
    rw [UInt32.toNat_ofNat_of_lt' (by rw [UInt32.size]; omega), at_i]
  · obtain ⟨tx, body, stored, rest⟩ := locators txid location old
    refine ⟨tx, body, ?_, rest⟩
    simp only [Tables.putBlock]
    by_cases same : location.blockHash = b.blockHash
    · rw [same] at stored
      rw [same, Function.update_self, accepts.body body stored]
    · rw [Function.update_of_ne same, stored]

/-- What is kept of every body that was ever attached: its locators lead to it, and its work index
is that of its parent plus its own work. -/
structure Tables.Archived (t : Tables) : Prop where
  locators : t.LocatorsSound
  index : ∀ {hash : BlockHash} {b : Block}, t.block hash = some b → b.header.isGenesis = false →
    ∃ parent, t.index b.header.previousBlockHash = some parent ∧
      t.index hash = some (BlockIndexData.of b (parent.chainWork + b.work))
  indexed : ∀ {hash : BlockHash}, t.index hash ≠ none → t.block hash ≠ none

theorem Tables.Archived.congr (archived : t.Archived) (block : t'.block = t.block)
    (index : t'.index = t.index) (transaction : t'.transaction = t.transaction) :
    t'.Archived := by
  refine ⟨archived.locators.congr transaction block, fun found normal => ?_, fun found => ?_⟩
  · rw [block] at found
    rw [index]
    exact archived.index found normal
  · rw [index] at found
    rw [block]
    exact archived.indexed found

theorem Tables.Archived.removeBlock (archived : t.Archived) (b : Block) :
    (t.removeBlock b).Archived :=
  ⟨archived.locators.removeBlock b, archived.index, archived.indexed⟩

theorem Tables.Archived.detachAll (archived : t.Archived) (q : List Block) :
    (t.detachAll q).Archived := by
  induction q with
  | nil => exact archived
  | cons b q ih => exact ih.removeBlock b

/-- A block that can stand above a chain of archived blocks can be stored: if it was attached
before, then with the same work. -/
theorem Tables.Archived.accepts {w : List Block} (archived : t.Archived) (holds : Holds t w)
    (links : Links w b) (body : ∀ saved, t.block b.blockHash = some saved → saved = b)
    (fits : b.data.transactions.length ≤ 2 ^ 32) :
    t.Accepts b (BlockIndexData.of b (chainWork (w ++ [b]))) := by
  obtain ⟨tip, last, parent⟩ := links.linked
  refine ⟨body, fun saved found => ?_, fun saved found => ?_, fits⟩
  · obtain ⟨stored, present⟩ := Option.ne_none_iff_exists'.mp
      (archived.indexed (by rw [found]; simp))
    rw [body stored present] at present
    obtain ⟨up, upper, own⟩ := archived.index present links.normal.1
    rw [List.getLast?_eq_getElem?] at last
    rw [parent, holds.index last, Option.some.injEq] at upper
    have pos : 0 < w.length := by
      have := (List.getElem?_eq_some_iff.mp last).1
      omega
    rw [show w.length - 1 + 1 = w.length by omega, List.take_length] at upper
    rw [own, Option.some.injEq] at found
    rw [← found, ← upper]
    simp [BlockIndexData.of]
  · rw [holds.height, links.height, List.getElem?_eq_none (Nat.le_refl _)] at found
    cases found

theorem Tables.Archived.attach {w : List Block} (archived : t.Archived) (holds : Holds t w)
    (links : Links w b) (undo : BlockUndo)
    (accepts : t.Accepts b (BlockIndexData.of b (chainWork (w ++ [b])))) :
    (t.attach b (chainWork (w ++ [b])) undo).Archived := by
  obtain ⟨tip, last, linked⟩ := links.linked
  rw [List.getLast?_eq_getElem?] at last
  have pos : 0 < w.length := by
    have := (List.getElem?_eq_some_iff.mp last).1
    omega
  have upper := holds.index last
  rw [show w.length - 1 + 1 = w.length by omega, List.take_length, ← linked] at upper
  -- An index that was there already is not changed by the write.
  have kept : ∀ {hash : BlockHash} {data : BlockIndexData}, t.index hash = some data →
      Function.update t.index b.blockHash
        (some (BlockIndexData.of b (chainWork (w ++ [b])))) hash = some data := by
    intro hash data found
    by_cases same : hash = b.blockHash
    · subst same
      rw [Function.update_self, accepts.index data found]
    · rw [Function.update_of_ne same, found]
  refine ⟨(archived.locators.putBlock accepts).congr rfl rfl, fun {hash body} found normal => ?_,
    fun {hash} found => ?_⟩
  · simp only [Tables.attach, Tables.putBlock] at found ⊢
    by_cases same : hash = b.blockHash
    · subst same
      rw [Function.update_self, Option.some.injEq] at found
      subst found
      refine ⟨_, kept upper, ?_⟩
      rw [Function.update_self]
      simp [BlockIndexData.of]
    · rw [Function.update_of_ne same] at found
      obtain ⟨parent, above, own⟩ := archived.index found normal
      exact ⟨parent, kept above, kept own⟩
  · simp only [Tables.attach, Tables.putBlock] at found ⊢
    by_cases same : hash = b.blockHash
    · subst same
      rw [Function.update_self]
      simp
    · rw [Function.update_of_ne same] at found ⊢
      exact archived.indexed found

/-- A committed genesis is archived. -/
theorem GenesisShape.archived {g : Block} (genesis : GenesisShape g)
    (chainMetadata : ChainMetadata) : (Tables.genesis g chainMetadata).Archived := by
  obtain ⟨tx, single, -⟩ := genesis.transaction
  have accepts : Tables.empty.Accepts g (BlockIndexData.of g 0) := by
    refine ⟨?_, ?_, ?_, by simp [single]⟩ <;>
    · intro saved found
      cases found
  have locators : Tables.empty.LocatorsSound := fun _ _ h => by cases h
  refine ⟨(locators.putBlock accepts).congr rfl rfl, fun {hash b} found normal => ?_,
    fun {hash} found => ?_⟩
  · simp only [Tables.genesis, Tables.putBlock, Tables.empty] at found
    by_cases same : hash = g.blockHash
    · subst same
      rw [Function.update_self, Option.some.injEq] at found
      rw [← found, genesis.marker] at normal
      cases normal
    · rw [Function.update_of_ne same] at found
      cases found
  · simp only [Tables.genesis, Tables.putBlock, Tables.empty] at found ⊢
    by_cases same : hash = g.blockHash
    · subst same
      simp
    · rw [Function.update_of_ne same] at found
      exact absurd rfl found

/-- An appended block is archived. -/
theorem Tables.Archived.appended {w : List Block} (archived : t.Archived) (holds : Holds t w)
    (links : Links w b) (accepts : t.Accepts b (BlockIndexData.of b (chainWork (w ++ [b])))) :
    (t.appended w b).Archived :=
  (archived.attach holds links (Coins.undo b t.utxo) accepts).congr rfl rfl rfl

end Archive

section Holds

variable {t : Tables} {p q bs : List Block}

theorem Holds.detachAll (holds : Holds t (p ++ q)) (chain : IsChain (p ++ q)) (ne : p ≠ []) :
    Holds (t.detachAll q) p := by
  induction q using List.reverseRecOn generalizing t with
  | nil => simpa [Tables.detachAll] using holds
  | append_singleton q b ih =>
    rw [← List.append_assoc] at holds chain
    rw [Tables.detachAll_concat]
    exact ih (holds.detach chain) (chain.left (by simp [ne]))

theorem Holds.attachAll (holds : Holds t p) (chain : IsChain (p ++ bs)) :
    Holds (t.attachAll p bs) (p ++ bs) := by
  induction bs generalizing t p with
  | nil => simpa [Tables.attachAll] using holds
  | cons b bs ih =>
    rw [List.append_cons] at chain ⊢
    exact ih (holds.attach (chain.left (by simp)) rfl rfl) chain

/-- The new chain is represented after a reorganization. -/
theorem Represents.reorganized (represents : Represents t (p ++ q)) (chain : IsChain (p ++ q))
    (branch : IsChain (p ++ bs)) (ne : p ≠ []) (fits : (p ++ bs).length < 2 ^ 64) :
    Represents (t.reorganized p q bs) (p ++ bs) := by
  have holds := (represents.holds.detachAll chain ne).attachAll branch
  refine ⟨holds.congr rfl rfl rfl rfl, rfl, ?_, fits⟩
  change ((t.detachAll q).attachAll p bs).metadata ≠ none
  rw [((t.detachAll q).attachAll_frame p bs).2.2, (t.detachAll_frame q).2.2.2.2.2]
  exact represents.metadata

end Holds

section Detach

open LawfulStorage

variable {S : Type} [FullNodeStorage S] [LawfulStorage S] {s s' : S} {p q : List Block} {a b : Block}

/-- Under a chain the tip is read before it is removed. -/
theorem detachTip_eq (sound : Sound s) (holds : Holds (tables s) (q ++ [b]))
    (chain : IsChain (q ++ [b])) :
    detachTip s b.header.height b.blockHash =
      removeCanonicalBlock s b >>= fun s => .ok (b, s) := by
  have body := holds.body b (by simp)
  have canonical := holds.get_height chain (i := q.length) (b := b) (by simp)
  simp only [detachTip, getBlockByHash_eq _ sound, body, okOr_some, bind_ok,
    getBlockHashByHeight_eq _ sound, canonical, ne_eq, not_true_eq_false, or_self,
    failIf_of_not _ not_false]
  rfl

/-- One iteration of the detaching loop. -/
theorem detachLoop_concat (sound : Sound s) (holds : Holds (tables s) (p ++ (q ++ [b])))
    (chain : IsChain (p ++ (q ++ [b]))) (last : p.getLast? = some a) :
    ∃ below, (p ++ q).getLast? = some below ∧
      detachLoop a.blockHash (q ++ [b]).length s b.point =
        removeCanonicalBlock s b >>= fun s => detachLoop a.blockHash q.length s below.point >>=
          fun r => .ok (r.1, r.2.1, b.point :: r.2.2) := by
  have ne : p ≠ [] := by
    rintro rfl
    simp at last
  rw [← List.append_assoc] at holds chain
  obtain ⟨below, top, linked, height⟩ := chain.below (q := []) (p := p ++ q) (by simp [ne])
  have other : b.blockHash ≠ a.blockHash :=
    (chain.hash_ne (List.mem_append_left _ (List.mem_of_getLast? last))).symm
  have pred : b.header.height - 1 = below.header.height := by
    rw [← UInt64.toNat_inj,
      UInt64.toNat_sub_of_le _ _ (by rw [UInt64.le_iff_toNat_le]; simp; omega)]
    simp
    omega
  refine ⟨below, top, ?_⟩
  rw [List.length_append, List.length_singleton, detachLoop]
  simp only [Block.point, if_neg other, detachTip_eq sound holds chain]
  cases removeCanonicalBlock s b with
  | error error => rfl
  | ok s' =>
    simp only [bind_ok, pred, linked]
    rfl

/-- The detaching loop, when it succeeds. -/
theorem detachLoop_eq_ok (sound : Sound s) (holds : Holds (tables s) (p ++ q))
    (chain : IsChain (p ++ q)) (last : p.getLast? = some a) {latest latest' : UInt64 × BlockHash}
    {detached : List (UInt64 × BlockHash)} (top : (p ++ q).getLast?.map Block.point = some latest)
    (run : detachLoop a.blockHash q.length s latest = .ok (s', latest', detached)) :
    Sound s' ∧ tables s' = (tables s).detachAll q ∧ latest' = a.point ∧
      detached = (q.map Block.point).reverse := by
  induction q using List.reverseRecOn generalizing s latest detached with
  | nil =>
    rw [List.append_nil, last, Option.map_some, Option.some.injEq] at top
    subst top
    simp only [List.length_nil, detachLoop, Block.point, if_true, Except.ok.injEq,
      Prod.mk.injEq] at run
    obtain ⟨rfl, rfl, rfl⟩ := run
    exact ⟨sound, rfl, rfl, rfl⟩
  | append_singleton q b ih =>
    have here : latest = b.point := by
      rw [getLast?_append_concat] at top
      exact (Option.some.inj top).symm
    subst here
    obtain ⟨below, under, iteration⟩ := detachLoop_concat sound holds chain last
    rw [iteration] at run
    simp only [bind_eq_ok, Except.ok.injEq, Prod.mk.injEq, Prod.exists] at run
    obtain ⟨middle, remove, s1, height1, hash1, detached1, rest, rfl, rfl, rfl⟩ := run
    obtain ⟨soundMiddle, tablesMiddle⟩ := removeCanonicalBlock_eq_ok sound remove
    rw [← List.append_assoc] at holds chain
    have holdsMiddle : Holds (tables middle) (p ++ q) := by
      rw [tablesMiddle]
      exact holds.detach chain
    have ne : p ++ q ≠ [] := by
      intro empty
      simp [empty] at under
    obtain ⟨soundLast, tablesLast, bottom, rfl⟩ :=
      ih soundMiddle holdsMiddle (chain.left ne) (by rw [under]; rfl) rest
    refine ⟨soundLast, ?_, bottom, by simp⟩
    rw [tablesLast, tablesMiddle, Tables.detachAll_concat]

/-- The detaching loop succeeds when every locator leads to its transaction. -/
theorem detachLoop_ok (sound : Sound s) (holds : Holds (tables s) (p ++ q))
    (chain : IsChain (p ++ q)) (last : p.getLast? = some a) {latest : UInt64 × BlockHash}
    (top : (p ++ q).getLast?.map Block.point = some latest)
    (locators : (tables s).LocatorsSound) :
    ∃ result, detachLoop a.blockHash q.length s latest = .ok result := by
  induction q using List.reverseRecOn generalizing s latest with
  | nil =>
    rw [List.append_nil, last, Option.map_some, Option.some.injEq] at top
    subst top
    exact ⟨_, by simp only [List.length_nil, detachLoop, Block.point, if_true]; rfl⟩
  | append_singleton q b ih =>
    have here : latest = b.point := by
      rw [getLast?_append_concat] at top
      exact (Option.some.inj top).symm
    subst here
    obtain ⟨below, under, iteration⟩ := detachLoop_concat sound holds chain last
    rw [← List.append_assoc] at holds chain
    have canonical := holds.get_height chain (i := (p ++ q).length) (b := b) (by simp)
    obtain ⟨middle, remove⟩ :=
      removeCanonicalBlock_ok sound locators (holds.body b (by simp)) canonical
    obtain ⟨soundMiddle, tablesMiddle⟩ := removeCanonicalBlock_eq_ok sound remove
    have ne : p ++ q ≠ [] := by
      intro empty
      simp [empty] at under
    obtain ⟨result, rest⟩ := ih soundMiddle (by rw [tablesMiddle]; exact holds.detach chain)
      (chain.left ne) (by rw [under]; rfl) (by rw [tablesMiddle]; exact locators.removeBlock b)
    exact ⟨_, by rw [iteration, remove, bind_ok, rest, bind_ok]⟩

end Detach

section Reorganize

open LawfulStorage

variable {S : Type} [FullNodeStorage S] [LawfulStorage S] {s s' : S} {p q bs : List Block}
  {a : Block}

theorem canonicalAncestor_ok (sound : Sound s) (chain : IsChain (p ++ q))
    (holds : Holds (tables s) (p ++ q)) (last : p.getLast? = some a) :
    canonicalAncestor s a.blockHash = .ok (a, BlockIndexData.of a (chainWork p)) := by
  have pos := length_pos_of_last last
  have at_a : (p ++ q)[p.length - 1]? = some a := getElem?_append_last last
  have body := holds.body a (List.mem_of_getElem? at_a)
  have canonical := holds.get_height chain at_a
  have index := holds.index at_a
  rw [show p.length - 1 + 1 = p.length by omega, List.take_left] at index
  simp only [canonicalAncestor, getBlockByHash_eq _ sound, body, okOr_some, bind_ok,
    getBlockHashByHeight_eq _ sound, canonical, ne_eq, not_true_eq_false,
    failIf_of_not _ not_false, if_false, getBlockIndex_eq _ sound, index, BlockIndexData.of,
    or_self]
  rfl

omit [LawfulStorage S] in
/-- One prepared block. -/
theorem attachPrepared_cons (s : S) (st : ChainState) (b : Block) (undo : BlockUndo)
    (rest : List (Block × BlockUndo)) :
    attachPrepared s st ((b, undo) :: rest) =
      (extendedState st b >>= fun st' =>
        putBlock s b (BlockIndexData.of b st'.chainWork) >>= fun s =>
        putBlockUndo s b.blockHash undo >>= fun s => attachPrepared s st' rest) := by
  simp only [attachPrepared, List.foldlM_cons]
  cases extendedState st b with
  | error error => rfl
  | ok st' =>
    simp only [bind_ok]
    cases putBlock s b (BlockIndexData.of b st'.chainWork) with
    | error error => rfl
    | ok s1 =>
      simp only [bind_ok]
      cases putBlockUndo s1 b.blockHash undo <;> rfl

/-- The attaching loop, when it succeeds. -/
theorem attachPrepared_eq_ok {st st' : ChainState} (sound : Sound s) (chain : IsChain (p ++ bs))
    (ne : p ≠ []) (hst : stateOf p = some st)
    (run : attachPrepared s st (Coins.records (Coins.ledger p) bs) = .ok (s', st')) :
    Sound s' ∧ tables s' = (tables s).attachAll p bs ∧ stateOf (p ++ bs) = some st' ∧
      (bs = [] ∨ (p ++ bs).length < 2 ^ 64) := by
  induction bs generalizing s p st with
  | nil =>
    simp only [Coins.records, attachPrepared, List.foldlM_nil, pure_eq_ok, Prod.mk.injEq] at run
    obtain ⟨rfl, rfl⟩ := run
    exact ⟨sound, rfl, by rw [List.append_nil, hst], .inl rfl⟩
  | cons b bs ih =>
    rw [Coins.records, attachPrepared_cons] at run
    simp only [bind_eq_ok] at run
    obtain ⟨next, extended, stored, put, saved, save, rest⟩ := run
    obtain ⟨follows, hnext⟩ := (extendedState_follows (chain.left ne) hst).mp extended
    have shape := verifyGenesisWorkShape_of_normal follows.normal.1
    obtain ⟨soundStored, tablesStored⟩ := putBlock_eq_ok sound shape put
    obtain ⟨view, save', soundSaved, tablesSaved⟩ :=
      putBlockUndo_ok b.blockHash (Coins.undo b (Coins.ledger p)) soundStored
    rw [save', Except.ok.injEq] at save
    subst save
    rw [List.append_cons] at chain ⊢
    rw [← Coins.ledger_concat] at rest
    obtain ⟨soundLast, tablesLast, state, fits⟩ := ih soundSaved chain (by simp) hnext rest
    obtain ⟨-, -, -, -, work⟩ := stateOf_eq_some hnext
    refine ⟨soundLast, ?_, state, .inr ?_⟩
    · rw [tablesLast, tablesSaved, tablesStored, work]
      rfl
    · rcases fits with rfl | fits
      · have room := follows.room
        simpa using room
      · exact fits

/-- What lets a branch be attached: its blocks stand above each other, leave room, and are no
other than the bodies stored under their hashes. -/
structure Attachable (t : Tables) (p bs : List Block) : Prop where
  chain : IsChain (p ++ bs)
  room : (p ++ bs).length < 2 ^ 64
  body : ∀ b ∈ bs, ∀ saved, t.block b.blockHash = some saved → saved = b
  fits : ∀ b ∈ bs, b.data.transactions.length ≤ 2 ^ 32

theorem IsChain.linksAt {b : Block} (chain : IsChain (p ++ b :: bs)) (ne : p ≠ []) : Links p b := by
  obtain ⟨below, last, linked, -⟩ := chain.below ne
  have pos := List.length_pos_iff.mpr ne
  exact ⟨⟨below, last, linked⟩, chain.normal (i := p.length) (by simp) pos,
    chain.height_eq_length⟩

section Attachable

variable {t : Tables} {b : Block}

theorem Attachable.accepts (attachable : Attachable t p (b :: bs)) (archived : t.Archived)
    (holds : Holds t p) (ne : p ≠ []) :
    t.Accepts b (BlockIndexData.of b (chainWork (p ++ [b]))) :=
  archived.accepts holds (attachable.chain.linksAt ne) (attachable.body b (by simp))
    (attachable.fits b (by simp))

/-- The rest of the branch can be attached above the first block. -/
theorem Attachable.next (attachable : Attachable t p (b :: bs)) (work : Nat) (undo : BlockUndo) :
    Attachable (t.attach b work undo) (p ++ [b]) bs := by
  have chain := attachable.chain
  have room := attachable.room
  rw [List.append_cons] at chain room
  refine ⟨chain, room, fun a mem body found => ?_,
    fun a mem => attachable.fits a (List.mem_cons_of_mem _ mem)⟩
  simp only [Tables.attach, Tables.putBlock] at found
  by_cases same : a.blockHash = b.blockHash
  · rw [same, Function.update_self, Option.some.injEq] at found
    subst found
    exact (chain.eq_of_hash (by simp [mem]) (by simp) same).symm
  · rw [Function.update_of_ne same] at found
    exact attachable.body a (List.mem_cons_of_mem _ mem) body found

theorem Tables.Archived.attachAll (archived : t.Archived) (holds : Holds t p) (ne : p ≠ [])
    (attachable : Attachable t p bs) : (t.attachAll p bs).Archived := by
  induction bs generalizing t p with
  | nil => exact archived
  | cons b bs ih =>
    have chain := attachable.chain
    have links := chain.linksAt ne
    rw [List.append_cons] at chain
    exact ih (archived.attach holds links _ (attachable.accepts archived holds ne))
      (holds.attach (chain.left (by simp)) rfl rfl) (by simp) (attachable.next _ _)

end Attachable

/-- The attaching loop succeeds on an attachable branch. -/
theorem attachPrepared_ok {st : ChainState} (sound : Sound s) (ne : p ≠ [])
    (hst : stateOf p = some st) (holds : Holds (tables s) p) (archived : (tables s).Archived)
    (attachable : Attachable (tables s) p bs) :
    ∃ result, attachPrepared s st (Coins.records (Coins.ledger p) bs) = .ok result := by
  induction bs generalizing s p st with
  | nil => exact ⟨_, rfl⟩
  | cons b bs ih =>
    have chain := attachable.chain
    have links := chain.linksAt ne
    have room : p.length + 1 < 2 ^ 64 := by
      have := attachable.room
      simp only [List.length_append, List.length_cons] at this
      omega
    obtain ⟨next, hnext⟩ : ∃ next, stateOf (p ++ [b]) = some next := ⟨_, stateOf_concat p b⟩
    have extended := (extendedState_follows (chain.left ne) hst).mpr ⟨⟨links, room⟩, hnext⟩
    obtain ⟨-, -, -, -, work⟩ := stateOf_eq_some hnext
    have accepts := attachable.accepts archived holds ne
    obtain ⟨stored, put⟩ := putBlock_ok sound accepts
    have shape := verifyGenesisWorkShape_of_normal links.normal.1
    obtain ⟨soundStored, tablesStored⟩ := putBlock_eq_ok sound shape put
    obtain ⟨saved, save, soundSaved, tablesSaved⟩ :=
      putBlockUndo_ok b.blockHash (Coins.undo b (Coins.ledger p)) soundStored
    have attached : tables saved = (tables s).attach b (chainWork (p ++ [b]))
        (Coins.undo b (Coins.ledger p)) := by
      rw [tablesSaved, tablesStored]
      rfl
    rw [List.append_cons] at chain
    have holdsSaved := holds.attach (chain.left (by simp)) rfl rfl
    have archivedSaved := archived.attach holds links (Coins.undo b (Coins.ledger p)) accepts
    rw [← attached] at holdsSaved archivedSaved
    obtain ⟨result, rest⟩ := ih soundSaved (by simp) hnext holdsSaved archivedSaved
      (attached ▸ attachable.next _ _)
    refine ⟨result, ?_⟩
    rw [Coins.records, attachPrepared_cons, extended, bind_ok, work, put, bind_ok, save, bind_ok,
      ← Coins.ledger_concat, rest]

/-- The hypotheses under which a prepared branch replaces the top of the canonical chain. -/
structure Replacement (s : S) (p q bs : List Block) (delta : ForkDbDelta) : Prop where
  sound : Sound s
  chain : IsChain (p ++ q)
  represents : Represents (tables s) (p ++ q)
  branch : IsChain (p ++ bs)
  ne : p ≠ []
  replaces : delta.Replaces s p q bs
  below : Submap (Coins.unwind p q (tables s).utxo) (Coins.ledger p)
  applies : Coins.Applies (Coins.unwind p q (tables s).utxo) bs

/-- The UTXO writes of a reorganization, after the old blocks have been detached. -/
theorem Replacement.writeUtxos {delta : ForkDbDelta} {middle : S}
    (replacement : Replacement s p q bs delta) (sound : Sound middle)
    (detached : tables middle = (tables s).detachAll q) :
    ∃ removed written, batchRemoveUtxos middle delta.removedUtxos = .ok removed ∧
      batchPutUtxos removed delta.utxos = .ok written ∧ Sound written ∧
      tables written = { (tables s).detachAll q with
        utxo := Coins.applyAll bs (Coins.unwind p q (tables s).utxo) } := by
  have utxo : (tables middle).utxo = (tables s).utxo := by
    rw [detached, ((tables s).detachAll_frame q).1]
  have present : ∀ o ∈ delta.removedUtxos, (tables middle).utxo o ≠ none := by
    rw [utxo]
    exact replacement.replaces.present
  obtain ⟨removed, remove, soundRemoved, tablesRemoved⟩ :=
    batchRemoveUtxos_ok sound replacement.replaces.distinct present
  obtain ⟨written, write, soundWritten, tablesWritten⟩ :=
    batchPutUtxos_ok soundRemoved replacement.replaces.keyed
  refine ⟨removed, written, remove, write, soundWritten, ?_⟩
  rw [tablesWritten, tablesRemoved, utxo, replacement.replaces.coins, detached]

omit [LawfulStorage S] in
/-- `extended_state` looks at the tip and the work of a state alone. -/
theorem attachPrepared_state (s : S) {st st' : ChainState} (b : Block) (undo : BlockUndo)
    (rest : List (Block × BlockUndo)) (latest : st.latestBlock = st'.latestBlock)
    (work : st.chainWork = st'.chainWork) :
    attachPrepared s st ((b, undo) :: rest) = attachPrepared s st' ((b, undo) :: rest) := by
  have same : extendedState st b = extendedState st' b := by
    simp only [extendedState, latest, work]
  rw [attachPrepared_cons, attachPrepared_cons, same]

/-- `stage_reorganization` from the point where the prepared delta matches the tip. -/
theorem reorganize_stages {delta : ForkDbDelta} (replacement : Replacement s p q bs delta)
    {st : ChainState} (hst : stateOf (p ++ q) = some st) (last : p.getLast? = some a) :
    applyTransition s (.reorganize delta) =
      (detachLoop a.blockHash q.length s st.latestBlock >>= fun stage =>
        failIf (stage.2.2 ≠ delta.detached ∨ delta.blocks.isEmpty)
          (.invalidTransition "Prepared fork does not replace the expected canonical suffix")
          >>= fun _ => batchRemoveUtxos stage.1 delta.removedUtxos >>= fun view =>
        batchPutUtxos view delta.utxos >>= fun view =>
        attachPrepared view { st with latestBlock := stage.2.1, chainWork := chainWork p }
          delta.blocks >>= fun attached =>
        putChainState attached.1 attached.2 >>= fun view =>
        .ok (⟨attached.2.latestBlock, attached.2.chainWork, stage.2.2⟩, view)) := by
  obtain ⟨sound, chain, represents, -, ne, replaces, -, -⟩ := replacement
  obtain ⟨top, htop, latest, -, -⟩ := stateOf_eq_some hst
  have head := replaces.head
  rw [htop, Option.map_some, Option.some.injEq] at head
  have ancestor := replaces.ancestor
  rw [last, Option.map_some, Option.some.injEq] at ancestor
  have steps : st.latestBlock.1.toNat - a.header.height.toNat = q.length := by
    have topHeight := chain.tip_height htop
    have height := (chain.left ne).tip_height last
    rw [List.length_append] at topHeight
    rw [latest]
    dsimp only
    omega
  have prepared : st.latestBlock = delta.expectedHead := by
    rw [latest, ← head, Block.point]
  simp only [applyTransition, chainState_eq sound, represents.state, hst, bind_ok,
    stageReorganization, okOr_some, verifyCurrentState_ok sound chain represents hst, prepared,
    ne_eq, not_true_eq_false, failIf_of_not _ not_false, ← ancestor,
    canonicalAncestor_ok sound chain represents.holds last, detachToAncestor, bind_assoc]
  rw [← prepared, steps]
  rfl

/-- The attaching loop starts from the state of the fork point. -/
theorem Replacement.attach_start {delta : ForkDbDelta} (replacement : Replacement s p q bs delta)
    {start : ChainState} (hstart : stateOf p = some start) (last : p.getLast? = some a)
    (ne : bs ≠ []) (st : ChainState) (view : S) :
    attachPrepared view { st with latestBlock := a.point, chainWork := chainWork p } delta.blocks =
      attachPrepared view start (Coins.records (Coins.ledger p) bs) := by
  obtain ⟨b, rest, rfl⟩ := List.exists_cons_of_ne_nil ne
  obtain ⟨top, htop, latest, -, work⟩ := stateOf_eq_some hstart
  rw [last, Option.some.injEq] at htop
  subst htop
  rw [replacement.replaces.blocks, Coins.records_mono replacement.below replacement.applies,
    Coins.records]
  exact attachPrepared_state view b _ _ latest.symm work.symm

/-- A committed reorganization, read off the tables. -/
theorem reorganize_eq_ok {delta : ForkDbDelta} {result : ChainTransitionResult}
    (replacement : Replacement s p q bs delta)
    (run : applyTransition s (.reorganize delta) = .ok (result, s')) :
    Sound s' ∧ tables s' = (tables s).reorganized p q bs ∧ (p ++ bs).length < 2 ^ 64 ∧
      result.detached = (q.map Block.point).reverse ∧
      (p ++ bs).getLast?.map Block.point = some result.newHead ∧
      result.chainWork = chainWork (p ++ bs) := by
  have chain := replacement.chain
  have branch := replacement.branch
  obtain ⟨st, hst⟩ := exists_stateOf chain
  obtain ⟨start, hstart⟩ := exists_stateOf (chain.left replacement.ne)
  obtain ⟨a, last, -⟩ := stateOf_eq_some hstart
  rw [reorganize_stages replacement hst last] at run
  simp only [bind_eq_ok, failIf_eq_ok, Except.ok.injEq, Prod.mk.injEq, Prod.exists] at run
  obtain ⟨middle, height, hash, detached, detach, -, guard, removed, remove, written, write, attached,
    final, attach, view, put, rfl, rfl⟩ := run
  obtain ⟨top, htop, latest, -, -⟩ := stateOf_eq_some hst
  have head : (p ++ q).getLast?.map Block.point = some st.latestBlock := by
    rw [htop, latest]
    rfl
  obtain ⟨soundMiddle, tablesMiddle, bottom, rfl⟩ := detachLoop_eq_ok replacement.sound
    replacement.represents.holds chain last head detach
  have ne : bs ≠ [] := by
    rintro rfl
    rw [replacement.replaces.blocks] at guard
    simp [Coins.records] at guard
  obtain ⟨removed', written', remove', write', soundWritten, tablesWritten⟩ :=
    replacement.writeUtxos soundMiddle tablesMiddle
  rw [remove', Except.ok.injEq] at remove
  subst remove
  rw [write', Except.ok.injEq] at write
  subst write
  rw [bottom, replacement.attach_start hstart last ne] at attach
  obtain ⟨soundAttached, tablesAttached, hfinal, fits⟩ :=
    attachPrepared_eq_ok soundWritten branch replacement.ne hstart attach
  obtain ⟨final', put', soundFinal, tablesFinal⟩ := putChainState_ok final soundAttached
  rw [put', Except.ok.injEq] at put
  subst put
  obtain ⟨newTop, hnew, newLatest, -, work⟩ := stateOf_eq_some hfinal
  refine ⟨soundFinal, ?_, fits.resolve_left ne, rfl, ?_, work⟩
  · rw [tablesFinal, tablesAttached, tablesWritten, ← hfinal]
    have := ((tables s).detachAll q).attachAll_with
      (Coins.applyAll bs (Coins.unwind p q (tables s).utxo)) ((tables s).detachAll q).state p bs
    dsimp only at this
    rw [this]
    rfl
  · rw [hnew, newLatest]
    rfl

/-- A prepared branch replaces the top of the chain when nothing stored is in its way. -/
theorem reorganize_ok {delta : ForkDbDelta} (replacement : Replacement s p q bs delta)
    (archived : (tables s).Archived) (attachable : Attachable (tables s) p bs) (ne : bs ≠ []) :
    ∃ result, applyTransition s (.reorganize delta) = .ok result := by
  have chain := replacement.chain
  obtain ⟨st, hst⟩ := exists_stateOf chain
  obtain ⟨start, hstart⟩ := exists_stateOf (chain.left replacement.ne)
  obtain ⟨a, last, -⟩ := stateOf_eq_some hstart
  obtain ⟨top, htop, latest, -, -⟩ := stateOf_eq_some hst
  have head : (p ++ q).getLast?.map Block.point = some st.latestBlock := by
    rw [htop, latest]
    rfl
  have holds := replacement.represents.holds
  obtain ⟨⟨middle, bottom, detached⟩, detach⟩ :=
    detachLoop_ok replacement.sound holds chain last head archived.locators
  obtain ⟨soundMiddle, tablesMiddle, rfl, rfl⟩ :=
    detachLoop_eq_ok replacement.sound holds chain last head detach
  have guard : ¬ ((q.map Block.point).reverse ≠ delta.detached ∨ delta.blocks.isEmpty = true) := by
    obtain ⟨b, rest, rfl⟩ := List.exists_cons_of_ne_nil ne
    rw [replacement.replaces.detached, replacement.replaces.blocks, Coins.records]
    simp
  obtain ⟨removed, written, remove, write, soundWritten, tablesWritten⟩ :=
    replacement.writeUtxos soundMiddle tablesMiddle
  have holdsWritten : Holds (tables written) p := by
    rw [tablesWritten]
    exact (holds.detachAll chain replacement.ne).congr rfl rfl rfl rfl
  have archivedWritten : (tables written).Archived := by
    rw [tablesWritten]
    exact (archived.detachAll q).congr rfl rfl rfl
  have attachableWritten : Attachable (tables written) p bs := by
    refine ⟨attachable.chain, attachable.room, ?_, attachable.fits⟩
    rw [tablesWritten]
    dsimp only
    rw [((tables s).detachAll_frame q).2.1]
    exact attachable.body
  obtain ⟨⟨attached, final⟩, attach⟩ := attachPrepared_ok soundWritten replacement.ne hstart
    holdsWritten archivedWritten attachableWritten
  rw [← replacement.attach_start hstart last ne st] at attach
  obtain ⟨soundAttached, -⟩ := attachPrepared_eq_ok soundWritten attachable.chain replacement.ne
    hstart (by rwa [replacement.attach_start hstart last ne] at attach)
  obtain ⟨view, put, -, -⟩ := putChainState_ok final soundAttached
  exact ⟨_, by
    rw [reorganize_stages replacement hst last, detach, bind_ok, failIf_of_not _ guard, bind_ok,
      remove, bind_ok, write, bind_ok, attach, bind_ok, put, bind_ok]⟩

end Reorganize

/-- A reorganization archives the new branch. -/
theorem Tables.Archived.reorganized {t : Tables} {p q bs : List Block} (archived : t.Archived)
    (holds : Holds t (p ++ q)) (chain : IsChain (p ++ q)) (ne : p ≠ [])
    (attachable : Attachable t p bs) : (t.reorganized p q bs).Archived := by
  have detached : Attachable (t.detachAll q) p bs := by
    refine ⟨attachable.chain, attachable.room, ?_, attachable.fits⟩
    rw [(t.detachAll_frame q).2.1]
    exact attachable.body
  exact ((archived.detachAll q).attachAll (holds.detachAll chain ne) ne detached).congr rfl rfl rfl

end StryiChain
