import StryiChain.Chain.Index

/-!
# Preparing a branch

What `build_fork_overlay` and the replaying loops arrive at when they succeed, and when they do.
-/

namespace StryiChain

open LawfulStorage

variable [Primitives] {S : Type} [FullNodeStorage S] [LawfulStorage S] {s : S}
  {index : ChainIndex} {p q r bs bs' : List Block} {a : Block}
  {overlay overlay' : ForkDbOverlay S}

/-- The canonical chain as the engine sees it: an index and a storage that agree on it. -/
structure Canonical (index : ChainIndex) (s : S) (w : List Block) : Prop where
  sound : Sound s
  chain : IsChain w
  represents : Represents (tables s) w
  indexOf : IndexOf w index
  applies : Coins.Applies (fun _ => none) w
  below : Submap (tables s).utxo (Coins.ledger w)

theorem Canonical.unwind_below (canonical : Canonical index s (p ++ q)) :
    Submap (Coins.unwind p q (tables s).utxo) (Coins.ledger p) :=
  Coins.unwind_submap (Coins.applies_append.mp canonical.applies).2 canonical.below

/-- One iteration of the rewinding loop. -/
theorem rewindLoop_concat {b : Block} (overlay : ForkDbOverlay S)
    (canonical : Canonical index s (p ++ (q ++ [b]) ++ r))
    (last : p.getLast? = some a) :
    ∃ below, (p ++ q).getLast? = some below ∧
      rewindLoop index a.blockHash (q ++ [b]).length overlay b.blockHash =
        ((overlay.rewindBlock.mapError (.storageError .undo)) >>= fun overlay =>
          rewindLoop index a.blockHash q.length overlay below.blockHash) := by
  have chain := canonical.chain
  have regroup : p ++ (q ++ [b]) ++ r = (p ++ q) ++ b :: r := by simp
  have indexOf := canonical.indexOf
  rw [regroup] at chain indexOf
  have ne : p ++ q ≠ [] := by
    intro empty
    rw [List.append_eq_nil_iff] at empty
    simp [empty.1] at last
  obtain ⟨below, under, linked, -⟩ := chain.below ne
  have other : b.blockHash ≠ a.blockHash :=
    (chain.hash_ne (List.mem_append_left _ (List.mem_of_getLast? last))).symm
  have parent : index.parent b.blockHash = some below.blockHash := by
    rw [ChainIndex.parent, indexOf.entry (i := (p ++ q).length) (b := b) (by simp), entryAt, linked]
    rfl
  refine ⟨below, under, ?_⟩
  rw [List.length_append, List.length_singleton, rewindLoop, if_neg other]
  simp only [parent, okOr_some, bind_ok]

theorem rewindLoop_eq_ok (canonical : Canonical index s (p ++ q ++ r))
    (last : p.getLast? = some a) (rewinding : overlay.Rewinding s p q r) {top : Block}
    (htop : (p ++ q).getLast? = some top)
    (run : rewindLoop index a.blockHash q.length overlay top.blockHash = .ok overlay') :
    overlay'.Rewinding s p [] (q ++ r) := by
  induction q using List.reverseRecOn generalizing overlay r top with
  | nil =>
    rw [List.append_nil, last, Option.some.injEq] at htop
    subst htop
    simp only [List.length_nil, rewindLoop, if_true, Except.ok.injEq] at run
    exact run ▸ rewinding
  | append_singleton q b ih =>
    have here : top = b := by
      rw [getLast?_append_concat] at htop
      exact (Option.some.inj htop).symm
    subst here
    obtain ⟨below, under, iteration⟩ := rewindLoop_concat overlay canonical last
    rw [iteration] at run
    simp only [bind_eq_ok, mapError_eq_ok] at run
    obtain ⟨middle, rewind, rest⟩ := run
    have ne : p ≠ [] := by
      rintro rfl
      simp at last
    obtain ⟨-, next⟩ := ForkDbOverlay.rewindBlock_eq_ok canonical.sound rewinding canonical.chain
      canonical.represents ne canonical.applies rewind
    have regroup : p ++ (q ++ [top]) ++ r = p ++ q ++ top :: r := by simp
    rw [List.append_assoc, List.singleton_append]
    exact ih (regroup ▸ canonical) next under rest

/-- Rewinding succeeds when the stored map is that of the chain and the blocks are fresh. -/
theorem rewindLoop_ok (canonical : Canonical index s (p ++ q ++ r))
    (stored : (tables s).utxo = Coins.ledger (p ++ q ++ r)) (fresh : Coins.FreshAbove p (q ++ r))
    (last : p.getLast? = some a) (rewinding : overlay.Rewinding s p q r) {top : Block}
    (htop : (p ++ q).getLast? = some top) :
    ∃ overlay', rewindLoop index a.blockHash q.length overlay top.blockHash = .ok overlay' := by
  induction q using List.reverseRecOn generalizing overlay r top with
  | nil =>
    rw [List.append_nil, last, Option.some.injEq] at htop
    subst htop
    exact ⟨overlay, by simp [rewindLoop]⟩
  | append_singleton q b ih =>
    have here : top = b := by
      rw [getLast?_append_concat] at htop
      exact (Option.some.inj htop).symm
    subst here
    obtain ⟨below, under, iteration⟩ := rewindLoop_concat overlay canonical last
    have ne : p ≠ [] := by
      rintro rfl
      simp at last
    have later := (Coins.freshAbove_append.mp fresh).2
    have present : ∀ o ∈ top.created.keys, overlay.coins o ≠ none := by
      rw [rewinding.coins_eq, stored,
        Coins.unwind_eq (Coins.applies_append.mp canonical.applies).2 later, ← List.append_assoc,
        Coins.ledger_concat]
      exact fun o mem => Coins.apply_created_ne_none mem
    obtain ⟨middle, rewind⟩ := ForkDbOverlay.rewindBlock_ok canonical.sound rewinding
      canonical.chain canonical.represents ne canonical.applies present
    obtain ⟨-, next⟩ := ForkDbOverlay.rewindBlock_eq_ok canonical.sound rewinding canonical.chain
      canonical.represents ne canonical.applies rewind
    have regroup : p ++ (q ++ [top]) ++ r = p ++ q ++ top :: r := by simp
    rw [List.append_assoc, List.singleton_append] at fresh
    obtain ⟨overlay', rest⟩ := ih (regroup ▸ canonical) (regroup ▸ stored) fresh next under
    exact ⟨overlay', by rw [iteration, rewind, mapError_ok, bind_ok, rest]⟩

/-- The steps of `build_fork_overlay` before the loop. -/
theorem buildForkOverlay_start (canonical : Canonical index s (p ++ q))
    (last : p.getLast? = some a) :
    ∃ overlay top, overlay.Rewinding s p q [] ∧ (p ++ q).getLast? = some top ∧
      buildForkOverlay index s a.blockHash =
        rewindLoop index a.blockHash q.length overlay top.blockHash := by
  have chain := canonical.chain
  obtain ⟨overlay, opened, rewinding⟩ :=
    ForkDbOverlay.new_ok canonical.sound chain canonical.represents last
  obtain ⟨top, htop⟩ : ∃ top, (p ++ q).getLast? = some top := by
    rw [← Option.isSome_iff_exists, List.getLast?_isSome]
    exact chain.ne_nil
  have ne : p ≠ [] := by
    rintro rfl
    simp at last
  have head := rewinding.head
  rw [List.append_nil, htop, Option.map_some, Option.some.injEq] at head
  have ancestor := rewinding.ancestor
  rw [last, Option.map_some, Option.some.injEq] at ancestor
  have steps : overlay.expectedHead.1.toNat - overlay.commonAncestor.1.toNat = q.length := by
    have topHeight := chain.tip_height htop
    have height := (chain.left ne).tip_height last
    rw [List.length_append] at topHeight
    rw [← head, ← ancestor]
    dsimp only [Block.point]
    omega
  refine ⟨overlay, top, rewinding, htop, ?_⟩
  simp only [buildForkOverlay, opened, mapError_ok, bind_ok, expectTip, canonical.indexOf.tip,
    tipOf, htop, Option.map_some, okOr_some, steps]

/-- What `build_fork_overlay` returns. -/
theorem buildForkOverlay_eq_ok (canonical : Canonical index s (p ++ q))
    (last : p.getLast? = some a) (run : buildForkOverlay index s a.blockHash = .ok overlay) :
    overlay.Replayed s p q [] := by
  obtain ⟨start, top, rewinding, htop, loop⟩ := buildForkOverlay_start canonical last
  rw [loop] at run
  have done := rewindLoop_eq_ok (by simpa using canonical) last rewinding htop run
  rw [List.append_nil] at done
  exact done.replayed

theorem buildForkOverlay_ok (canonical : Canonical index s (p ++ q))
    (stored : (tables s).utxo = Coins.ledger (p ++ q)) (fresh : Coins.FreshAbove p q)
    (last : p.getLast? = some a) :
    ∃ overlay, buildForkOverlay index s a.blockHash = .ok overlay := by
  obtain ⟨start, top, rewinding, htop, loop⟩ := buildForkOverlay_start canonical last
  rw [loop]
  exact rewindLoop_ok (by simpa using canonical) (by simpa using stored) (by simpa using fresh)
    last rewinding htop

/-- What a replayed branch has done to the overlay. -/
theorem replayAll_eq_ok {layer : StorageLayer} (replayed : overlay.Replayed s p q bs)
    (distinct : ((p ++ bs ++ bs').map Block.blockHash).Nodup) (chain : IsChain (p ++ bs))
    (run : replayAll layer overlay bs' = .ok overlay') :
    IsChain (p ++ bs ++ bs') ∧ Coins.Applies overlay.coins bs' ∧
      overlay'.Replayed s p q (bs ++ bs') := by
  induction bs' generalizing overlay bs with
  | nil =>
    simp only [replayAll, List.foldlM_nil, pure_eq_ok] at run
    subst run
    simpa [Coins.Applies] using ⟨chain, replayed⟩
  | cons b bs' ih =>
    simp only [replayAll, List.foldlM_cons, bind_eq_ok, mapError_eq_ok] at run
    obtain ⟨middle, one, rest⟩ := run
    rw [List.append_cons] at distinct ⊢
    have new : b.blockHash ∉ (p ++ bs).map Block.blockHash := by
      have part := distinct
      rw [List.map_append] at part
      have part' := part.of_append_left
      rw [List.map_append, List.nodup_append] at part'
      exact fun mem => part'.2.2 _ mem b.blockHash (by simp) rfl
    obtain ⟨links, applicable, next⟩ := ForkDbOverlay.replayBlock_eq_ok replayed chain (fun _ => new) one
    have longer := chain.links links new
    rw [List.append_assoc p bs [b]] at distinct longer ⊢
    obtain ⟨whole, applies, last⟩ := ih next distinct longer rest
    refine ⟨whole, ⟨applicable, ?_⟩, by simpa using last⟩
    have coins : middle.coins = Coins.apply b overlay.coins := by
      rw [next.coins_eq, replayed.coins_eq, Coins.applyAll_append]
      rfl
    rw [← coins]
    exact applies

theorem replayAll_ok (layer : StorageLayer) (replayed : overlay.Replayed s p q bs)
    (ne : p ≠ []) (chain : IsChain (p ++ bs ++ bs')) (applies : Coins.Applies overlay.coins bs') :
    ∃ overlay', replayAll layer overlay bs' = .ok overlay' := by
  induction bs' generalizing overlay bs with
  | nil => exact ⟨overlay, rfl⟩
  | cons b bs' ih =>
    have lower := chain.left (p := p ++ bs) (by simp [ne])
    have links := chain.linksAt (p := p ++ bs) (by simp [ne])
    obtain ⟨middle, one⟩ := ForkDbOverlay.replayBlock_ok replayed lower links applies.1
    have new : b.blockHash ∉ (p ++ bs).map Block.blockHash := by
      have distinct := chain.distinct
      rw [List.map_append, List.nodup_append] at distinct
      exact fun mem => distinct.2.2 _ mem b.blockHash (by simp) rfl
    obtain ⟨-, -, next⟩ := ForkDbOverlay.replayBlock_eq_ok replayed lower (fun _ => new) one
    have coins : middle.coins = Coins.apply b overlay.coins := by
      rw [next.coins_eq, replayed.coins_eq, Coins.applyAll_append]
      rfl
    rw [List.append_cons, List.append_assoc p bs [b]] at chain
    obtain ⟨overlay', rest⟩ := ih next chain (by rw [coins]; exact applies.2)
    refine ⟨overlay', ?_⟩
    rw [replayAll, List.foldlM_cons, one, mapError_ok, bind_ok]
    exact rest

/-- What a prepared delta replaces. -/
theorem prepareDelta_eq_ok {delta : ForkDbDelta} (canonical : Canonical index s (p ++ q))
    (last : p.getLast? = some a) (distinct : ((p ++ bs).map Block.blockHash).Nodup) (ne : bs ≠ [])
    (run : prepareDelta index s a.blockHash bs = .ok delta) : Replacement s p q bs delta := by
  have nep : p ≠ [] := by
    rintro rfl
    simp at last
  simp only [prepareDelta, bind_eq_ok, mapError_eq_ok] at run
  obtain ⟨rewound, build, final, replay, finish⟩ := run
  have start := buildForkOverlay_eq_ok canonical last build
  have chain := canonical.chain.left nep
  obtain ⟨branch, applies, done⟩ :=
    replayAll_eq_ok start (by simpa using distinct) (by simpa using chain) replay
  rw [List.append_nil] at branch
  rw [List.nil_append] at done
  rw [start.coins_eq] at applies
  obtain ⟨delta', finish', replaces⟩ := ForkDbOverlay.intoDelta_ok done branch ne
  rw [finish', Except.ok.injEq] at finish
  subst finish
  exact ⟨canonical.sound, canonical.chain, canonical.represents, branch, nep, replaces,
    canonical.unwind_below, applies⟩

/-- A branch of applicable blocks above fresh ones can be prepared. -/
theorem prepareDelta_ok (canonical : Canonical index s (p ++ q))
    (stored : (tables s).utxo = Coins.ledger (p ++ q)) (fresh : Coins.FreshAbove p q)
    (last : p.getLast? = some a) (branch : IsChain (p ++ bs)) (ne : bs ≠ [])
    (applies : Coins.Applies (Coins.ledger p) bs) :
    ∃ delta, prepareDelta index s a.blockHash bs = .ok delta := by
  have nep : p ≠ [] := by
    rintro rfl
    simp at last
  obtain ⟨rewound, build⟩ := buildForkOverlay_ok canonical stored fresh last
  have start := buildForkOverlay_eq_ok canonical last build
  have coins : rewound.coins = Coins.ledger p := by
    rw [start.coins_eq, stored]
    exact Coins.unwind_eq (Coins.applies_append.mp canonical.applies).2 fresh
  obtain ⟨final, replay⟩ := replayAll_ok .utxo start nep (by simpa using branch)
    (by rw [coins]; exact applies)
  obtain ⟨-, -, done⟩ := replayAll_eq_ok start (by simpa using branch.distinct)
    (by simpa using branch.left nep) replay
  rw [List.nil_append] at done
  obtain ⟨delta, finish, -⟩ := ForkDbOverlay.intoDelta_ok done branch ne
  exact ⟨delta, by simp [prepareDelta, build, replay, finish]⟩

end StryiChain
