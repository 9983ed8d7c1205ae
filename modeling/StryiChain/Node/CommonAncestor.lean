import StryiChain.Node.Adoption

/-!
# The last common block (`node/lca.rs:11-82`, `node/remote_peer.rs:137-185`)

Two hash-linked chains that share their genesis agree up to one height and nowhere above it, when
no two of their blocks share a hash. That is all that the search asks of the answers of a peer.
-/

namespace StryiChain

open LawfulStorage

section Search

variable [Primitives] {DB PeerDB : Type} [FullNodeStorage DB] [LawfulStorage DB]
  [FullNodeStorage PeerDB] {s : DB} {remotePeer : RemotePeer PeerDB} {L R : List Block}

/-- Chains of identified blocks agree exactly as far as they are the same. -/
theorem agreeBelow_commonPrefix (free : HashesIdentify fun b => b ∈ L ∨ b ∈ R)
    (chain : IsChain L) (chain' : IsChain R) : AgreeBelow L R (commonPrefix L R).length :=
  (forked_commonPrefix L R).agreeBelow free chain chain' (fun _ mem => .inl mem)
    (fun _ mem => .inr mem)

omit [Primitives] in
/-- The common part of two lists is read from both. -/
theorem getElem?_commonPrefix {i : Nat} (inside : i < (commonPrefix L R).length) :
    L[i]? = (commonPrefix L R)[i]? ∧ R[i]? = (commonPrefix L R)[i]? := by
  have forked := forked_commonPrefix L R
  constructor
  · conv_lhs => rw [forked.left]
    exact List.getElem?_append_left inside
  · conv_lhs => rw [forked.right]
    exact List.getElem?_append_left inside

/-- Two chains with one genesis have it in common. -/
theorem commonPrefix_pos (chain : IsChain L) (genesis : L[0]? = R[0]?) :
    0 < (commonPrefix L R).length := by
  obtain ⟨g, first, -⟩ := chain.genesis
  rw [first] at genesis
  cases L with
  | nil => cases first
  | cons a L =>
    cases R with
    | nil => cases genesis
    | cons b R =>
      rw [List.getElem?_cons_zero, Option.some.injEq] at first genesis
      rw [commonPrefix, if_pos (first.trans genesis), List.length_cons]
      exact Nat.succ_pos _

/-- The search for the last common block of two hash-linked chains with one genesis, no two blocks
of which share a hash. It ends without error, within as many rounds as there are heights to look
at and two more, and returns the greatest height at which both chains hold the same block, with the
hash of that block. -/
theorem find_lca_greatest (sound : Sound s) (chain : IsChain L)
    (represents : Represents (tables s) L) (chain' : IsChain R)
    (answers : ∀ {height : UInt64} {b : Block}, R[height.toNat]? = some b →
      remotePeer.requestBlockByHeight height = .ok b)
    (genesis : L[0]? = R[0]?) (free : HashesIdentify fun b => b ∈ L ∨ b ∈ R)
    {remoteTipHeight localTipHeight : UInt64} (height : localTipHeight.toNat + 1 = L.length)
    (height' : remoteTipHeight.toNat + 1 = R.length) :
    ∃ (k : UInt64) (common : Block), L[k.toNat]? = some common ∧ R[k.toNat]? = some common ∧
      (∀ (i : Nat) (b : Block), L[i]? = some b → R[i]? = some b → i ≤ k.toNat) ∧
      findLca s remotePeer remoteTipHeight localTipHeight = .ok (k, common.blockHash) ∧
      ∀ rounds, (min remoteTipHeight localTipHeight).toNat + 2 ≤ rounds →
        lcaLoop s remotePeer rounds 0 (min remoteTipHeight localTipHeight) (0, Hash.empty) =
          .ok (k, common.blockHash) := by
  have agree := agreeBelow_commonPrefix free chain chain'
  have pos := commonPrefix_pos chain genesis
  have forked := forked_commonPrefix L R
  have bound : (commonPrefix L R).length ≤ L.length := by
    conv_rhs => rw [forked.left]
    rw [List.length_append]
    exact Nat.le_add_right _ _
  have fits := represents.fits
  obtain ⟨k, hk⟩ : ∃ k : UInt64, k.toNat + 1 = (commonPrefix L R).length := by
    refine ⟨UInt64.ofNat ((commonPrefix L R).length - 1), ?_⟩
    rw [toNat_ofNat_u64 (by omega)]
    omega
  have inside : k.toNat < (commonPrefix L R).length := by omega
  obtain ⟨own, theirs⟩ := getElem?_commonPrefix inside
  obtain ⟨common, here⟩ : ∃ common, (commonPrefix L R)[k.toNat]? = some common :=
    ⟨_, List.getElem?_eq_getElem inside⟩
  rw [here] at own theirs
  have shared := (List.getElem?_eq_some_iff.mp theirs).1
  rw [← hk] at agree
  have search : ∀ rounds, (min remoteTipHeight localTipHeight).toNat + 2 ≤ rounds →
      lcaLoop s remotePeer rounds 0 (min remoteTipHeight localTipHeight) (0, Hash.empty) =
        .ok (k, common.blockHash) := fun rounds enough =>
    findLca_ok (localBlock_ok sound chain represents) answers fits agree own height height' shared
      rounds enough
  refine ⟨k, common, own, theirs, ?greatest, search _ (Nat.le_refl _), search⟩
  case greatest =>
    intro i b at_i at_i'
    exact Nat.lt_succ_iff.mp ((agree i b b at_i at_i').mp rfl)

end Search

open Sample in
/-- Two chains that part above the first block after the genesis. -/
theorem find_lca_greatest_sample : ∃ s peerStorage : RocksView,
    grown [other, next] = .ok s ∧ grown [other, aside, onward] = .ok peerStorage ∧
    findLca s (⟨⟨syncConfig, peerStorage⟩⟩ : RemotePeer RocksView) 3 2 =
      .ok (1, other.blockHash) := by
  have grows : (grown [other, next]).toOption.any (fun _ => true) = true := by decide +kernel
  obtain ⟨s, run, -⟩ := exists_ok_of_any grows
  have chain : IsChain (genesis :: [other, next]) := isChain_of_run (by decide +kernel)
  obtain ⟨sound, represents, -⟩ := growFrom_represents chain run
  obtain ⟨peerStorage, run', serves⟩ := exists_peer
  have apart : ∀ a ∈ [genesis, other, next, aside, onward],
      ∀ b ∈ [genesis, other, next, aside, onward], a.blockHash = b.blockHash → a = b := by
    decide +kernel
  have free : HashesIdentify fun b =>
      b ∈ genesis :: [other, next] ∨ b ∈ genesis :: [other, aside, onward] := by
    have listed : ∀ b, (b ∈ genesis :: [other, next] ∨ b ∈ genesis :: [other, aside, onward]) →
        b ∈ [genesis, other, next, aside, onward] := by
      have own : genesis :: [other, next] ⊆ [genesis, other, next, aside, onward] := by simp
      have theirs : genesis :: [other, aside, onward] ⊆
          [genesis, other, next, aside, onward] := by simp
      intro b mem
      exact mem.elim (fun h => own h) fun h => theirs h
    exact fun a b ha hb same => apart a (listed a ha) b (listed b hb) same
  obtain ⟨k, common, own, theirs, greatest, found, -⟩ :=
    @find_lca_greatest _ RocksView _ _ _ _ s ⟨⟨syncConfig, peerStorage⟩⟩ _ _ sound chain represents
      serves.chain serves.block_ok rfl free 3 2 rfl rfl
  -- the second block above the genesis is not the same on both sides
  have least := greatest 1 other rfl rfl
  have bound := (List.getElem?_eq_some_iff.mp own).1
  have first : k.toNat = 1 := by
    by_contra more
    have second : k.toNat = 2 := by
      rw [List.length_cons, List.length_cons, List.length_singleton] at bound
      omega
    rw [second] at own theirs
    exact absurd (own.trans theirs.symm) (by decide +kernel)
  rw [first] at own
  have here : common = other := Option.some.inj own.symm
  have height : k = 1 := UInt64.toNat_inj.mp first
  rw [here, height] at found
  exact ⟨s, peerStorage, run, run', found⟩

end StryiChain
