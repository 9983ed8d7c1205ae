import StryiChain.Node.Peer
import StryiChain.Node.Runtime

/-!
# Synchronization with a peer (`node/lca.rs`, `node/event_loop.rs`)

A node that hears of a heavier chain looks for the last block that it shares with the peer and
feeds everything above it to the engine, batch by batch. The search is a binary one: two chains
agree up to some height and nowhere above it.
-/

namespace StryiChain

open LawfulStorage StryiConsensusEngine

section Procedure

variable [Primitives] [Floats] {DB PeerDB : Type} [FullNodeStorage DB] [FullNodeStorage PeerDB]

/-- `StorageStats::chain_work`. -/
def storedChainWork (storage : DB) : Except StorageError Nat := do
  let state ← okOr (← chainState storage) .uninitialized
  return state.chainWork

/-- The local block of a round of `find_lca` (`lca.rs:38-50`). -/
def localBlock (storage : DB) (height : UInt64) : Except StryiNodeError Block := do
  okOr (← (getBlockByHeight storage height).mapError
      (.quoting s!"local get_block_by_height({height}) failed"))
    (.other s!"local block missing at height {height}")

/-- The loop of `find_lca` (`lca.rs:30-77`) with a bound on its rounds. -/
def lcaLoop (storage : DB) (remotePeer : RemotePeer PeerDB) :
    Nat → UInt64 → UInt64 → UInt64 × BlockHash → Except StryiNodeError (UInt64 × BlockHash)
  | 0, _, _, _ => .error .unfinished
  | rounds + 1, lowHeight, highHeight, best =>
      if highHeight < lowHeight then
        .ok best
      else do
        let midHeight := lowHeight + (highHeight - lowHeight) / 2
        let own ← localBlock storage midHeight
        let remote ← remotePeer.requestBlockByHeight midHeight
        if own.blockHash = remote.blockHash then
          lcaLoop storage remotePeer rounds (saturatingAdd midHeight 1) highHeight
            (midHeight, own.blockHash)
        else if midHeight = 0 then
          .ok best
        else
          lcaLoop storage remotePeer rounds lowHeight (midHeight - 1) best

/-- `find_lca` (`lca.rs:11-82`). Every round takes at least one height out of the search. -/
def findLca (storage : DB) (remotePeer : RemotePeer PeerDB)
    (remoteTipHeight localTipHeight : UInt64) : Except StryiNodeError (UInt64 × BlockHash) :=
  let highHeight := min remoteTipHeight localTipHeight
  lcaLoop storage remotePeer (highHeight.toNat + 2) 0 highHeight (0, Hash.empty)

/-- `height + 1` where an overflow panics. -/
def heightAbove (height : UInt64) : Except StryiNodeError UInt64 :=
  okOr (checkedAdd height 1) (.panicked "attempt to add with overflow")

/-- Whether the peer has our tip at its height; a failed request counts as no
(`event_loop.rs:688-693`). -/
def peerIncludesLocalTip (remotePeer : RemotePeer PeerDB) (localTipHeight : UInt64)
    (localTipHash : BlockHash) : Bool :=
  match remotePeer.requestBlockByHeight localTipHeight with
  | .ok block => block.blockHash = localTipHash
  | .error _ => false

/-- `prepare_peer_sync` (`event_loop.rs:637-733`) once the peer is connected: the height of the peer
and the first height to ask for, or nothing to do. -/
def preparePeerSync (config : StryiSyncServiceConfig) (remotePeer : RemotePeer PeerDB)
    (storage : DB) : Except StryiNodeError (Option (UInt64 × UInt64)) := do
  let info ← remotePeer.requestChainInfo
  failIf (info.chainName ≠ config.chainName ∨
      info.protocolVersion.toUInt64 ≠ config.protocolVersion)
    (.other "peer chain metadata does not match local configuration")
  let remoteGenesis ← remotePeer.requestGenesis
  let localGenesis ← okOr (← (getBlockByHeight storage 0).mapError .storage)
    (.other "local genesis is missing")
  failIf (remoteGenesis ≠ localGenesis) (.other "peer genesis does not match the local chain")
  let (localTipHeight, localTipHash) ← (tip storage).mapError .storage
  let localWork ← (storedChainWork storage).mapError .storage
  if info.chainWork ≤ localWork then
    return none
  else
    if peerIncludesLocalTip remotePeer localTipHeight localTipHash then
      return some (info.height, ← heightAbove localTipHeight)
    else
      let (lcaHeight, _) ← findLca storage remotePeer info.height localTipHeight
      return some (info.height, ← heightAbove lcaHeight)

/-- The call of `on_block` for a downloaded block; the clock is read when the block is checked. -/
def syncDelivery (clock : Block → UInt64) (block : Block) : Delivery :=
  ⟨clock block, .none, block⟩

/-- An error of the consensus worker, as the node sees it (`consensus_runtime.rs:75-90`). -/
def workerError : StryiCoreError → StryiNodeError
  | .panicked _ => .other "consensus worker panicked"
  | error => .core error

/-- The loop of `sync_from_peer` (`event_loop.rs:603-631`) with a bound on its rounds. -/
def downloadLoop (clock : Block → UInt64) (remotePeer : RemotePeer PeerDB) (batchSize : UInt32)
    (remoteHeight : UInt64) :
    Nat → UInt64 → ConsensusRuntime DB → Except StryiNodeError Unit × ConsensusRuntime DB
  | 0, _, runtime => (.error .unfinished, runtime)
  | rounds + 1, currentHeight, runtime =>
      if remoteHeight < currentHeight then
        (.ok (), runtime)
      else
        match remotePeer.requestBlocksByHeightRange currentHeight remoteHeight batchSize with
        | .error error => (.error error, runtime)
        | .ok [] => (.ok (), runtime)
        | .ok blocks =>
            match runtime.applyBlocks (blocks.map (syncDelivery clock)) with
            | (.error error, runtime) => (.error (workerError error), runtime)
            | (.ok outcomes, runtime) =>
                match outcomes.findSome? ConsensusRuntime.rejection with
                | some error =>
                    (.error (.other s!"Sync block rejected: {error.message}"), runtime)
                | none =>
                    match checkedAdd currentHeight (UInt64.ofNat blocks.length) with
                    | none => (.error (.panicked "attempt to add with overflow"), runtime)
                    | some nextHeight =>
                        downloadLoop clock remotePeer batchSize remoteHeight rounds nextHeight
                          runtime

/-- `sync_from_peer` (`event_loop.rs:583-635`). Every round of the download fetches a block. -/
def syncFromPeer (clock : Block → UInt64) (config : StryiSyncServiceConfig)
    (remotePeer : RemotePeer PeerDB) (runtime : ConsensusRuntime DB) :
    Except StryiNodeError Unit × ConsensusRuntime DB :=
  match preparePeerSync config remotePeer runtime.engine.db with
  | .error error => (.error error, runtime)
  | .ok none => (.ok (), runtime)
  | .ok (some (remoteHeight, syncStartHeight)) =>
      downloadLoop clock remotePeer config.maxBlocksRangePerRequest.toUInt32 remoteHeight
        (remoteHeight.toNat + 2) syncStartHeight runtime

end Procedure

section Search

variable [Primitives] {DB PeerDB : Type} [FullNodeStorage DB] [LawfulStorage DB]
  [FullNodeStorage PeerDB] [LawfulStorage PeerDB] {s : DB} {remotePeer : RemotePeer PeerDB}
  {w w' : List Block} {b : Block}

/-- A block of the canonical chain is read under its height. -/
theorem getBlockByHeight_of_represents (sound : Sound s) (chain : IsChain w)
    (represents : Represents (tables s) w) {height : UInt64}
    (at_height : w[height.toNat]? = some b) : getBlockByHeight s height = .ok (some b) := by
  have number : b.header.height = height := by
    rw [← UInt64.toNat_inj]
    exact chain.height at_height
  have found := represents.holds.get_height chain at_height
  rw [number] at found
  exact getBlockByHeight_some sound found
    (represents.holds.body b (List.mem_of_getElem? at_height)) number

theorem localBlock_ok (sound : Sound s) (chain : IsChain w)
    (represents : Represents (tables s) w) {height : UInt64}
    (at_height : w[height.toNat]? = some b) : localBlock s height = .ok b := by
  rw [localBlock, getBlockByHeight_of_represents sound chain represents at_height]
  rfl

/-- Two chains that agree below `n` and nowhere above it. -/
def AgreeBelow (w w' : List Block) (n : Nat) : Prop :=
  ∀ i a b, w[i]? = some a → w'[i]? = some b → (a.blockHash = b.blockHash ↔ i < n)

omit [LawfulStorage DB] [LawfulStorage PeerDB] in
/-- The search finds the last height at which the chains agree. -/
theorem lcaLoop_ok
    (reads : ∀ {height b}, w[height.toNat]? = some b → localBlock s height = .ok b)
    (answers : ∀ {height b}, w'[height.toNat]? = some b →
      remotePeer.requestBlockByHeight height = .ok b) (fits : w.length < 2 ^ 64)
    {k : UInt64} {own : Block} (agree : AgreeBelow w w' (k.toNat + 1))
    (top : w[k.toNat]? = some own) (rounds : Nat) (low high : UInt64) (best : UInt64 × BlockHash)
    (inside : high.toNat < w.length) (inside' : high.toNat < w'.length)
    (lower : low.toNat ≤ k.toNat + 1) (upper : k.toNat ≤ high.toNat)
    (enough : high.toNat + 1 < rounds + low.toNat)
    (found : low.toNat = k.toNat + 1 → best = (k, own.blockHash)) :
    lcaLoop s remotePeer rounds low high best = .ok (k, own.blockHash) := by
  induction rounds generalizing low high best with
  | zero => omega
  | succ rounds ih =>
    unfold lcaLoop
    by_cases passed : high < low
    · rw [if_pos passed]
      rw [UInt64.lt_iff_toNat_lt] at passed
      rw [found (by omega)]
    · rw [if_neg passed]
      rw [UInt64.lt_iff_toNat_lt] at passed
      obtain ⟨mid, hmid⟩ : ∃ mid, mid = low + (high - low) / 2 := ⟨_, rfl⟩
      have middle : mid.toNat = low.toNat + (high.toNat - low.toNat) / 2 := by
        have half : ((high - low) / 2).toNat = (high.toNat - low.toNat) / 2 := by
          rw [UInt64.toNat_div, UInt64.toNat_sub_of_le _ _ (UInt64.le_iff_toNat_le.mpr (by omega))]
          rfl
        rw [hmid, UInt64.toNat_add, half, Nat.mod_eq_of_lt (by omega)]
      obtain ⟨mine, at_mine⟩ : ∃ mine, w[mid.toNat]? = some mine :=
        ⟨_, List.getElem?_eq_getElem (by omega)⟩
      obtain ⟨remote, at_remote⟩ : ∃ remote, w'[mid.toNat]? = some remote :=
        ⟨_, List.getElem?_eq_getElem (by omega)⟩
      dsimp only
      rw [← hmid, reads at_mine, bind_ok, answers at_remote, bind_ok]
      have shared := agree mid.toNat mine remote at_mine at_remote
      by_cases same : mine.blockHash = remote.blockHash
      · have below := shared.mp same
        have next : (saturatingAdd mid 1).toNat = mid.toNat + 1 := by
          rw [saturatingAdd_toNat, UInt64.toNat_one]
          omega
        rw [if_pos same]
        refine ih _ high _ inside inside' ?_ upper ?_ ?_ <;> rw [next]
        · exact below
        · omega
        · intro last
          have here : mid = k := UInt64.toNat_inj.mp (Nat.succ_inj.mp last)
          rw [here, top, Option.some.injEq] at at_mine
          rw [at_mine, here]
      · have above := shared.not.mp same
        have positive : 0 < mid.toNat := by omega
        have nonzero : mid ≠ 0 := by
          intro zero
          rw [zero] at positive
          exact absurd positive (by decide)
        have previous : (mid - 1).toNat = mid.toNat - 1 := by
          rw [UInt64.toNat_sub_of_le _ _ (UInt64.le_iff_toNat_le.mpr (by
            rw [UInt64.toNat_one]
            omega)), UInt64.toNat_one]
        rw [if_neg same, if_neg nonzero]
        refine ih low (mid - 1) best ?_ ?_ lower ?_ ?_ found <;> rw [previous] <;> omega

omit [LawfulStorage DB] [LawfulStorage PeerDB] in
/-- `find_lca` returns the last height at which the chains agree, and the hash of the block
there. A search with more rounds returns the same. -/
theorem findLca_ok
    (reads : ∀ {height b}, w[height.toNat]? = some b → localBlock s height = .ok b)
    (answers : ∀ {height b}, w'[height.toNat]? = some b →
      remotePeer.requestBlockByHeight height = .ok b) (fits : w.length < 2 ^ 64)
    {k : UInt64} {own : Block} (agree : AgreeBelow w w' (k.toNat + 1))
    (top : w[k.toNat]? = some own) {remoteTipHeight localTipHeight : UInt64}
    (height : localTipHeight.toNat + 1 = w.length) (height' : remoteTipHeight.toNat + 1 = w'.length)
    (shared : k.toNat < w'.length) (rounds : Nat)
    (enough : (min remoteTipHeight localTipHeight).toNat + 2 ≤ rounds) :
    lcaLoop s remotePeer rounds 0 (min remoteTipHeight localTipHeight) (0, Hash.empty) =
      .ok (k, own.blockHash) := by
  have bounds : (min remoteTipHeight localTipHeight).toNat + 1 = min w'.length w.length := by
    rw [UInt64.min_def]
    split
    · rename_i less
      rw [UInt64.le_iff_toNat_le] at less
      omega
    · rename_i more
      rw [UInt64.le_iff_toNat_le] at more
      omega
  have present := (List.getElem?_eq_some_iff.mp top).1
  have zero := UInt64.toNat_zero
  apply lcaLoop_ok reads answers fits agree top <;> omega

end Search

section Preparation

variable [Primitives] {DB PeerDB : Type} [FullNodeStorage DB] [LawfulStorage DB]
  [FullNodeStorage PeerDB] [LawfulStorage PeerDB] {s : DB} {remotePeer : RemotePeer PeerDB}
  {config : StryiSyncServiceConfig} {g : Block} {own rest : List Block}

/-- The peer announces the chain and the protocol that the node is configured for. -/
structure SameNetwork (config peer : StryiSyncServiceConfig) : Prop where
  name : peer.chainName = config.chainName
  version : peer.protocolVersion.toUInt32.toUInt64 = config.protocolVersion

/-- A node that hears of a heavier chain asks for everything above the last common block. -/
theorem preparePeerSync_ok (sound : Sound s) (chain : IsChain (g :: own))
    (represents : Represents (tables s) (g :: own)) (serves : remotePeer.Serves (g :: rest))
    (network : SameNetwork config remotePeer.service.config)
    (heavier : chainWork (g :: own) < chainWork (g :: rest)) {n : Nat}
    (agree : AgreeBelow (g :: own) (g :: rest) n) (pos : 0 < n)
    (shared : n ≤ (g :: own).length ∧ n ≤ (g :: rest).length) :
    ∃ remoteHeight start, preparePeerSync config remotePeer s =
        .ok (some (remoteHeight, start)) ∧
      remoteHeight.toNat + 1 = (g :: rest).length ∧ start.toNat = n := by
  obtain ⟨info, asked, height', work', name, version⟩ := serves.chainInfo_ok
  obtain ⟨state, hstate⟩ := exists_stateOf chain
  obtain ⟨top, last, latest, -, work⟩ := stateOf_eq_some hstate
  have height := chain.tip_height last
  have fits := represents.fits
  have read : chainState s = .ok (some state) := by
    rw [chainState_eq sound, represents.state, hstate]
  have same : ¬ (info.chainName ≠ config.chainName ∨
      info.protocolVersion.toUInt64 ≠ config.protocolVersion) := by
    rw [name, version, network.name, network.version]
    simp
  have genesis : getBlockByHeight s 0 = .ok (some g) :=
    getBlockByHeight_of_represents sound chain represents rfl
  have tip' : tip s = .ok (top.header.height, top.blockHash) := by
    rw [tip, read, bind_ok, okOr_some, bind_ok, latest]
    rfl
  have stored : storedChainWork s = .ok (chainWork (g :: own)) := by
    rw [storedChainWork, read, bind_ok, okOr_some, bind_ok, work]
    rfl
  have next : ∀ {height : UInt64}, height.toNat + 1 = n →
      ∃ start, heightAbove height = .ok start ∧ start.toNat = n := by
    intro height above
    obtain ⟨start, sum⟩ : ∃ start, checkedAdd height 1 = some start := by
      rw [← Option.isSome_iff_exists, Option.isSome_iff_ne_none, Ne, checkedAdd_eq_none,
        UInt64.toNat_one]
      omega
    refine ⟨start, by rw [heightAbove, sum, okOr_some], ?_⟩
    rw [checkedAdd_eq_some.mp sum, UInt64.toNat_one, above]
  simp only [preparePeerSync, asked, bind_ok, failIf_of_not _ same, serves.genesis_ok, genesis,
    mapError_ok, okOr_some, failIf_of_not _ (not_not.mpr (rfl : g = g)), tip', stored, work',
    if_neg (Nat.not_le.mpr heavier)]
  by_cases includes : peerIncludesLocalTip remotePeer top.header.height top.blockHash = true
  · rw [if_pos includes]
    have below : top.header.height.toNat + 1 = n := by
      unfold peerIncludesLocalTip at includes
      rcases Nat.lt_or_ge top.header.height.toNat (g :: rest).length with inside | above
      · have at_remote := List.getElem?_eq_getElem inside
        have at_own : (g :: own)[top.header.height.toNat]? = some top := by
          rw [List.getLast?_eq_getElem?, ← height, Nat.add_sub_cancel] at last
          exact last
        rw [serves.block_ok at_remote] at includes
        have matched := (agree _ _ _ at_own at_remote).mp (of_decide_eq_true includes).symm
        omega
      · obtain ⟨error, missing⟩ := serves.block_above above
        rw [missing] at includes
        cases includes
    obtain ⟨start, above, total⟩ := next below
    refine ⟨info.height, start, ?_, height', total⟩
    rw [above]
    rfl
  · rw [if_neg includes]
    obtain ⟨k, hk⟩ : ∃ k : UInt64, k.toNat + 1 = n := by
      refine ⟨UInt64.ofNat (n - 1), ?_⟩
      rw [toNat_ofNat_u64 (by omega)]
      omega
    rw [← hk] at agree
    have at_k := List.getElem?_eq_getElem (l := g :: own) (i := k.toNat) (by omega)
    have search : findLca s remotePeer info.height top.header.height = .ok (k, _) :=
      findLca_ok (localBlock_ok sound chain represents) serves.block_ok fits agree at_k height
        height' (by omega) _ (Nat.le_refl _)
    obtain ⟨start, above, total⟩ := next hk
    refine ⟨info.height, start, ?_, height', total⟩
    rw [search, bind_ok, above]
    rfl

end Preparation

section Download

variable [Primitives] [Floats] {DB PeerDB : Type} [FullNodeStorage DB] [FullNodeStorage PeerDB]
  [LawfulStorage PeerDB] {remotePeer : RemotePeer PeerDB} {w w' : List Block}
  {clock : Block → UInt64} {batchSize : UInt32} {remoteHeight : UInt64}

/-- The calls that a download from a height on consists of. -/
def syncDeliveries (clock : Block → UInt64) (w : List Block) (height : Nat) : List Delivery :=
  (w.drop height).map (syncDelivery clock)

omit [Primitives] [Floats] in
/-- A batch is the first part of what is left to download. -/
theorem syncDeliveries_split (clock : Block → UInt64) (w : List Block) (height n : Nat) :
    syncDeliveries clock w height =
      ((w.drop height).take n).map (syncDelivery clock) ++
        syncDeliveries clock w (height + n) := by
  rw [syncDeliveries, syncDeliveries, ← List.map_append, ← List.drop_drop, List.take_append_drop]

/-- One round of the download below the height of the peer: a batch is fetched. -/
theorem downloadLoop_round (clock : Block → UInt64) (batchSize : UInt32)
    (serves : remotePeer.Serves w) (height : remoteHeight.toNat + 1 = w.length) (rounds : Nat) {current : UInt64}
    (below : current.toNat < w.length) (runtime : ConsensusRuntime DB) :
    ∃ n, 0 < n ∧ current.toNat + n ≤ w.length ∧ ((w.drop current.toNat).take n).length = n ∧
      downloadLoop clock remotePeer batchSize remoteHeight (rounds + 1) current runtime =
        match runtime.applyBlocks (((w.drop current.toNat).take n).map (syncDelivery clock)) with
        | (.error error, runtime) => (.error (workerError error), runtime)
        | (.ok outcomes, runtime) =>
            match outcomes.findSome? ConsensusRuntime.rejection with
            | some error => (.error (.other s!"Sync block rejected: {error.message}"), runtime)
            | none =>
                match checkedAdd current (UInt64.ofNat n) with
                | none => (.error (.panicked "attempt to add with overflow"), runtime)
                | some nextHeight =>
                    downloadLoop clock remotePeer batchSize remoteHeight rounds nextHeight
                      runtime := by
  have order : current.toNat ≤ remoteHeight.toNat := by omega
  obtain ⟨n, pos, bound, range⟩ := serves.range_ok batchSize order (by omega)
  have length : ((w.drop current.toNat).take n).length = n := by
    rw [List.length_take, List.length_drop]
    omega
  refine ⟨n, pos, by omega, length, ?_⟩
  have less : ¬ remoteHeight < current := by
    rw [UInt64.lt_iff_toNat_lt]
    omega
  rw [downloadLoop, if_neg less, range]
  cases blocks : (w.drop current.toNat).take n with
  | nil =>
    rw [blocks] at length
    rw [← length] at pos
    exact absurd pos (Nat.lt_irrefl 0)
  | cons b bs =>
    rw [blocks] at length
    rw [← length]

/-- The engine after a download has seen some of the blocks, in their order. -/
theorem downloadLoop_engine (serves : remotePeer.Serves w)
    (height : remoteHeight.toNat + 1 = w.length) (rounds : Nat) (current : UInt64)
    (runtime : ConsensusRuntime DB) : ∃ l, l.Sublist (syncDeliveries clock w current.toNat) ∧
      (downloadLoop clock remotePeer batchSize remoteHeight rounds current runtime).2.engine =
        deliverAll runtime.engine l := by
  induction rounds generalizing current runtime with
  | zero => exact ⟨[], List.nil_sublist _, rfl⟩
  | succ rounds ih =>
    have fits := serves.represents.fits
    rcases Nat.lt_or_ge current.toNat w.length with more | none
    · obtain ⟨n, pos, bound, length, round⟩ := downloadLoop_round clock batchSize serves height
        rounds more runtime
      obtain ⟨k, reached⟩ := ConsensusRuntime.applyBlocks_engine runtime
        (((w.drop current.toNat).take n).map (syncDelivery clock))
      rw [round, syncDeliveries_split clock w current.toNat n]
      have part := List.take_sublist k (((w.drop current.toNat).take n).map (syncDelivery clock))
      split
      · rename_i batch
        rw [batch] at reached
        exact ⟨_, part.trans (List.sublist_append_left _ _), reached⟩
      · rename_i batch
        rw [batch] at reached
        split
        · exact ⟨_, part.trans (List.sublist_append_left _ _), reached⟩
        · split
          · exact ⟨_, part.trans (List.sublist_append_left _ _), reached⟩
          · rename_i next hnext
            have sum := checkedAdd_eq_some.mp hnext
            rw [toNat_ofNat_u64 (by omega)] at sum
            obtain ⟨l, rest, last⟩ := ih next _
            rw [sum] at rest
            refine ⟨_, part.append rest, last.trans ?_⟩
            rw [deliverAll_append, reached]
    · have passed : remoteHeight < current := by
        rw [UInt64.lt_iff_toNat_lt]
        omega
      refine ⟨[], List.nil_sublist _, ?_⟩
      rw [downloadLoop, if_pos passed]
      rfl

/-- A download in which no block is rejected ends, and reaches the engine as a whole. -/
theorem downloadLoop_ok (serves : remotePeer.Serves w)
    (height : remoteHeight.toNat + 1 = w.length) (rounds : Nat) (current : UInt64)
    (runtime : ConsensusRuntime DB) (below : current.toNat ≤ w.length)
    (enough : w.length < rounds + current.toNat)
    (accepted : Along ConsensusRuntime.Accepts runtime.engine
      (syncDeliveries clock w current.toNat)) : ∃ after,
      downloadLoop clock remotePeer batchSize remoteHeight rounds current runtime =
        (.ok (), after) ∧
      after.engine = deliverAll runtime.engine (syncDeliveries clock w current.toNat) := by
  induction rounds generalizing current runtime with
  | zero => omega
  | succ rounds ih =>
    have fits := serves.represents.fits
    rcases Nat.lt_or_ge current.toNat w.length with more | none
    · obtain ⟨n, pos, bound, length, round⟩ := downloadLoop_round clock batchSize serves height rounds more
        runtime
      rw [round]
      rw [syncDeliveries_split clock w current.toNat n, Along.append] at accepted
      obtain ⟨outcomes, middle, batch, reached, fine⟩ :=
        ConsensusRuntime.applyBlocks_ok accepted.1
      obtain ⟨next, hnext⟩ : ∃ next, checkedAdd current (UInt64.ofNat n) = some next := by
        rw [← Option.isSome_iff_exists, Option.isSome_iff_ne_none, Ne, checkedAdd_eq_none,
          toNat_ofNat_u64 (by omega)]
        omega
      have sum := checkedAdd_eq_some.mp hnext
      rw [toNat_ofNat_u64 (by omega)] at sum
      have rest := accepted.2
      rw [← reached, ← sum] at rest
      obtain ⟨after, done, last⟩ := ih next middle (by omega) (by omega) rest
      refine ⟨after, ?_, ?_⟩
      · rw [batch]
        dsimp only
        rw [fine]
        dsimp only
        rw [hnext]
        exact done
      · rw [last, reached, syncDeliveries_split clock w current.toNat n, deliverAll_append, sum]
    · have passed : remoteHeight < current := by
        rw [UInt64.lt_iff_toNat_lt]
        omega
      refine ⟨runtime, ?_, ?_⟩
      · rw [downloadLoop, if_pos passed]
      · rw [syncDeliveries, List.drop_eq_nil_of_le none]
        rfl

end Download

end StryiChain
