import StryiChain.Node.Bootstrap
import StryiChain.Node.Download

/-!
# Starting a node against its network (`node/sync.rs`)

Before it serves anything, a node looks for the peer with the most work, takes over or compares the
genesis block, builds an engine over its storage and downloads the chain of that peer. The new
engine has no branches, so that nothing is in the way of a heavier chain.
-/

namespace StryiChain

open LawfulStorage StryiConsensusEngine

section Best

variable {α : Type} {key : α → Nat} {l : List α}

/-- `Iterator::max_by_key`: of several maximal entries the last one. -/
def maxByKey (key : α → Nat) (l : List α) : Option α :=
  l.foldl (fun best a => match best with
    | none => some a
    | some b => if key b ≤ key a then some a else some b) none

theorem maxByKey_concat (a : α) : maxByKey key (l ++ [a]) = match maxByKey key l with
    | none => some a
    | some b => if key b ≤ key a then some a else some b := by
  rw [maxByKey, List.foldl_append]
  rfl

/-- Something is found unless there is nothing, and it is a largest entry. -/
theorem maxByKey_spec (key : α → Nat) (l : List α) :
    (l = [] ∧ maxByKey key l = none) ∨
      ∃ a ∈ l, maxByKey key l = some a ∧ ∀ b ∈ l, key b ≤ key a := by
  induction l using List.reverseRecOn with
  | nil => exact .inl ⟨rfl, rfl⟩
  | append_singleton l a ih =>
    refine .inr ?_
    rw [maxByKey_concat]
    rcases ih with ⟨rfl, none⟩ | ⟨b, mem, found, largest⟩
    · rw [none]
      exact ⟨a, by simp, rfl, by simp⟩
    · rw [found]
      dsimp only
      by_cases le : key b ≤ key a
      · rw [if_pos le]
        refine ⟨a, by simp, rfl, fun c inside => ?_⟩
        rcases List.mem_append.mp inside with old | last
        · exact Nat.le_trans (largest c old) le
        · rw [List.mem_singleton.mp last]
      · rw [if_neg le]
        refine ⟨b, List.mem_append_left _ mem, rfl, fun c inside => ?_⟩
        rcases List.mem_append.mp inside with old | last
        · exact largest c old
        · rw [List.mem_singleton.mp last]
          omega

end Best

/-- `StryiNodeError::PeerChainInfoMismatch`. -/
structure PeerChainInfoMismatch where
  field : String
  local' : String
  remote : String

/-- `require_chain_info_eq` (`sync.rs:376-391`). -/
def requireChainInfoEq {T : Type} [DecidableEq T] [ToString T] (field : String) (local' remote : T) :
    Except PeerChainInfoMismatch Unit :=
  failIf (local' ≠ remote) ⟨field, toString local', toString remote⟩

/-- `validate_peer_chain_invariants` (`sync.rs:360-374`). -/
def validatePeerChainInvariants (config : StryiSyncServiceConfig) (info : RemoteChainInfo) :
    Except PeerChainInfoMismatch Unit := do
  requireChainInfoEq "protocol_version" config.protocolVersion info.protocolVersion.toUInt64
  requireChainInfoEq "chain_name" config.chainName info.chainName

/-- A peer that advertises the sync service: the version of its record, and what dialling it
gives. -/
structure SyncCandidate (PeerDB : Type) where
  version : UInt32
  connect : Except StryiNodeError (RemotePeer PeerDB)

section Procedure

variable [Primitives] [Floats] {DB PeerDB : Type} [FullNodeStorage DB] [FullNodeStorage PeerDB]

/-- `query_sync_peers` (`sync.rs:421-435`) on the answer of the network. -/
def querySyncPeers (config : StryiSyncServiceConfig)
    (candidates : Except StryiNodeError (List (SyncCandidate PeerDB))) :
    Except StryiNodeError (List (SyncCandidate PeerDB)) := do
  return (← candidates).filter fun candidate => candidate.version.toUInt64 = config.protocolVersion

/-- One round of the loop of `find_best_peer` (`sync.rs:293-336`): whatever is wrong with a peer, it
is skipped. -/
def qualifies (config : StryiSyncServiceConfig) (localWork : Nat)
    (candidate : SyncCandidate PeerDB) : Option (RemotePeer PeerDB × RemoteChainInfo) := do
  let remotePeer ← candidate.connect.toOption
  let chainInfo ← remotePeer.requestChainInfo.toOption
  (validatePeerChainInvariants config chainInfo).toOption
  if chainInfo.chainWork ≤ localWork then none else some (remotePeer, chainInfo)

/-- `find_best_peer` (`sync.rs:267-358`). The text of a failed query is not kept. -/
def findBestPeer (config : StryiSyncServiceConfig) (storage : DB)
    (candidates : Except StryiNodeError (List (SyncCandidate PeerDB))) :
    Except StryiNodeError (RemotePeer PeerDB × RemoteChainInfo) := do
  let peersList ← (querySyncPeers config candidates).mapError fun _ =>
    .other "failed to discover peers"
  failIf (peersList.isEmpty = true) (.other "no peers with compatible gRPC sync service found")
  let state ← (chainState storage).mapError .storage
  let localWork := (state.map ChainState.chainWork).getD 0
  okOr (maxByKey (fun candidate => candidate.2.chainWork)
      (peersList.filterMap (qualifies config localWork)))
    (.other "all peers have less or equal work than local chain - it's nothing to sync")

/-- `PEER_DISCOVERY_MAX_RETRIES` (`sync.rs:26`). -/
def peerDiscoveryMaxRetries : Nat := 30

/-- The loop of `synchronize` that looks for a peer (`sync.rs:62-90`), with the attempts that are
left. The text of the last error is not kept. -/
def discoverPeer (config : StryiSyncServiceConfig) (storage : DB)
    (query : Nat → Except StryiNodeError (List (SyncCandidate PeerDB))) :
    Nat → Except StryiNodeError (RemotePeer PeerDB × RemoteChainInfo)
  | 0 => .error (.other "peer discovery failed after 30 attempts")
  | left + 1 =>
      match findBestPeer config storage (query (peerDiscoveryMaxRetries - left)) with
      | .ok best => .ok best
      | .error _ => discoverPeer config storage query left

/-- `ensure_genesis` (`sync.rs:220-262`). The text of a failed `confirm_and_save` is not kept. -/
def ensureGenesis (config : StryiSyncServiceConfig) (nowSecs : UInt64) (storage : DB)
    (remotePeer : RemotePeer PeerDB) : Except StryiNodeError DB := do
  let remoteGenesisBlock ← remotePeer.requestGenesis
  match ← (getBlockByHeight storage 0).mapError (.quoting "failed to query storage for genesis") with
  | some localGenesisBlock =>
      failIf (localGenesisBlock ≠ remoteGenesisBlock)
        (.other "genesis mismatch: local and remote peer have different genesis blocks")
      return storage
  | none =>
      let (_, storage) ← (confirmAndSave storage remoteGenesisBlock config.chainName
        config.protocolVersion true nowSecs).mapError fun _ => .other "confirm_and_save failed"
      return storage

/-- The first height to download (`sync.rs:118-158`, `event_loop.rs:686-730`). -/
def syncStartHeight (storage : DB) (remotePeer : RemotePeer PeerDB)
    (remoteHeight localTipHeight : UInt64) (localTipHash : BlockHash) :
    Except StryiNodeError UInt64 := do
  if peerIncludesLocalTip remotePeer localTipHeight localTipHash then
    heightAbove localTipHeight
  else
    let (lcaHeight, _) ← findLca storage remotePeer remoteHeight localTipHeight
    heightAbove lcaHeight

/-- `synchronize` (`sync.rs:48-191`): the engine that the node goes on with, and the storage, which
keeps what was committed before an error. -/
def synchronize (config : StryiSyncServiceConfig) (clock : Block → UInt64) (nowSecs : UInt64)
    (query : Nat → Except StryiNodeError (List (SyncCandidate PeerDB))) (storage : DB) :
    Except StryiNodeError (StryiConsensusEngine DB) × DB :=
  match (chainState storage).mapError StryiNodeError.storage with
  | .error error => (.error error, storage)
  | .ok state =>
      let (localTipHeight, localTipHash) := (state.map ChainState.latestBlock).getD (0, .empty)
      match discoverPeer config storage query peerDiscoveryMaxRetries with
      | .error error => (.error error, storage)
      | .ok (remotePeer, remoteChainInfo) =>
          match ensureGenesis config nowSecs storage remotePeer with
          | .error error => (.error error, storage)
          | .ok storage =>
              match buildConsensusEngine storage with
              | .error error => (.error error, storage)
              | .ok engine =>
                  match syncStartHeight storage remotePeer remoteChainInfo.height localTipHeight
                      localTipHash with
                  | .error error => (.error error, storage)
                  | .ok start =>
                      match runIbd clock engine remotePeer start remoteChainInfo.height
                          config.maxBlocksRangePerRequest with
                      | (.error error, engine) => (.error error, engine.db)
                      | (.ok (), engine) => (.ok engine, engine.db)

end Procedure

section Start

variable [Primitives] {DB PeerDB : Type} [FullNodeStorage DB] [LawfulStorage DB]
  [FullNodeStorage PeerDB] [LawfulStorage PeerDB] {s : DB} {remotePeer : RemotePeer PeerDB}
  {g top : Block} {w own rest : List Block} {info : RemoteChainInfo}

/-- The download starts above the last common block, as that of a running node does. -/
theorem syncStartHeight_ok (sound : Sound s) (chain : IsChain (g :: own))
    (represents : Represents (tables s) (g :: own)) (last : (g :: own).getLast? = some top)
    (serves : remotePeer.Serves (g :: rest)) (asked : remotePeer.requestChainInfo = .ok info)
    (heavier : chainWork (g :: own) < chainWork (g :: rest)) {n : Nat}
    (agree : AgreeBelow (g :: own) (g :: rest) n) (pos : 0 < n)
    (shared : n ≤ (g :: own).length ∧ n ≤ (g :: rest).length) :
    ∃ start, syncStartHeight s remotePeer info.height top.header.height top.blockHash = .ok start ∧
      start.toNat = n := by
  -- A running node that is configured as the peer announces itself makes the same computation.
  let config : StryiSyncServiceConfig := ⟨remotePeer.service.config.chainName,
    remotePeer.service.config.protocolVersion.toUInt32.toUInt64, 0⟩
  have network : SameNetwork config remotePeer.service.config := ⟨rfl, rfl⟩
  obtain ⟨remoteHeight, start, prepared, -, total⟩ := preparePeerSync_ok sound chain represents
    serves network heavier agree pos shared
  refine ⟨start, ?_, total⟩
  have tip' : tip s = .ok (top.header.height, top.blockHash) :=
    ForkDbOverlay.tip_ok sound represents last
  simp only [preparePeerSync, asked, tip', mapError_ok, bind_ok, bind_eq_ok] at prepared
  obtain ⟨⟨⟩, -, genesis, -, stored, -, localGenesis, -, ⟨⟩, -, work, -, answer⟩ := prepared
  rw [syncStartHeight]
  split at answer
  · cases answer
  · split at answer
    · rename_i includes
      rw [if_pos includes]
      obtain ⟨above, found, same⟩ := bind_eq_ok.mp answer
      obtain ⟨-, rfl⟩ := Prod.mk.inj (Option.some.inj (Except.ok.inj same))
      exact found
    · rename_i apart
      rw [if_neg apart]
      obtain ⟨lca, search, answer⟩ := bind_eq_ok.mp answer
      obtain ⟨above, found, same⟩ := bind_eq_ok.mp answer
      obtain ⟨-, rfl⟩ := Prod.mk.inj (Option.some.inj (Except.ok.inj same))
      rw [search]
      exact found

end Start

section Discovery

variable [Primitives] {DB PeerDB : Type} [FullNodeStorage DB] [LawfulStorage DB]
  [FullNodeStorage PeerDB] {config : StryiSyncServiceConfig} {s : DB} {localWork : Nat}
  {candidate : SyncCandidate PeerDB} {remotePeer : RemotePeer PeerDB} {info : RemoteChainInfo}
  {candidates : Except StryiNodeError (List (SyncCandidate PeerDB))}
  {query : Nat → Except StryiNodeError (List (SyncCandidate PeerDB))}

/-- A peer that the network names, that can be dialled, and that announces the same chain. -/
structure Suitable (config : StryiSyncServiceConfig)
    (candidates : Except StryiNodeError (List (SyncCandidate PeerDB)))
    (remotePeer : RemotePeer PeerDB) : Prop where
  listed : ∃ peers, candidates = .ok peers ∧ ∃ candidate ∈ peers,
    candidate.version.toUInt64 = config.protocolVersion ∧ candidate.connect = .ok remotePeer
  network : SameNetwork config remotePeer.service.config

omit [Primitives] in
theorem validatePeerChainInvariants_eq_ok (config : StryiSyncServiceConfig)
    (info : RemoteChainInfo) (u : Unit) : validatePeerChainInvariants config info = .ok u ↔
      config.protocolVersion = info.protocolVersion.toUInt64 ∧ config.chainName = info.chainName := by
  simp [validatePeerChainInvariants, requireChainInfoEq, bind_eq_ok]

omit [Primitives] in
/-- What a peer announces about the network is its configuration. -/
theorem requestChainInfo_config (asked : remotePeer.requestChainInfo = .ok info) :
    info.chainName = remotePeer.service.config.chainName ∧
      info.protocolVersion = remotePeer.service.config.protocolVersion.toUInt32 := by
  simp only [RemotePeer.requestChainInfo, StryiSyncService.getChainInfo, mapError_eq_ok,
    bind_eq_ok, okOr_eq_ok, pure_eq_ok] at asked
  obtain ⟨found, -, state, -, rfl⟩ := asked
  exact ⟨rfl, rfl⟩

omit [Primitives] in
/-- The peers that qualify are the dialled ones with the same configuration and more work. -/
theorem qualifies_eq_some : qualifies config localWork candidate = some (remotePeer, info) ↔
    candidate.connect = .ok remotePeer ∧ remotePeer.requestChainInfo = .ok info ∧
      SameNetwork config remotePeer.service.config ∧ localWork < info.chainWork := by
  unfold qualifies
  simp only [Option.bind_eq_bind, Option.bind_eq_some_iff, toOption_eq_some,
    validatePeerChainInvariants_eq_ok]
  constructor
  · rintro ⟨remotePeer', dialled, info', asked, -, ⟨version, name⟩, passes⟩
    split at passes
    · cases passes
    · rename_i more
      obtain ⟨rfl, rfl⟩ := Prod.mk.inj (Option.some.inj passes)
      obtain ⟨name', version'⟩ := requestChainInfo_config asked
      refine ⟨dialled, asked, ⟨?_, ?_⟩, Nat.lt_of_not_le more⟩
      · rw [name, name']
      · rw [version, version']
  · rintro ⟨dialled, asked, network, more⟩
    obtain ⟨name', version'⟩ := requestChainInfo_config asked
    refine ⟨remotePeer, dialled, info, asked, (), ⟨?_, ?_⟩, if_neg (Nat.not_le.mpr more)⟩
    · rw [version', network.version]
    · rw [name', network.name]

/-- The peer that is found is suitable and announces more work than the node has, and no
suitable peer announces more. -/
structure Best (config : StryiSyncServiceConfig)
    (candidates : Except StryiNodeError (List (SyncCandidate PeerDB))) (localWork : Nat)
    (remotePeer : RemotePeer PeerDB) (info : RemoteChainInfo) : Prop where
  suitable : Suitable config candidates remotePeer
  asked : remotePeer.requestChainInfo = .ok info
  heavier : localWork < info.chainWork
  largest : ∀ remotePeer' info', Suitable config candidates remotePeer' →
    remotePeer'.requestChainInfo = .ok info' → info'.chainWork ≤ info.chainWork

/-- Which peer a round of the search finds. -/
theorem findBestPeer_eq_ok (sound : Sound s)
    (work : ((tables s).state.map ChainState.chainWork).getD 0 = localWork)
    (found : findBestPeer config s candidates = .ok (remotePeer, info)) :
    Best config candidates localWork remotePeer info := by
  simp only [findBestPeer, querySyncPeers, mapError_eq_ok, bind_eq_ok, pure_eq_ok, failIf_eq_ok,
    okOr_eq_ok, chainState_eq sound, Except.ok.injEq] at found
  obtain ⟨listed, ⟨peers, answer, rfl⟩, ⟨⟩, -, state, rfl, chosen⟩ := found
  rw [work] at chosen
  rcases maxByKey_spec (fun candidate : RemotePeer PeerDB × RemoteChainInfo =>
      candidate.2.chainWork) ((peers.filter fun candidate => decide
        (candidate.version.toUInt64 = config.protocolVersion)).filterMap
          (qualifies config localWork)) with ⟨-, none⟩ | ⟨best, mem, some, largest⟩
  · cases none.symm.trans chosen
  · obtain rfl : best = (remotePeer, info) := Option.some.inj (some.symm.trans chosen)
    obtain ⟨candidate, inside, passes⟩ := List.mem_filterMap.mp mem
    obtain ⟨listed, version⟩ := List.mem_filter.mp inside
    obtain ⟨dialled, asked, network, heavier⟩ := qualifies_eq_some.mp passes
    refine ⟨⟨⟨peers, answer, candidate, listed, of_decide_eq_true version, dialled⟩, network⟩,
      asked, heavier, fun remotePeer' info' suitable asked' => ?_⟩
    obtain ⟨⟨peers', answer', candidate', listed', version', dialled'⟩, network'⟩ := suitable
    obtain rfl : peers = peers' := Except.ok.inj (answer.symm.trans answer')
    rcases Nat.lt_or_ge localWork info'.chainWork with more | less
    · apply largest (remotePeer', info')
      exact List.mem_filterMap.mpr ⟨candidate',
        List.mem_filter.mpr ⟨listed', decide_eq_true version'⟩,
        qualifies_eq_some.mpr ⟨dialled', asked', network', more⟩⟩
    · exact Nat.le_trans less heavier.le

/-- A round finds a peer if there is a suitable one with more work. -/
theorem findBestPeer_ok (sound : Sound s)
    (work : ((tables s).state.map ChainState.chainWork).getD 0 = localWork)
    (suitable : Suitable config candidates remotePeer)
    (asked : remotePeer.requestChainInfo = .ok info) (heavier : localWork < info.chainWork) :
    ∃ best, findBestPeer config s candidates = .ok best := by
  obtain ⟨⟨peers, answer, candidate, listed, version, dialled⟩, network⟩ := suitable
  have inside : candidate ∈ peers.filter fun candidate => decide
      (candidate.version.toUInt64 = config.protocolVersion) :=
    List.mem_filter.mpr ⟨listed, decide_eq_true version⟩
  have passes := qualifies_eq_some.mpr ⟨dialled, asked, network, heavier⟩
  have mem := List.mem_filterMap.mpr ⟨candidate, inside, passes⟩
  have some : ¬ ((peers.filter fun candidate => decide
      (candidate.version.toUInt64 = config.protocolVersion)).isEmpty = true) := by
    rw [List.isEmpty_iff]
    intro none
    rw [none] at inside
    cases inside
  rcases maxByKey_spec (fun candidate : RemotePeer PeerDB × RemoteChainInfo =>
      candidate.2.chainWork) ((peers.filter fun candidate => decide
        (candidate.version.toUInt64 = config.protocolVersion)).filterMap
          (qualifies config localWork)) with ⟨none, -⟩ | ⟨best, -, chosen, -⟩
  · rw [none] at mem
    cases mem
  · refine ⟨best, ?_⟩
    simp only [findBestPeer, querySyncPeers, answer, bind_ok, pure_except, mapError_ok,
      failIf_of_not _ some, chainState_eq sound, work, chosen, okOr_some]

omit [Primitives] [LawfulStorage DB] in
/-- The search ends with the first round that finds a peer. -/
theorem discoverPeer_ok (left : Nat) (finds : ∃ attempt, peerDiscoveryMaxRetries < attempt + left ∧
      attempt ≤ peerDiscoveryMaxRetries ∧
      ∃ best, findBestPeer config s (query attempt) = .ok best) :
    ∃ attempt best, peerDiscoveryMaxRetries < attempt + left ∧ attempt ≤ peerDiscoveryMaxRetries ∧
      findBestPeer config s (query attempt) = .ok best ∧
      discoverPeer config s query left = .ok best ∧
      ∀ earlier, peerDiscoveryMaxRetries < earlier + left → earlier < attempt →
        ∀ best', findBestPeer config s (query earlier) ≠ .ok best' := by
  induction left with
  | zero =>
    obtain ⟨attempt, above, below, -⟩ := finds
    omega
  | succ left ih =>
    rw [discoverPeer]
    obtain ⟨attempt, above, below, best, found⟩ := finds
    cases run : findBestPeer config s (query (peerDiscoveryMaxRetries - left)) with
    | ok best =>
      refine ⟨_, best, by omega, Nat.sub_le _ _, run, rfl, fun earlier later before => ?_⟩
      omega
    | error error =>
      have next : peerDiscoveryMaxRetries < attempt + left := by
        by_contra now
        obtain rfl : attempt = peerDiscoveryMaxRetries - left := by omega
        rw [run] at found
        cases found
      obtain ⟨first, best, above', below', found', ends, none⟩ :=
        ih ⟨attempt, next, below, best, found⟩
      refine ⟨first, best, by omega, below', found', ends, fun earlier later before => ?_⟩
      rcases Nat.lt_or_ge peerDiscoveryMaxRetries (earlier + left) with inside | now
      · exact none earlier inside before
      · obtain rfl : earlier = peerDiscoveryMaxRetries - left := by omega
        intro best' same
        rw [run] at same
        cases same

end Discovery

section Adoption

variable [Primitives] [Floats] {DB PeerDB : Type} [FullNodeStorage DB] [LawfulStorage DB]
  [FullNodeStorage PeerDB] [LawfulStorage PeerDB] {U : Block → Prop}
  {engine : StryiConsensusEngine DB} {g : Block} {w base q r : List Block}
  {clock : Block → UInt64} {chainMetadata : ChainMetadata} {consts : ConsensusConsts}
  {validator : BlockValidator} {remotePeer : RemotePeer PeerDB}

omit [Floats] in
theorem Secure.restarted (secure : Secure U g engine w)
    (rules : validator.consensusConsts = engine.blockValidator.consensusConsts) :
    ∃ engine', StryiConsensusEngine.new consts validator engine.db = .ok engine' ∧
      Secure U g engine' w ∧ engine'.db = engine.db ∧ engine'.forks = ∅ ∧
      engine'.blockValidator = validator := by
  obtain ⟨engine', built, inv', storage, forks, validator'⟩ := secure.toInvariant.restarted rules
  refine ⟨engine', built, ⟨inv', ?_, ?_, ?_, ?_⟩, storage, forks, validator'⟩
  · rw [storage]
    exact secure.exact
  · rw [storage]
    exact secure.archived
  · rw [storage]
    exact secure.bodies
  · intro key e found
    rw [forks, Table.read_empty] at found
    cases found

omit [Floats] in
/-- An engine without branches that downloads the rest of a heavier chain adopts it. -/
theorem Secure.ibd_adopts (free : HashesIdentify fun b => b = g ∨ U b)
    (secure : Secure U g engine (g :: base ++ q)) (alone : engine.forks = ∅)
    (forked : Forked (g :: base ++ q) (g :: (base ++ r)) (g :: base) q r)
    (serves : remotePeer.Serves (g :: (base ++ r)))
    (offered : Offered DB validator clock g chainMetadata (base ++ r))
    (known : ∀ b ∈ base ++ r, U b) (rules : engine.blockValidator = validator)
    (heavier : chainWork (g :: base ++ q) < chainWork (g :: (base ++ r)))
    (fits : ∀ b ∈ base ++ r, b.data.transactions.length ≤ 2 ^ 32)
    (room : (base ++ r).length < 2 ^ 64 - 2) (below : HeightsBelow engine)
    (fresh : Coins.FreshAbove (g :: base) q) {start toHeight : UInt64} (maxBatch : UInt64)
    (first : start.toNat = (g :: base).length)
    (height : toHeight.toNat + 1 = (g :: (base ++ r)).length) :
    ∃ after, runIbd clock engine remotePeer start toHeight maxBatch = (.ok (), after) ∧
      canonicalBlocks after.db = g :: (base ++ r) := by
  have progress : Progress U g (g :: base) q r engine [] := by
    refine .behind secure (fun key e found => ?_) (.inl rfl)
    rw [alone, Table.read_empty] at found
    cases found
  obtain ⟨accepted, final⟩ := progress.run free forked offered serves.chain known
    (fun b mem => fits b (List.mem_append_right base mem)) room fresh rfl rules below
  -- The range is what the chain of the peer has above the common part.
  have range : blocksBetween (g :: (base ++ r)) start.toNat toHeight.toNat = r := by
    rw [blocksBetween, height, first]
    show List.take _ (List.drop (base.length + 1) (g :: (base ++ r))) = r
    rw [List.drop_succ_cons, List.drop_left]
    refine List.take_of_length_le ?_
    simp only [List.length_cons, List.length_append]
    omega
  have inside : toHeight.toNat < (g :: (base ++ r)).length := by omega
  have limit := serves.represents.fits
  obtain ⟨batches, -, whole, run⟩ := downloadRange_eq (serves.delivers inside maxBatch.toUInt32)
    inside (by omega) (toHeight.toNat + 2) start (by omega) (by omega)
  rw [range] at whole
  subst whole
  have one : ∀ (engine : StryiConsensusEngine DB) blocks,
      Along ConsensusRuntime.Accepts (id engine) (blocks.map (syncDelivery clock)) →
      ∃ after, ingestIbdBatch clock engine blocks = (.ok (), after) ∧
        id after = deliverAll (id engine) (blocks.map (syncDelivery clock)) :=
    fun engine blocks accepted => ⟨_, ingestIbdBatch_ok accepted, rfl⟩
  obtain ⟨after, fed, reached⟩ := feedAll_ok one accepted
  have reached' : after = deliverAll engine (batches.flatten.map (syncDelivery clock)) := reached
  refine ⟨after, (run _ _ _ _ engine).trans fed, ?_⟩
  rw [← reached'] at final
  refine final.adopts free offered serves.chain known ?_ heavier
  rw [reached', deliverAll_blockValidator, rules]

end Adoption

section Start

variable [Primitives] {DB PeerDB : Type} [FullNodeStorage DB] [LawfulStorage DB]
  [FullNodeStorage PeerDB] [LawfulStorage PeerDB] {heard : Block → Prop} {s : DB} {g : Block}
  {validator validator' : BlockValidator} {remotePeer : RemotePeer PeerDB} {own rest : List Block}
  {config : StryiSyncServiceConfig} {nowSecs : UInt64} {clock : Block → UInt64}
  {chainMetadata : ChainMetadata} {created : Int64}
  {query : Nat → Except StryiNodeError (List (SyncCandidate PeerDB))}

/-- What a node finds on its disk when it starts: nothing, or a genesis and what its sessions have
made of it. -/
inductive Left (heard : Block → Prop) (g : Block) : DB → Prop
  | nothing : Left heard g StorageWrite.initial
  | saved {s : DB} {chainName : String} {protocolVersion nowSecs : UInt64} {accepted : Bool}
      (run : confirmAndSave StorageWrite.initial g chainName protocolVersion accepted nowSecs =
        .ok (.savedNow, s)) : Left heard g s
  | session {s : DB} {engine : StryiConsensusEngine DB} {deliveries : List Delivery}
      (left : Left heard g s) (built : buildConsensusEngine s = .ok engine)
      (inside : ∀ delivery ∈ deliveries, heard delivery.block)
      (careful : Along Careful engine deliveries) : Left heard g (deliverAll engine deliveries).db

omit [Primitives] in
/-- The genesis block determines the rules. -/
theorem EnforcesGenesis.unique (enforces : EnforcesGenesis g validator)
    (enforces' : EnforcesGenesis g validator') : validator = validator' := by
  obtain ⟨consts, ⟨params, valid⟩⟩ := validator
  obtain ⟨consts', ⟨params', valid'⟩⟩ := validator'
  obtain rfl : params = consts.pow := enforces.pow
  obtain rfl : params' = consts'.pow := enforces'.pow
  have same : some (GenesisState.mk consts) = some ⟨consts'⟩ :=
    enforces.rules.symm.trans enforces'.rules
  obtain rfl : consts = consts' := GenesisState.mk.inj (Option.some.inj same)
  rfl

/-- The storage of a secure engine that enforces the rules of its genesis block. -/
def Enforced (heard : Block → Prop) (g : Block) (s : DB) (w : List Block) : Prop :=
  ∃ engine : StryiConsensusEngine DB, Secure heard g engine w ∧ engine.db = s ∧
    EnforcesGenesis g engine.blockValidator

/-- The engine that is built over such a storage has its chain and no branches. -/
theorem Enforced.builds (enforced : Enforced heard g s own) :
    ∃ engine, buildConsensusEngine s = .ok engine ∧ Secure heard g engine own ∧ engine.db = s ∧
      engine.forks = ∅ ∧ EnforcesGenesis g engine.blockValidator := by
  obtain ⟨old, secure, rfl, enforces⟩ := enforced
  obtain ⟨engine, built, secure', storage, forks, validator⟩ := secure.restarted rfl
  obtain ⟨rest, first⟩ := secure.first
  have canonical := secure.canonical
  refine ⟨engine, ?_, secure', storage, forks, validator ▸ enforces⟩
  rw [buildConsensusEngine_eq canonical.sound canonical.chain canonical.represents
    (by rw [first]; rfl) enforces, built]
  rfl

/-- A genesis that has been saved is enforced. -/
theorem Enforced.saved {chainName : String} {protocolVersion : UInt64} {accepted : Bool}
    {outcome : SaveOutcome}
    (run : confirmAndSave (StorageWrite.initial : DB) g chainName protocolVersion accepted nowSecs =
      .ok (outcome, s)) : Enforced heard g s [g] := by
  obtain ⟨saved, result, committed, -⟩ := confirmAndSave_initial run
  obtain ⟨validator, enforces⟩ := exists_enforces (genesis_checked committed).2
  obtain ⟨engine, launched, storage, validator'⟩ := launch_of_committed committed validator
  exact ⟨engine, .launched launched, storage, validator' ▸ enforces⟩

/-- Whatever the sessions have done, the storage is new or enforced. -/
theorem Left.enforced (left : Left heard g s) (free : CollisionFree heard) :
    s = StorageWrite.initial ∨ ∃ w, Enforced heard g s w := by
  induction left with
  | nothing => exact .inl rfl
  | saved run => exact .inr ⟨_, .saved run⟩
  | @session s engine deliveries left built inside careful ih =>
    refine .inr ?_
    rcases ih with rfl | ⟨w, enforced⟩
    · rw [buildConsensusEngine_initial] at built
      cases built
    · obtain ⟨engine', built', secure, -, -, enforces⟩ := enforced.builds
      obtain rfl : engine' = engine := Except.ok.inj (built'.symm.trans built)
      obtain ⟨w', secure'⟩ := secure.reached free inside careful
      refine ⟨w', _, secure', rfl, ?_⟩
      rw [deliverAll_blockValidator]
      exact enforces

/-- A peer that is worth asking: it serves a chain above the same genesis of which every block is
valid when it arrives, and nothing in the way of leaving the chain `w` for it. -/
structure Honest (DB : Type) [FullNodeStorage DB] (heard : Block → Prop)
    (validator : BlockValidator) (clock : Block → UInt64) (g : Block)
    (chainMetadata : ChainMetadata) (w : List Block) (remotePeer : RemotePeer PeerDB)
    (rest : List Block) : Prop where
  serves : remotePeer.Serves (g :: rest)
  offered : Offered DB validator clock g chainMetadata rest
  inside : ∀ b ∈ rest, heard b
  fits : ∀ b ∈ rest, b.data.transactions.length ≤ 2 ^ 32
  room : rest.length < 2 ^ 64 - 2
  fresh : Coins.FreshAbove (commonPrefix w (g :: rest))
    (w.drop (commonPrefix w (g :: rest)).length)

/-- The part of the start that follows once the genesis is there. -/
theorem Enforced.starts (enforced : Enforced heard g s (g :: own))
    (enforces : EnforcesGenesis g validator) (free : HashesIdentify fun b => b = g ∨ Vetted heard b)
    (room : (g :: own).length < 2 ^ 64 - 1) {top : Block} (last : (g :: own).getLast? = some top)
    (honest : Honest DB heard validator clock g chainMetadata (g :: own) remotePeer rest)
    (heavier : chainWork (g :: own) < chainWork (g :: rest)) {info : RemoteChainInfo}
    (asked : remotePeer.requestChainInfo = .ok info) (maxBatch : UInt64) :
    ∃ engine start after, buildConsensusEngine s = .ok engine ∧
      syncStartHeight s remotePeer info.height top.header.height top.blockHash = .ok start ∧
      runIbd clock engine remotePeer start info.height maxBatch = (.ok (), after) ∧
      canonicalBlocks after.db = g :: rest := by
  obtain ⟨engine, built, secure, rfl, alone, enforces'⟩ := enforced.builds
  have canonical := secure.canonical
  have known : ∀ b ∈ rest, Vetted heard b := by
    intro b mem
    obtain ⟨front, back, split⟩ := List.append_of_mem mem
    exact (honest.offered.seated honest.serves.chain split).vetted (honest.inside b mem)
  have inside' : ∀ b ∈ g :: rest, b = g ∨ Vetted heard b :=
    fun b mem => (List.mem_cons.mp mem).imp_right (known b)
  have fresh := honest.fresh
  have offered := honest.offered
  have fits := honest.fits
  have room' := honest.room
  have serves := honest.serves
  -- The part that the chains share, and what each goes on with.
  obtain ⟨base, hbase⟩ : ∃ base, base = commonPrefix own rest := ⟨_, rfl⟩
  obtain ⟨left, right, apart⟩ := forked_commonPrefix own rest
  have shared : commonPrefix (g :: own) (g :: rest) = g :: base := by
    rw [commonPrefix, if_pos rfl, hbase]
  rw [← hbase] at left right apart
  rw [shared, List.length_cons, List.drop_succ_cons] at fresh
  generalize own.drop base.length = q at left apart fresh
  generalize rest.drop base.length = r at right apart
  subst left right
  have forked : Forked (g :: base ++ q) (g :: (base ++ r)) (g :: base) q r := ⟨rfl, rfl, apart⟩
  have vetted : Secure (Vetted heard) g engine (g :: base ++ q) := secure.vetted
  have agree := forked.agreeBelow free canonical.chain serves.chain vetted.inside inside'
  obtain ⟨start, prepared, first⟩ := syncStartHeight_ok canonical.sound canonical.chain
    canonical.represents last serves asked heavier agree (Nat.succ_pos _) (by simp)
  have below : HeightsBelow engine := by
    constructor
    · intro tip found
      obtain ⟨top', last', tip'⟩ := vetted.toInvariant.exists_tip
      obtain rfl : top = top' := Option.some.inj (last.symm.trans last')
      rw [found, Option.some.injEq] at tip'
      have height := canonical.chain.tip_height last
      rw [tip']
      show top.header.height.toNat < 2 ^ 64 - 2
      omega
    · intro key e found
      rw [alone, Table.read_empty] at found
      cases found
  obtain ⟨info', asked', height, -⟩ := serves.chainInfo_ok
  obtain rfl : info' = info := Except.ok.inj (asked'.symm.trans asked)
  obtain ⟨after, done, adopted⟩ := vetted.ibd_adopts free alone forked serves offered known
    (enforces'.unique enforces) heavier fits room' below fresh maxBatch first height
  exact ⟨engine, start, after, built, prepared, done, adopted⟩

variable (PeerDB) in
/-- The genesis is there after the comparison or the first download, and the tip and the work that
were read before it are those of the chain that is there then. -/
theorem ensureGenesis_ok (left : Left heard g s) (free : CollisionFree heard)
    (valid : validateGenesis g = .ok ()) (now : i64TryFrom nowSecs = some created)
    (schema : FullNodeStorage.checkSchema DB
      ⟨storageSchemaVersion, config.chainName, config.protocolVersion, created⟩ = .ok ()) :
    ∃ own top, Sound s ∧ (g :: own).getLast? = some top ∧
      ((tables s).state.map ChainState.latestBlock).getD (0, .empty) =
        (top.header.height, top.blockHash) ∧
      ((tables s).state.map ChainState.chainWork).getD 0 = chainWork (g :: own) ∧
      (canonicalBlocks s = g :: own ∨ (canonicalBlocks s = [] ∧ own = [])) ∧
      ∀ (remotePeer : RemotePeer PeerDB) (rest : List Block), remotePeer.Serves (g :: rest) →
        ∃ s' : DB, ensureGenesis config nowSecs s remotePeer = .ok s' ∧
          Enforced heard g s' (g :: own) := by
  rcases left.enforced free with rfl | ⟨w, enforced⟩
  · obtain ⟨s', save⟩ := confirmAndSave_ok now schema valid
    have shape := validateGenesis_shape valid
    have work : chainWork [g] = 0 := by
      rw [chainWork_cons, chainWork_nil, Block.work, if_pos shape.marker]
    have empty : canonicalBlocks (StorageWrite.initial : DB) = [] := by
      rw [canonicalBlocks, chainState_eq initial_sound, initial_tables]
      rfl
    refine ⟨[], g, initial_sound, rfl, ?_, ?_, .inr ⟨empty, rfl⟩, fun remotePeer rest serves => ?_⟩
    · rw [initial_tables, shape.height, Block.blockHash, if_pos shape.marker]
      rfl
    · rw [initial_tables, work]
      rfl
    · refine ⟨s', ?_, .saved save⟩
      simp [ensureGenesis, serves.genesis_ok, genesis_initial, save]
  · have kept := enforced
    obtain ⟨engine, secure, rfl, -⟩ := enforced
    obtain ⟨own, rfl⟩ := secure.first
    have canonical := secure.canonical
    obtain ⟨state, hstate⟩ := exists_stateOf canonical.chain
    obtain ⟨top, last, latest, -, work⟩ := stateOf_eq_some hstate
    have genesis : getBlockByHeight engine.db 0 = .ok (some g) :=
      getBlockByHeight_of_represents canonical.sound canonical.chain canonical.represents rfl
    refine ⟨own, top, canonical.sound, last, ?_, ?_, .inl (canonicalBlocks_eq canonical),
      fun remotePeer rest serves => ?_⟩
    · rw [canonical.represents.state, hstate]
      exact latest
    · rw [canonical.represents.state, hstate]
      exact work
    · refine ⟨engine.db, ?_, kept⟩
      simp [ensureGenesis, serves.genesis_ok, genesis]

/-- A node that starts ends on the heaviest chain that the network offers it. In the first round in
which a suitable peer has more work than the node, all of them being honest, one of those with
the most work is chosen, and its chain is downloaded whole, onto nothing or onto whatever earlier
sessions have left. The blocks that these sessions have detached are fresh, and so are the ones that
the download detaches. -/
theorem startup_adopts (left : Left heard g s) (valid : validateGenesis g = .ok ())
    (enforces : EnforcesGenesis g validator) (now : i64TryFrom nowSecs = some created)
    (schema : FullNodeStorage.checkSchema DB
      ⟨storageSchemaVersion, config.chainName, config.protocolVersion, created⟩ = .ok ())
    (free : HashesIdentify fun b => b = g ∨ Vetted heard b)
    (room : (canonicalBlocks s).length < 2 ^ 64 - 1)
    (honest : ∀ attempt ≤ peerDiscoveryMaxRetries, ∀ remotePeer : RemotePeer PeerDB,
      Suitable config (query attempt) remotePeer → ∃ rest,
        Honest DB heard validator clock g chainMetadata (canonicalBlocks s) remotePeer rest)
    (heavier : ∃ attempt, 0 < attempt ∧ attempt ≤ peerDiscoveryMaxRetries ∧
      ∃ remotePeer rest, Suitable config (query attempt) remotePeer ∧
        remotePeer.Serves (g :: rest) ∧ chainWork (canonicalBlocks s) < chainWork (g :: rest)) :
    ∃ attempt, 0 < attempt ∧ attempt ≤ peerDiscoveryMaxRetries ∧ ∃ remotePeer rest engine,
      Suitable config (query attempt) remotePeer ∧ remotePeer.Serves (g :: rest) ∧
      synchronize config clock nowSecs query s = (.ok engine, engine.db) ∧
      canonicalBlocks engine.db = g :: rest ∧
      (∀ remotePeer' rest', Suitable config (query attempt) remotePeer' →
        remotePeer'.Serves (g :: rest') → chainWork (g :: rest') ≤ chainWork (g :: rest)) ∧
      ∀ earlier, 0 < earlier → earlier < attempt → ∀ remotePeer' rest',
        Suitable config (query earlier) remotePeer' → remotePeer'.Serves (g :: rest') →
        chainWork (g :: rest') ≤ chainWork (canonicalBlocks s) := by
  obtain ⟨own, top, sound, last, latest, work, canonical, ensured⟩ :=
    ensureGenesis_ok PeerDB left (fun a b ha hb same => free a b (.inr ha) (.inr hb) same) valid now
      schema
  have same : chainWork (canonicalBlocks s) = chainWork (g :: own) := by
    rcases canonical with whole | ⟨empty, rfl⟩
    · rw [whole]
    · rw [empty, chainWork_cons, Block.work, if_pos (validateGenesis_shape valid).marker]
      rfl
  rw [same] at heavier ⊢
  have finds : ∃ attempt, peerDiscoveryMaxRetries < attempt + peerDiscoveryMaxRetries ∧
      attempt ≤ peerDiscoveryMaxRetries ∧
      ∃ best, findBestPeer config s (query attempt) = .ok best := by
    obtain ⟨attempt, pos, within, remotePeer, rest, suitable, serves, more⟩ := heavier
    obtain ⟨info, asked, -, work', -⟩ := serves.chainInfo_ok
    rw [← work'] at more
    exact ⟨attempt, by omega, within, findBestPeer_ok sound work suitable asked more⟩
  obtain ⟨attempt, ⟨remotePeer, info⟩, pos, within, found, discovered, none⟩ :=
    discoverPeer_ok _ finds
  have best := findBestPeer_eq_ok sound work found
  obtain ⟨rest, honest⟩ := honest attempt within remotePeer best.suitable
  have announced : ∀ (remotePeer' : RemotePeer PeerDB) (rest' : List Block)
      (info' : RemoteChainInfo), remotePeer'.Serves (g :: rest') →
      remotePeer'.requestChainInfo = .ok info' →
      info'.chainWork = chainWork (g :: rest') := by
    intro remotePeer' rest' info' serves asked
    obtain ⟨info'', asked', -, work', -⟩ := serves.chainInfo_ok
    obtain rfl : info'' = info' := Except.ok.inj (asked'.symm.trans asked)
    exact work'
  obtain ⟨s', ensure, enforced⟩ := ensured remotePeer rest honest.serves
  have length : (g :: own).length < 2 ^ 64 - 1 := by
    rcases canonical with whole | ⟨-, rfl⟩
    · rw [← whole]
      exact room
    · rw [List.length_singleton]
      decide
  have upper : chainWork (g :: own) < chainWork (g :: rest) := by
    rw [← announced remotePeer rest info honest.serves best.asked]
    exact best.heavier
  have honest' : Honest DB heard validator clock g chainMetadata (g :: own) remotePeer rest := by
    rcases canonical with whole | ⟨-, rfl⟩
    · rw [← whole]
      exact honest
    · refine { honest with fresh := ?_ }
      rw [commonPrefix, if_pos rfl]
      exact trivial
  obtain ⟨engine, start, after, built, prepared, done, adopted⟩ := enforced.starts enforces free
    length last honest' upper best.asked config.maxBlocksRangePerRequest
  refine ⟨attempt, by omega, within, remotePeer, rest, after, best.suitable, honest.serves, ?_,
    adopted, ?_, ?_⟩
  · simp only [synchronize, chainState_eq sound, mapError_ok, latest, discovered, ensure, built,
      prepared, done]
  · intro remotePeer' rest' suitable serves'
    obtain ⟨info', asked', -, work', -⟩ := serves'.chainInfo_ok
    rw [← work', ← announced remotePeer rest info honest.serves best.asked]
    exact best.largest remotePeer' info' suitable asked'
  · intro earlier positive before remotePeer' rest' suitable serves'
    by_contra more
    obtain ⟨info', asked', -, work', -⟩ := serves'.chainInfo_ok
    rw [Nat.not_le, ← work'] at more
    obtain ⟨best', finds'⟩ := findBestPeer_ok sound work suitable asked' more
    exact none earlier (by omega) before best' finds'

end Start

namespace Sample

/-- What the network answers: only the second round names somebody, a peer that cannot be dialled
and one that can. -/
def answers (storage : RocksView) : Nat → Except StryiNodeError (List (SyncCandidate RocksView))
  | 2 => .ok [⟨1, .error (.other "gRPC dial error")⟩, ⟨1, .ok ⟨⟨syncConfig, storage⟩⟩⟩]
  | _ => .error (.other "network command channel closed")

theorem suitable_answers {storage : RocksView} {attempt : Nat} {remotePeer : RemotePeer RocksView}
    (suitable : Suitable syncConfig (answers storage attempt) remotePeer) :
    remotePeer = ⟨⟨syncConfig, storage⟩⟩ := by
  obtain ⟨⟨peers, answer, candidate, mem, -, dialled⟩, -⟩ := suitable
  unfold answers at answer
  split at answer
  · obtain rfl := Except.ok.inj answer
    simp only [List.mem_cons, List.not_mem_nil, or_false] at mem
    rcases mem with rfl | rfl
    · cases dialled
    · exact (Except.ok.inj dialled).symm
  · cases answer

end Sample

open Sample in
/-- A node that has ended its session on another chain starts again. -/
theorem startup_adopts_sample : ∃ (s storage : RocksView) (engine : StryiConsensusEngine RocksView),
    canonicalBlocks s = [genesis, rival] ∧
    synchronize syncConfig (fun _ => 1000) 0 (answers storage) s = (.ok engine, engine.db) ∧
    canonicalBlocks engine.db = [genesis, other, aside, onward] := by
  obtain ⟨storage, -, serves⟩ := exists_peer
  have first : (confirmAndSave (StorageWrite.initial : RocksView) genesis "sample" 1 true
      0).toOption.any (fun done => done.1 = .savedNow ∧
        (buildConsensusEngine done.2).toOption.any fun engine =>
          canonicalBlocks engine.db = [genesis] ∧
          canonicalBlocks (deliver engine (call rival)).db = [genesis, rival] ∧
          canonicalBlocks (deliverAll engine ([rival, other].map call)).db = [genesis, rival]) =
      true := by
    decide +kernel
  obtain ⟨⟨outcome, s⟩, confirmed, session⟩ := exists_ok_of_any first
  obtain ⟨rfl, session⟩ := of_decide_eq_true session
  obtain ⟨engine, built, reads⟩ := exists_ok_of_any session
  obtain ⟨chain, chain1, chain2⟩ := of_decide_eq_true reads
  obtain ⟨saved, result, committed, -⟩ := confirmAndSave_initial confirmed
  have fresh : Coins.FreshAbove [genesis] [rival] := by decide +kernel
  have careful : Along Careful engine ([rival, other].map call) :=
    ⟨⟨by decide, ForksFresh.detachesFresh (.of_all chain trivial)⟩,
      ⟨by decide, ForksFresh.detachesFresh (.of_all chain1 fresh)⟩, trivial⟩
  have left : Left (fun b => b ∈ [rival, other, aside, onward]) genesis
      (deliverAll engine ([rival, other].map call)).db :=
    .session (.saved confirmed) built (by decide +kernel) careful
  have free : HashesIdentify fun b => b = genesis ∨
      Vetted (fun b => b ∈ [rival, other, aside, onward]) b := by
    have apart : ∀ a ∈ [genesis, rival, other, aside, onward],
        ∀ b ∈ [genesis, rival, other, aside, onward], a.blockHash = b.blockHash → a = b := by
      decide +kernel
    have listed : ∀ b, (b = genesis ∨ Vetted (fun b => b ∈ [rival, other, aside, onward]) b) →
        b ∈ [genesis, rival, other, aside, onward] := fun b known =>
      List.mem_cons.mpr (known.imp_right fun vetted => vetted.inside)
    exact fun a b ha hb same => apart a (listed a ha) b (listed b hb) same
  have honest : ∀ attempt ≤ peerDiscoveryMaxRetries, ∀ remotePeer : RemotePeer RocksView,
      Suitable syncConfig (answers storage attempt) remotePeer → ∃ rest,
        Honest RocksView (fun b => b ∈ [rival, other, aside, onward]) validator (fun _ => 1000)
          genesis ⟨2, "sample", 1, 0⟩
          (canonicalBlocks (deliverAll engine ([rival, other].map call)).db) remotePeer rest := by
    intro attempt within remotePeer suitable
    obtain rfl := suitable_answers suitable
    refine ⟨[other, aside, onward], serves, onward_offered, ?_, by decide, by decide, ?_⟩
    · intro b mem
      exact List.mem_cons_of_mem rival mem
    · rw [chain2]
      decide +kernel
  have suitable : Suitable syncConfig (answers storage 2) ⟨⟨syncConfig, storage⟩⟩ :=
    ⟨⟨_, rfl, _, List.mem_cons_of_mem _ List.mem_cons_self, rfl, rfl⟩, rfl, rfl⟩
  have now : i64TryFrom 0 = some 0 := by decide
  obtain ⟨attempt, -, within, remotePeer, rest, after, chosen, serves', done, adopted, -⟩ :=
    startup_adopts left (genesis_checked committed).2 ⟨rfl, rfl⟩ now rfl free
      (by rw [chain2]; decide) honest
      ⟨2, by decide, by decide, _, _, suitable, serves, by rw [chain2]; decide +kernel⟩
  obtain rfl := suitable_answers chosen
  refine ⟨_, storage, after, chain2, done, ?_⟩
  rw [adopted, ← canonicalBlocks_of_represents serves'.sound serves'.chain serves'.represents]
  exact canonicalBlocks_of_represents serves.sound serves.chain serves.represents

end StryiChain
