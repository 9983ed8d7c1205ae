import StryiChain.Chain.Run

/-!
# A peer and its answers (`grpc.rs`, `node/remote_peer.rs`)

A peer serves its canonical chain from storage, and a node asks it for the state of the chain and
for blocks. The wire in between carries every value as it is.
-/

namespace StryiChain

open LawfulStorage

/-- `tonic::Status`, as far as the service answers with one; `storage` is an internal status with
the text of a storage error. -/
inductive Status where
  | internal (message : String)
  | storage (error : StorageError)
  | unavailable (message : String)
  | invalidArgument (message : String)
  | notFound (message : String)

/-- The part of `StryiNodeError` (`error.rs:4-46`) that synchronization produces. The texts that
quote another error keep it apart; `panicked` is the marker of a panic and `unfinished` the marker
of a loop that has used up the rounds that the model gives it. -/
inductive StryiNodeError where
  | storage (error : StorageError)
  | core (error : StryiCoreError)
  | other (message : String)
  | quoting (message : String) (error : StorageError)
  | request (message : String) (status : Status)
  | panicked (message : String)
  | unfinished

/-- `StryiSyncServiceConfig` (`grpc.rs:40-51`) without the address. -/
structure StryiSyncServiceConfig where
  chainName : String
  protocolVersion : UInt64
  maxBlocksRangePerRequest : UInt64

/-- `StryiSyncService` (`grpc.rs:31-37`). -/
structure StryiSyncService (DB : Type) where
  config : StryiSyncServiceConfig
  storage : DB

/-- `RemoteChainInfo` (`remote_peer.rs:16-24`). -/
structure RemoteChainInfo where
  height : UInt64
  tipHash : BlockHash
  chainWork : Nat
  lastUpdateTime : UInt64
  protocolVersion : UInt32
  chainName : String

namespace StryiSyncService

variable {DB : Type} [FullNodeStorage DB]

/-- `get_chain_info` (`grpc.rs:81-103`). -/
def getChainInfo (service : StryiSyncService DB) : Except Status RemoteChainInfo := do
  let state ← okOr (← (chainState service.storage).mapError .storage)
    (.unavailable "storage is not initialized")
  return {
    height := state.latestBlock.1
    tipHash := state.latestBlock.2
    chainWork := state.chainWork
    lastUpdateTime := state.lastUpdateTime
    protocolVersion := service.config.protocolVersion.toUInt32
    chainName := service.config.chainName }

/-- One height of `height_range_hashes`. -/
def hashAt (service : StryiSyncService DB) (height : Nat) : Except Status BlockHash := do
  okOr (← (getBlockHashByHeight service.storage (UInt64.ofNat height)).mapError .storage)
    (.notFound s!"Block at height {height} not found")

/-- `height_range_hashes` (`grpc.rs:207-250`). -/
def heightRangeHashes (service : StryiSyncService DB) (startHeight endHeight : UInt64) :
    Except Status (List BlockHash) := do
  failIf (endHeight < startHeight) (.invalidArgument "start height exceeds end height")
  let max := service.config.maxBlocksRangePerRequest
  failIf (max = 0) (.internal "maximum block range is zero")
  let finish := min endHeight (saturatingAdd startHeight (max - 1))
  (List.range' startHeight.toNat (finish.toNat + 1 - startHeight.toNat)).mapM service.hashAt

/-- `read_block` (`grpc.rs:192-203`). -/
def readBlock (service : StryiSyncService DB) (hash : BlockHash) : Except Status (Option Block) :=
  (getBlockByHash service.storage hash).mapError .storage

/-- `get_blocks_by_height` (`grpc.rs:132-152`): the items of the stream. -/
def getBlocksByHeight (service : StryiSyncService DB) (startHeight endHeight : UInt64) :
    Except Status (List (Except Status Block)) := do
  let hashes ← service.heightRangeHashes startHeight endHeight
  return hashes.map fun hash => do
    okOr (← service.readBlock hash) (.internal s!"block {hash} disappeared from storage")

/-- `get_blocks_by_hash` (`grpc.rs:157-187`): the items of the stream. -/
def getBlocksByHash (service : StryiSyncService DB) (hashes : List BlockHash) :
    Except Status (List (Except Status Block)) := do
  failIf (service.config.maxBlocksRangePerRequest.toNat < hashes.length)
    (.invalidArgument "Too many block hashes requested")
  return hashes.map fun hash => do
    okOr (← service.readBlock hash) (.notFound "Block not found in storage")

end StryiSyncService

/-- `RemotePeer` (`remote_peer.rs:49-52`): the client of a service. -/
structure RemotePeer (DB : Type) where
  service : StryiSyncService DB

/-- The loop that takes blocks from a stream until there are enough of them. -/
def takeBlocks (message : String) (full : Nat → Bool) :
    List Block → List (Except Status Block) → Except StryiNodeError (List Block)
  | out, [] => .ok out
  | out, item :: stream => do
      let block ← item.mapError (.request message)
      if full (out.length + 1) then
        return out ++ [block]
      else
        takeBlocks message full (out ++ [block]) stream

namespace RemotePeer

variable {DB : Type} [FullNodeStorage DB]

/-- `request_chain_info` (`remote_peer.rs:66-76`). -/
def requestChainInfo (peer : RemotePeer DB) : Except StryiNodeError RemoteChainInfo :=
  peer.service.getChainInfo.mapError (.request "Failed to get chain info from gRPC service")

/-- `request_blocks_by_hashes` (`remote_peer.rs:96-135`). -/
def requestBlocksByHashes (peer : RemotePeer DB) (hashes : List BlockHash) (maxBlocks : Nat) :
    Except StryiNodeError (List Block) := do
  failIf (maxBlocks < hashes.length) (.other "too many hashes requested")
  let stream ← (peer.service.getBlocksByHash hashes).mapError
    (.request "get_blocks_by_hash failed")
  takeBlocks "get_blocks_by_hash stream error" (fun length => maxBlocks ≤ length) [] stream

/-- `request_block_by_hash` (`remote_peer.rs:84-92`). -/
def requestBlockByHash (peer : RemotePeer DB) (hash : BlockHash) :
    Except StryiNodeError Block := do
  let blocks ← peer.requestBlocksByHashes [hash] 1
  okOr blocks.getLast? (.other "block not found")

/-- `request_genesis` (`remote_peer.rs:79-81`). -/
def requestGenesis (peer : RemotePeer DB) : Except StryiNodeError Block :=
  peer.requestBlockByHash Hash.empty

/-- `request_blocks_by_height_range` (`remote_peer.rs:140-179`). -/
def requestBlocksByHeightRange (peer : RemotePeer DB) (startHeight endHeight : UInt64)
    (maxBlocks : UInt32) : Except StryiNodeError (List Block) := do
  let stream ← (peer.service.getBlocksByHeight startHeight endHeight).mapError
    (.request s!"get_blocks_by_height({startHeight}..={endHeight}) failed")
  takeBlocks "get_blocks_by_height stream error"
    (fun length => maxBlocks ≤ UInt32.ofNat length) [] stream

/-- `request_block_by_height` (`remote_peer.rs:182-187`). -/
def requestBlockByHeight (peer : RemotePeer DB) (height : UInt64) :
    Except StryiNodeError Block := do
  let blocks ← peer.requestBlocksByHeightRange height height 1
  okOr blocks.getLast? (.other "block not found")

end RemotePeer

section Serves

variable [Primitives] {DB : Type} [FullNodeStorage DB] [LawfulStorage DB]

/-- The peer answers from a storage whose canonical chain is `w`, and answers at least one block to
a request. -/
structure RemotePeer.Serves (peer : RemotePeer DB) (w : List Block) : Prop where
  sound : Sound peer.service.storage
  chain : IsChain w
  represents : Represents (tables peer.service.storage) w
  positive : peer.service.config.maxBlocksRangePerRequest ≠ 0

variable {peer : RemotePeer DB} {w bs : List Block} {b : Block} {startHeight endHeight : UInt64}

omit [Primitives] in
/-- Blocks that arrive without an error are taken from the front, one at least. -/
theorem takeBlocks_ok (message : String) (full : Nat → Bool) (out bs : List Block) :
    ∃ n, n ≤ bs.length ∧ (bs ≠ [] → 0 < n) ∧
      takeBlocks message full out (bs.map .ok) = .ok (out ++ bs.take n) := by
  induction bs generalizing out with
  | nil => exact ⟨0, Nat.le_refl 0, fun ne => absurd rfl ne, by simp [takeBlocks]⟩
  | cons b bs ih =>
    simp only [List.map_cons, takeBlocks, mapError_ok, bind_ok]
    split
    · exact ⟨1, by simp, fun _ => Nat.one_pos, by simp⟩
    · obtain ⟨n, le, -, taken⟩ := ih (out ++ [b])
      refine ⟨n + 1, by simpa using le, fun _ => Nat.succ_pos n, ?_⟩
      rw [taken, List.take_succ_cons, List.append_assoc, List.singleton_append]

omit [Primitives] [LawfulStorage DB] in
/-- The heights that a request covers. -/
theorem heightRangeHashes_eq (service : StryiSyncService DB)
    (order : startHeight.toNat ≤ endHeight.toNat)
    (positive : service.config.maxBlocksRangePerRequest ≠ 0) :
    service.heightRangeHashes startHeight endHeight = (List.range' startHeight.toNat
      ((min endHeight (saturatingAdd startHeight
        (service.config.maxBlocksRangePerRequest - 1))).toNat + 1 - startHeight.toNat)).mapM
      service.hashAt := by
  have forward : ¬ endHeight < startHeight := by
    rw [UInt64.lt_iff_toNat_lt]
    omega
  simp only [StryiSyncService.heightRangeHashes, failIf_of_not _ forward,
    failIf_of_not _ positive, bind_ok]

theorem RemotePeer.Serves.hashAt_ok (serves : peer.Serves w) {i : Nat} (at_i : w[i]? = some b) :
    peer.service.hashAt i = .ok b.blockHash := by
  have inside := (List.getElem?_eq_some_iff.mp at_i).1
  have fits := serves.represents.fits
  have number : (UInt64.ofNat i).toNat = i :=
    toNat_ofNat_u64 (by omega)
  rw [StryiSyncService.hashAt, getBlockHashByHeight_eq _ serves.sound,
    serves.represents.holds.height, number, at_i]
  rfl

/-- The hashes of consecutive heights. -/
theorem RemotePeer.Serves.hashes_ok (serves : peer.Serves w) (n i : Nat)
    (inside : i + n ≤ w.length) : (List.range' i n).mapM peer.service.hashAt =
      .ok (((w.drop i).take n).map Block.blockHash) := by
  induction n generalizing i with
  | zero => simp
  | succ n ih =>
    obtain ⟨b, at_i⟩ : ∃ b, w[i]? = some b := ⟨w[i], List.getElem?_eq_getElem (by omega)⟩
    have drop : w.drop i = b :: w.drop (i + 1) := by
      rw [List.drop_eq_getElem_cons (by omega), (List.getElem?_eq_some_iff.mp at_i).2]
    rw [List.range'_succ, List.mapM_cons, serves.hashAt_ok at_i, bind_ok, ih (i + 1) (by omega),
      drop]
    rfl

/-- A block of the chain is read under its hash. -/
theorem RemotePeer.Serves.readBlock_ok (serves : peer.Serves w) (mem : b ∈ w) :
    peer.service.readBlock b.blockHash = .ok (some b) := by
  rw [StryiSyncService.readBlock, getBlockByHash_eq _ serves.sound,
    serves.represents.holds.body b mem]
  rfl

/-- A range of the chain is answered with its first blocks, one at least. -/
theorem RemotePeer.Serves.range_ok (serves : peer.Serves w) (maxBlocks : UInt32)
    (order : startHeight.toNat ≤ endHeight.toNat) (inside : endHeight.toNat < w.length) :
    ∃ n, 0 < n ∧ startHeight.toNat + n ≤ endHeight.toNat + 1 ∧
      peer.requestBlocksByHeightRange startHeight endHeight maxBlocks =
        .ok ((w.drop startHeight.toNat).take n) := by
  have positive : 0 < peer.service.config.maxBlocksRangePerRequest.toNat := by
    have ne := serves.positive
    rw [Ne, ← UInt64.toNat_inj] at ne
    exact Nat.pos_of_ne_zero ne
  obtain ⟨finish, hfinish⟩ : ∃ finish, finish = min endHeight
      (saturatingAdd startHeight (peer.service.config.maxBlocksRangePerRequest - 1)) := ⟨_, rfl⟩
  have bounds : startHeight.toNat ≤ finish.toNat ∧ finish.toNat ≤ endHeight.toNat := by
    have below := endHeight.toNat_lt
    have sum := saturatingAdd_toNat startHeight
      (peer.service.config.maxBlocksRangePerRequest - 1)
    rw [hfinish, UInt64.min_def]
    split
    · exact ⟨order, Nat.le_refl _⟩
    · rename_i more
      rw [UInt64.le_iff_toNat_le] at more
      omega
  obtain ⟨k, hk⟩ : ∃ k, k = finish.toNat + 1 - startHeight.toNat := ⟨_, rfl⟩
  have hashes : peer.service.heightRangeHashes startHeight endHeight =
      .ok (((w.drop startHeight.toNat).take k).map Block.blockHash) := by
    rw [heightRangeHashes_eq peer.service order serves.positive, ← hfinish, ← hk]
    exact serves.hashes_ok k startHeight.toNat (by omega)
  have stream : peer.service.getBlocksByHeight startHeight endHeight =
      .ok (((w.drop startHeight.toNat).take k).map .ok) := by
    rw [StryiSyncService.getBlocksByHeight, hashes, bind_ok, List.map_map, pure_except]
    congr 1
    apply List.map_congr_left
    intro b mem
    rw [Function.comp_apply,
      serves.readBlock_ok (List.mem_of_mem_drop (List.mem_of_mem_take mem))]
    rfl
  obtain ⟨n, le, pos, taken⟩ := takeBlocks_ok "get_blocks_by_height stream error"
    (fun length => maxBlocks ≤ UInt32.ofNat length) [] ((w.drop startHeight.toNat).take k)
  rw [List.length_take, List.length_drop] at le
  refine ⟨n, pos ?_, by omega, ?_⟩
  · rw [← List.length_pos_iff, List.length_take, List.length_drop]
    omega
  · rw [RemotePeer.requestBlocksByHeightRange, stream, mapError_ok, bind_ok, taken,
      List.nil_append, List.take_take, Nat.min_eq_left (by omega)]

/-- The block at a height of the chain. -/
theorem RemotePeer.Serves.block_ok (serves : peer.Serves w) {height : UInt64}
    (at_height : w[height.toNat]? = some b) : peer.requestBlockByHeight height = .ok b := by
  obtain ⟨inside, here⟩ := List.getElem?_eq_some_iff.mp at_height
  obtain ⟨n, pos, bound, range⟩ := serves.range_ok 1 (Nat.le_refl height.toNat) inside
  obtain rfl : n = 1 := by omega
  rw [RemotePeer.requestBlockByHeight, range, bind_ok, List.drop_eq_getElem_cons inside, here]
  rfl

/-- Above its tip the peer has no block. -/
theorem RemotePeer.Serves.block_above (serves : peer.Serves w) {height : UInt64}
    (above : w.length ≤ height.toNat) : ∃ error, peer.requestBlockByHeight height = .error error := by
  have missing : peer.service.hashAt height.toNat =
      .error (.notFound s!"Block at height {height.toNat} not found") := by
    rw [StryiSyncService.hashAt, UInt64.ofNat_toNat, getBlockHashByHeight_eq _ serves.sound,
      serves.represents.holds.height, List.getElem?_eq_none above]
    rfl
  have finish : min height
      (saturatingAdd height (peer.service.config.maxBlocksRangePerRequest - 1)) = height := by
    have below := height.toNat_lt
    rw [UInt64.min_def, if_pos]
    rw [UInt64.le_iff_toNat_le, saturatingAdd_toNat]
    omega
  have hashes : peer.service.heightRangeHashes height height =
      .error (.notFound s!"Block at height {height.toNat} not found") := by
    rw [heightRangeHashes_eq peer.service (Nat.le_refl _) serves.positive, finish,
      Nat.add_sub_cancel_left, List.range'_succ, List.mapM_cons, missing, bind_error]
  rw [RemotePeer.requestBlockByHeight, RemotePeer.requestBlocksByHeightRange,
    StryiSyncService.getBlocksByHeight, hashes, bind_error, mapError_error, bind_error, bind_error]
  exact ⟨_, rfl⟩

/-- The peer answers with its genesis. -/
theorem RemotePeer.Serves.genesis_ok {g : Block} {rest : List Block}
    (serves : peer.Serves (g :: rest)) : peer.requestGenesis = .ok g := by
  obtain ⟨g', first, marker, -⟩ := serves.chain.genesis
  obtain rfl : g = g' := by simpa using first
  have hash : g.blockHash = Hash.empty := by rw [Block.blockHash, if_pos marker]
  have read := serves.readBlock_ok (b := g) List.mem_cons_self
  rw [hash] at read
  have stream : peer.service.getBlocksByHash [Hash.empty] = .ok [.ok g] := by
    have room : ¬ peer.service.config.maxBlocksRangePerRequest.toNat < 1 := by
      rw [Nat.lt_one_iff, ← UInt64.toNat_zero, UInt64.toNat_inj]
      exact serves.positive
    rw [StryiSyncService.getBlocksByHash, List.length_singleton, failIf_of_not _ room, bind_ok,
      List.map_singleton, read]
    rfl
  rw [RemotePeer.requestGenesis, RemotePeer.requestBlockByHash,
    RemotePeer.requestBlocksByHashes, stream]
  rfl

/-- The peer answers with the height and the work of its tip. -/
theorem RemotePeer.Serves.chainInfo_ok (serves : peer.Serves w) :
    ∃ info, peer.requestChainInfo = .ok info ∧ info.height.toNat + 1 = w.length ∧
      info.chainWork = chainWork w ∧ info.chainName = peer.service.config.chainName ∧
      info.protocolVersion = peer.service.config.protocolVersion.toUInt32 := by
  obtain ⟨state, hstate⟩ := exists_stateOf serves.chain
  obtain ⟨top, last, latest, -, work⟩ := stateOf_eq_some hstate
  have read : peer.requestChainInfo = .ok ⟨state.latestBlock.1, state.latestBlock.2,
      state.chainWork, state.lastUpdateTime, peer.service.config.protocolVersion.toUInt32,
      peer.service.config.chainName⟩ := by
    rw [RemotePeer.requestChainInfo, StryiSyncService.getChainInfo, chainState_eq serves.sound,
      serves.represents.state, hstate]
    rfl
  refine ⟨_, read, ?_, work, rfl, rfl⟩
  rw [latest]
  exact serves.chain.tip_height last

end Serves

end StryiChain
