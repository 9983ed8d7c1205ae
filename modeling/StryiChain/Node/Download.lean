import StryiChain.Node.Adoption

/-!
# Downloading a range of heights (`node/sync.rs`, `node/ibd.rs`)

The two loops that download a range, the one of the initial download and the one of
`sync_from_peer`, fetch a batch, feed it and advance by its length. Against a peer that keeps its
chain the batches make up the range, whatever the engine does with them.
-/

namespace StryiChain

open StryiConsensusEngine

section Range

variable {σ ε : Type}

/-- The loop over a range of heights with a bound on its rounds: what `request` returns is fed to
the state, and the next height is that many blocks further. -/
def downloadRange (request : UInt64 → Except ε (List Block))
    (feed : σ → List Block → Except ε Unit × σ) (overflow unfinished : ε) (toHeight : UInt64) :
    Nat → UInt64 → σ → Except ε Unit × σ
  | 0, _, state => (.error unfinished, state)
  | rounds + 1, currentHeight, state =>
      if toHeight < currentHeight then
        (.ok (), state)
      else
        match request currentHeight with
        | .error error => (.error error, state)
        | .ok [] => (.ok (), state)
        | .ok (block :: blocks) =>
            match feed state (block :: blocks) with
            | (.error error, state) => (.error error, state)
            | (.ok (), state) =>
                match checkedAdd currentHeight (UInt64.ofNat (block :: blocks).length) with
                | none => (.error overflow, state)
                | some nextHeight =>
                    downloadRange request feed overflow unfinished toHeight rounds nextHeight state

/-- Feeds batches one after the other, up to the first that fails. -/
def feedAll (feed : σ → List Block → Except ε Unit × σ) :
    List (List Block) → σ → Except ε Unit × σ
  | [], state => (.ok (), state)
  | batch :: batches, state =>
      match feed state batch with
      | (.error error, state) => (.error error, state)
      | (.ok (), state) => feedAll feed batches state

/-- A source answers with the next blocks of `w`, one at least and none above the range. -/
def Delivers (request : UInt64 → Except ε (List Block)) (w : List Block) (toHeight : UInt64) :
    Prop :=
  ∀ current : UInt64, current.toNat ≤ toHeight.toNat → ∃ n, 0 < n ∧
    current.toNat + n ≤ toHeight.toNat + 1 ∧
    request current = .ok ((w.drop current.toNat).take n)

/-- The blocks of `w` from one height to another. -/
def blocksBetween (w : List Block) (fromHeight toHeight : Nat) : List Block :=
  (w.drop fromHeight).take (toHeight + 1 - fromHeight)

theorem length_blocksBetween (w : List Block) (fromHeight toHeight : Nat) :
    (blocksBetween w fromHeight toHeight).length =
      min (toHeight + 1 - fromHeight) (w.length - fromHeight) := by
  rw [blocksBetween, List.length_take, List.length_drop]

/-- The block at a position of the range stands at that position above its start. -/
theorem getElem?_blocksBetween {w : List Block} {fromHeight toHeight i : Nat} {b : Block}
    (at_i : (blocksBetween w fromHeight toHeight)[i]? = some b) :
    w[fromHeight + i]? = some b := by
  rw [blocksBetween, List.getElem?_take] at at_i
  split at at_i
  · rwa [List.getElem?_drop] at at_i
  · cases at_i

variable {request : UInt64 → Except ε (List Block)} {w : List Block} {toHeight : UInt64}

theorem blocksBetween_split {start finish n : Nat} (within : start + n ≤ finish + 1) :
    blocksBetween w start finish = (w.drop start).take n ++ blocksBetween w (start + n) finish := by
  rw [blocksBetween, blocksBetween, ← List.drop_drop,
    show finish + 1 - start = n + (finish + 1 - (start + n)) by omega, List.take_add]

theorem blocksBetween_above {start finish : Nat} (above : finish < start) :
    blocksBetween w start finish = [] := by
  rw [blocksBetween, show finish + 1 - start = 0 by omega, List.take_zero]

/-- The loop feeds non-empty batches that make up the range, and ends after the last one. -/
theorem downloadRange_eq (delivers : Delivers request w toHeight)
    (inside : toHeight.toNat < w.length) (fits : toHeight.toNat + 1 < 2 ^ 64) (rounds : Nat)
    (current : UInt64) (pos : 0 < rounds)
    (enough : toHeight.toNat + 1 < rounds + current.toNat) :
    ∃ batches : List (List Block), (∀ batch ∈ batches, batch ≠ []) ∧
      batches.flatten = blocksBetween w current.toNat toHeight.toNat ∧
      ∀ (σ : Type) (feed : σ → List Block → Except ε Unit × σ) (overflow unfinished : ε) (state : σ),
        downloadRange request feed overflow unfinished toHeight rounds current state =
          feedAll feed batches state := by
  induction rounds generalizing current with
  | zero => exact absurd pos (Nat.lt_irrefl 0)
  | succ rounds ih =>
    rcases Nat.lt_or_ge toHeight.toNat current.toNat with passed | below
    · refine ⟨[], by simp, (blocksBetween_above passed).symm, fun σ feed overflow unfinished state => ?_⟩
      rw [downloadRange, if_pos (UInt64.lt_iff_toNat_lt.mpr passed), feedAll]
    · obtain ⟨n, fetched, within, answer⟩ := delivers current below
      have length : ((w.drop current.toNat).take n).length = n := by
        rw [List.length_take, List.length_drop]
        omega
      obtain ⟨next, advance⟩ : ∃ next, checkedAdd current (UInt64.ofNat n) = some next := by
        rw [← Option.isSome_iff_exists, Option.isSome_iff_ne_none, Ne, checkedAdd_eq_none,
          toNat_ofNat_u64 (by omega)]
        omega
      have sum := checkedAdd_eq_some.mp advance
      rw [toNat_ofNat_u64 (by omega)] at sum
      obtain ⟨batches, nonempty, whole, run⟩ := ih next (by omega) (by omega)
      refine ⟨(w.drop current.toNat).take n :: batches, ?_, ?_, ?_⟩
      · intro batch mem
        rcases List.mem_cons.mp mem with rfl | mem
        · exact List.length_pos_iff.mp (by omega)
        · exact nonempty batch mem
      · rw [List.flatten_cons, whole, sum, ← blocksBetween_split within]
      · intro σ feed overflow unfinished state
        have less : ¬ toHeight < current := by
          rw [UInt64.lt_iff_toNat_lt]
          omega
        rw [downloadRange, if_neg less, answer]
        cases blocks : (w.drop current.toNat).take n with
        | nil =>
          rw [blocks, List.length_nil] at length
          omega
        | cons block rest =>
          rw [blocks] at length
          dsimp only
          rw [length, advance, feedAll]
          cases feed state (block :: rest) with
          | mk result after =>
            cases result with
            | error error => rfl
            | ok _ => exact run σ feed overflow unfinished after

end Range

section Loops

variable [Primitives] [Floats] {DB PeerDB : Type} [FullNodeStorage DB] [FullNodeStorage PeerDB]

/-- An error of the worker of the initial download, as the node sees it (`sync.rs:540-546`). A
panic ends the task; the text of the join error is not kept. -/
def ibdError : StryiCoreError → StryiNodeError
  | .panicked _ => .other "IBD worker failed"
  | error => .core error

/-- `ingest_ibd_batch` (`ibd.rs:12-131`): the blocks go to the engine in order, up to the first one
that is rejected. -/
def ingestIbdBatch (clock : Block → UInt64) :
    StryiConsensusEngine DB → List Block → Except StryiNodeError Unit × StryiConsensusEngine DB
  | engine, [] => (.ok (), engine)
  | engine, block :: blocks =>
      let delivery := syncDelivery clock block
      match onBlock delivery.nowSecs delivery.faults delivery.block engine with
      | .error error engine => (.error (ibdError error), engine)
      | .ok (.rejected error) engine =>
          (.error (.other s!"IBD rejected block {block.blockHash} at height {block.header.height}: {error.message}"),
            engine)
      | .ok _ engine => ingestIbdBatch clock engine blocks

/-- `run_ibd` (`sync.rs:519-555`). The batch size is truncated to 32 bits; every round fetches a
block. After an error only the storage of the engine is kept. -/
def runIbd (clock : Block → UInt64) (engine : StryiConsensusEngine DB)
    (remotePeer : RemotePeer PeerDB) (fromHeight toHeight maxBatch : UInt64) :
    Except StryiNodeError Unit × StryiConsensusEngine DB :=
  downloadRange
    (fun current => remotePeer.requestBlocksByHeightRange current toHeight maxBatch.toUInt32)
    (ingestIbdBatch clock) (.other "IBD height overflow") .unfinished toHeight
    (toHeight.toNat + 2) fromHeight engine

/-- What `sync_from_peer` does with a batch (`event_loop.rs:618-628`). -/
def feedRuntime (clock : Block → UInt64) (runtime : ConsensusRuntime DB) (blocks : List Block) :
    Except StryiNodeError Unit × ConsensusRuntime DB :=
  match runtime.applyBlocks (blocks.map (syncDelivery clock)) with
  | (.error error, runtime) => (.error (workerError error), runtime)
  | (.ok outcomes, runtime) =>
      match outcomes.findSome? ConsensusRuntime.rejection with
      | some error => (.error (.other s!"Sync block rejected: {error.message}"), runtime)
      | none => (.ok (), runtime)

/-- The loop of `sync_from_peer` is the same loop. -/
theorem downloadLoop_eq (clock : Block → UInt64) (remotePeer : RemotePeer PeerDB)
    (batchSize : UInt32) (toHeight : UInt64) (rounds : Nat) (current : UInt64)
    (runtime : ConsensusRuntime DB) :
    downloadLoop clock remotePeer batchSize toHeight rounds current runtime =
      downloadRange (fun current => remotePeer.requestBlocksByHeightRange current toHeight batchSize)
        (feedRuntime clock) (.panicked "attempt to add with overflow") .unfinished toHeight rounds
        current runtime := by
  induction rounds generalizing current runtime with
  | zero => rfl
  | succ rounds ih =>
    rw [downloadLoop, downloadRange]
    by_cases passed : toHeight < current
    · rw [if_pos passed, if_pos passed]
    · rw [if_neg passed, if_neg passed]
      cases remotePeer.requestBlocksByHeightRange current toHeight batchSize with
      | error error => rfl
      | ok blocks =>
        cases blocks with
        | nil => rfl
        | cons block blocks =>
          dsimp only
          rw [feedRuntime]
          cases runtime.applyBlocks ((block :: blocks).map (syncDelivery clock)) with
          | mk result after =>
            cases result with
            | error error => rfl
            | ok outcomes =>
              dsimp only
              cases outcomes.findSome? ConsensusRuntime.rejection with
              | some error => rfl
              | none =>
                dsimp only
                cases checkedAdd current (UInt64.ofNat (block :: blocks).length) with
                | none => rfl
                | some next => exact ih next after

section Accepted

variable {clock : Block → UInt64}

open ConsensusRuntime

omit [Floats] in
/-- A batch without rejections reaches the engine as a whole. -/
theorem ingestIbdBatch_ok {engine : StryiConsensusEngine DB} {blocks : List Block}
    (accepted : Along Accepts engine (blocks.map (syncDelivery clock))) :
    ingestIbdBatch clock engine blocks =
      (.ok (), deliverAll engine (blocks.map (syncDelivery clock))) := by
  induction blocks generalizing engine with
  | nil => rfl
  | cons block blocks ih =>
    obtain ⟨⟨verdict, engine', done, fine⟩, rest⟩ := accepted
    have reached : deliver engine (syncDelivery clock block) = engine' := by rw [deliver, done]
    rw [reached] at rest
    have later := ih rest
    rw [List.map_cons, deliverAll, List.foldl_cons, reached, ingestIbdBatch, done]
    cases verdict with
    | rejected error => exact absurd rfl (fine error)
    | _ => exact later

theorem feedRuntime_ok {runtime : ConsensusRuntime DB} {blocks : List Block}
    (accepted : Along Accepts runtime.engine (blocks.map (syncDelivery clock))) :
    ∃ after, feedRuntime clock runtime blocks = (.ok (), after) ∧
      after.engine = deliverAll runtime.engine (blocks.map (syncDelivery clock)) := by
  obtain ⟨outcomes, after, batch, reached, fine⟩ := applyBlocks_ok accepted
  refine ⟨after, ?_, reached⟩
  rw [feedRuntime, batch]
  dsimp only
  rw [fine]

omit [Floats] in
/-- Batches without rejections, fed to anything that holds an engine. -/
theorem feedAll_ok {σ : Type} {feed : σ → List Block → Except StryiNodeError Unit × σ}
    {engineOf : σ → StryiConsensusEngine DB}
    (one : ∀ state blocks, Along Accepts (engineOf state) (blocks.map (syncDelivery clock)) →
      ∃ after, feed state blocks = (.ok (), after) ∧
        engineOf after = deliverAll (engineOf state) (blocks.map (syncDelivery clock)))
    {batches : List (List Block)} {state : σ}
    (accepted : Along Accepts (engineOf state) (batches.flatten.map (syncDelivery clock))) :
    ∃ after, feedAll feed batches state = (.ok (), after) ∧
      engineOf after = deliverAll (engineOf state) (batches.flatten.map (syncDelivery clock)) := by
  induction batches generalizing state with
  | nil => exact ⟨state, rfl, rfl⟩
  | cons batch batches ih =>
    rw [List.flatten_cons, List.map_append, Along.append] at accepted
    obtain ⟨middle, first, reached⟩ := one state batch accepted.1
    have later : Along Accepts (engineOf middle) (batches.flatten.map (syncDelivery clock)) := by
      rw [reached]
      exact accepted.2
    obtain ⟨after, rest, last⟩ := ih later
    refine ⟨after, by rw [feedAll, first]; exact rest, ?_⟩
    rw [last, reached, List.flatten_cons, List.map_append, deliverAll_append]

end Accepted

variable [LawfulStorage PeerDB]

omit [Floats] in
/-- A peer that keeps its chain is such a source, for every batch size. -/
theorem RemotePeer.Serves.delivers {remotePeer : RemotePeer PeerDB} {w : List Block}
    (serves : remotePeer.Serves w) {toHeight : UInt64} (inside : toHeight.toNat < w.length)
    (batchSize : UInt32) :
    Delivers (fun current => remotePeer.requestBlocksByHeightRange current toHeight batchSize) w
      toHeight :=
  fun _ below => serves.range_ok batchSize below inside

/-- Each block of the range is downloaded once. Both loops end, and feed the same non-empty
batches, which make up the blocks at the heights of the range in ascending order; as long as none
is rejected, exactly these have reached the engine. -/
theorem range_downloaded_once {remotePeer : RemotePeer PeerDB} {w : List Block}
    (serves : remotePeer.Serves w) (clock : Block → UInt64) (fromHeight : UInt64)
    {toHeight : UInt64} (inside : toHeight.toNat < w.length) (maxBatch : UInt64) :
    (∀ i b, (blocksBetween w fromHeight.toNat toHeight.toNat)[i]? = some b →
      b.header.height.toNat = fromHeight.toNat + i) ∧
    (fromHeight.toNat ≤ toHeight.toNat →
      (blocksBetween w fromHeight.toNat toHeight.toNat).length =
        toHeight.toNat + 1 - fromHeight.toNat) ∧
    (∃ batches : List (List Block), (∀ batch ∈ batches, batch ≠ []) ∧
      batches.flatten = blocksBetween w fromHeight.toNat toHeight.toNat ∧
      (∀ engine : StryiConsensusEngine DB,
        runIbd clock engine remotePeer fromHeight toHeight maxBatch =
          feedAll (ingestIbdBatch clock) batches engine) ∧
      ∀ runtime : ConsensusRuntime DB,
        downloadLoop clock remotePeer maxBatch.toUInt32 toHeight (toHeight.toNat + 2) fromHeight
          runtime = feedAll (feedRuntime clock) batches runtime) ∧
    (∀ engine : StryiConsensusEngine DB,
      Along ConsensusRuntime.Accepts engine
        ((blocksBetween w fromHeight.toNat toHeight.toNat).map (syncDelivery clock)) →
      runIbd clock engine remotePeer fromHeight toHeight maxBatch = (.ok (), deliverAll engine
        ((blocksBetween w fromHeight.toNat toHeight.toNat).map (syncDelivery clock)))) ∧
    ∀ runtime : ConsensusRuntime DB,
      Along ConsensusRuntime.Accepts runtime.engine
        ((blocksBetween w fromHeight.toNat toHeight.toNat).map (syncDelivery clock)) →
      ∃ after, downloadLoop clock remotePeer maxBatch.toUInt32 toHeight (toHeight.toNat + 2)
          fromHeight runtime = (.ok (), after) ∧
        after.engine = deliverAll runtime.engine
          ((blocksBetween w fromHeight.toNat toHeight.toNat).map (syncDelivery clock)) := by
  have fits := serves.represents.fits
  obtain ⟨batches, nonempty, whole, run⟩ := downloadRange_eq
    (serves.delivers inside maxBatch.toUInt32) inside (by omega) (toHeight.toNat + 2) fromHeight
    (by omega) (by omega)
  have ibd : ∀ engine : StryiConsensusEngine DB,
      runIbd clock engine remotePeer fromHeight toHeight maxBatch =
        feedAll (ingestIbdBatch clock) batches engine := fun engine => run _ _ _ _ engine
  have sync : ∀ runtime : ConsensusRuntime DB,
      downloadLoop clock remotePeer maxBatch.toUInt32 toHeight (toHeight.toNat + 2) fromHeight
        runtime = feedAll (feedRuntime clock) batches runtime := fun runtime =>
    (downloadLoop_eq ..).trans (run _ _ _ _ runtime)
  refine ⟨?_, ?_, ⟨batches, nonempty, whole, ibd, sync⟩, ?_, ?_⟩
  · intro i b at_i
    exact serves.chain.height (getElem?_blocksBetween at_i)
  · intro order
    rw [length_blocksBetween]
    omega
  · intro engine accepted
    rw [← whole] at accepted ⊢
    have one : ∀ (engine : StryiConsensusEngine DB) blocks,
        Along ConsensusRuntime.Accepts (id engine) (blocks.map (syncDelivery clock)) →
        ∃ after, ingestIbdBatch clock engine blocks = (.ok (), after) ∧
          id after = deliverAll (id engine) (blocks.map (syncDelivery clock)) :=
      fun engine blocks accepted => ⟨_, ingestIbdBatch_ok accepted, rfl⟩
    obtain ⟨after, fed, reached⟩ := feedAll_ok one accepted
    rw [ibd, fed, ← show after = deliverAll engine _ from reached]
  · intro runtime accepted
    rw [← whole] at accepted ⊢
    rw [sync]
    have one : ∀ (runtime : ConsensusRuntime DB) blocks,
        Along ConsensusRuntime.Accepts runtime.engine (blocks.map (syncDelivery clock)) →
        ∃ after, feedRuntime clock runtime blocks = (.ok (), after) ∧
          after.engine = deliverAll runtime.engine (blocks.map (syncDelivery clock)) :=
      fun runtime blocks accepted => feedRuntime_ok accepted
    exact feedAll_ok one accepted

end Loops

open Sample in
/-- A batch size that is truncated to zero. -/
theorem range_downloaded_once_sample : ∃ s : RocksView,
    RemotePeer.Serves ⟨⟨syncConfig, s⟩⟩ (genesis :: [other, aside, onward]) ∧
    ∃ batches : List (List Block), (∀ batch ∈ batches, batch ≠ []) ∧
      batches.flatten = [other, aside, onward] ∧
      ∀ engine : StryiConsensusEngine RocksView,
        runIbd (fun _ => 1000) engine (⟨⟨syncConfig, s⟩⟩ : RemotePeer RocksView) 1 3 4294967296 =
          feedAll (ingestIbdBatch fun _ => 1000) batches engine := by
  obtain ⟨s, -, serves⟩ := exists_peer
  have inside : (3 : UInt64).toNat < [genesis, other, aside, onward].length := by decide
  obtain ⟨-, -, ⟨batches, nonempty, whole, ibd, -⟩, -⟩ :=
    @range_downloaded_once _ _ RocksView _ _ _ _ _ _ serves (fun _ => 1000) 1 _ inside 4294967296
  exact ⟨s, serves, batches, nonempty, whole, ibd⟩

end StryiChain
