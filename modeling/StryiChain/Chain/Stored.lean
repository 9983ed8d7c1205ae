import StryiChain.Chain.Opening
import StryiChain.Storage.Database

/-!
# The chain as it is stored

The engine changes its storage by committed transitions only. So the database of a node is what a
session of calls has left, and its rows are those of the canonical chain: read in the order of their
keys, the heights list the chain from genesis to the tip, and the database opens again.
-/

namespace StryiChain

open LawfulStorage StryiConsensusEngine

section Session

variable [Primitives] {S : Type} {call : S → StorageCall → Except StorageError (CallAnswer × S)}

omit [Primitives] in
/-- One more call, when it succeeds. -/
theorem session_concat {s s' : S} {requests : List StorageCall} {request : StorageCall}
    (run : ∃ answer, call (session call s requests).2 request = .ok (answer, s')) :
    (session call s (requests ++ [request])).2 = s' := by
  induction requests generalizing s with
  | nil =>
    obtain ⟨answer, run⟩ := run
    rw [session] at run
    rw [List.nil_append, session, run]
    rfl
  | cons first requests ih =>
    rw [session] at run
    rw [List.cons_append, session]
    cases h : call s first with
    | error error =>
      rw [h] at run
      exact ih run
    | ok next =>
      rw [h] at run
      exact ih run

end Session

section Commits

variable [Primitives] {DB : Type} [FullNodeStorage DB] {engine engine' : StryiConsensusEngine DB}
  {nowSecs : UInt64} {b : Block} {verdict : ConsensusVerdict}

/-- A step commits one transition, or leaves the storage alone. -/
theorem Step.commits (step : Step engine nowSecs b verdict engine') :
    engine'.db = engine.db ∨
      ∃ transition result, commitTransition engine.db transition = .ok (result, engine'.db) := by
  cases step with
  | applied shape height extends' valid top committed => exact .inr ⟨_, _, committed⟩
  | replaced shape height creates work view valid top heavy reorganized =>
    obtain ⟨-, -, delta, result, db, -, -, -, committed, -, rfl⟩ := reorganized.done
    exact .inr ⟨_, _, committed⟩
  | overtaken shape height extends' found view replayed valid top heavy reorganized =>
    obtain ⟨-, -, delta, result, db, -, -, -, committed, -, rfl⟩ := reorganized.done
    exact .inr ⟨_, _, committed⟩
  | _ => exact .inl rfl

theorem deliver_commits (engine : StryiConsensusEngine DB) (delivery : Delivery) :
    (deliver engine delivery).db = engine.db ∨
      ∃ transition result,
        commitTransition engine.db transition = .ok (result, (deliver engine delivery).db) := by
  unfold deliver
  cases run : onBlock delivery.nowSecs delivery.faults delivery.block engine with
  | ok verdict engine' => exact (onBlock_ok run).commits
  | error error engine' => exact .inl (by rw [onBlock_error run])

end Commits

section Rows

variable [Primitives] {engine : StryiConsensusEngine RocksView} {bytes : ByteView}
  {view db : RocksView} {w : List Block}

/-- What the engine does to its database is a session. -/
theorem deliverAll_session {requests : List StorageCall}
    (start : (session RocksView.call .empty requests).2 = engine.db)
    (deliveries : List Delivery) :
    ∃ later, (session RocksView.call .empty (requests ++ later)).2 =
      (deliverAll engine deliveries).db := by
  induction deliveries generalizing engine requests with
  | nil => exact ⟨[], by rw [List.append_nil]; exact start⟩
  | cons delivery deliveries ih =>
    rcases deliver_commits engine delivery with same | ⟨transition, result, committed⟩
    · exact ih (start.trans same.symm)
    · have one : (session RocksView.call .empty
          (requests ++ [.applyTransition transition])).2 = (deliver engine delivery).db := by
        apply session_concat
        refine ⟨some result, ?_⟩
        rw [start, RocksView.call, committed]
        rfl
      obtain ⟨later, last⟩ := ih one
      exact ⟨.applyTransition transition :: later, by rw [List.append_cons]; exact last⟩

/-- The row of a block in `heights`. -/
def heightRow (b : Block) : List UInt8 × List UInt8 :=
  (heightKey b.header.height, Hash.bytes b.blockHash)

/-- The heights in the order of their keys are the chain. -/
theorem inOrder_heights (stores : Stores bytes view) (chain : IsChain w)
    (represents : Represents view.tables w) :
    (bytes.table .heights).inOrder = w.map heightRow := by
  apply Rows.inOrder_eq
  · rw [List.pairwise_map, List.pairwise_iff_getElem]
    intro i j low high below
    have first := chain.height (List.getElem?_eq_getElem low)
    have second := chain.height (List.getElem?_eq_getElem high)
    apply Rows.beBytes_lt_beBytes _ (UInt64.toNat_lt _)
    rw [first, second]
    exact below
  · intro row
    constructor
    · intro mem
      obtain ⟨b, inside, rfl⟩ := List.mem_map.mp mem
      obtain ⟨i, here⟩ := List.mem_iff_getElem?.mp inside
      have mapped : view.heights.read b.header.height = some b.blockHash :=
        represents.holds.get_height chain here
      obtain ⟨value, found, rfl⟩ := stores.heights.read_some mapped
      exact found
    · intro found
      obtain ⟨height, hash, named, mapped, written⟩ := stores.heights.of_read found
      have read : view.heights.read height = (w[height.toNat]?).map Block.blockHash :=
        represents.holds.height height
      rw [mapped] at read
      obtain ⟨b, here, own⟩ := Option.map_eq_some_iff.mp read.symm
      refine List.mem_map.mpr ⟨b, List.mem_of_getElem? here, ?_⟩
      have number : b.header.height = height := UInt64.toNat_inj.mp (chain.height here)
      rw [heightRow, number, own]
      exact Prod.ext named written.symm

end Rows

section Node

variable [Primitives] {config : GenesisInitConfig} {nowSecs : UInt64} {db : RocksView}
  {engine : StryiConsensusEngine RocksView} {consensusConsts : ConsensusConsts}
  {blockValidator : BlockValidator}

/-- The database of a node is what a session of calls has left. Whatever session leaves it, its rows
are those of the canonical chain: the heights list it from genesis to the tip, each body stands
under its hash, the only state row names the tip, and the rows open again. -/
theorem stored_chain
    (initialized : RocksView.empty.initializeInPath (some config) nowSecs = .ok db)
    (started : StryiConsensusEngine.new consensusConsts blockValidator db = .ok engine)
    (deliveries : List Delivery) (nowSecs' : UInt64) :
    (∃ requests, (session RocksView.call .empty requests).2 = (deliverAll engine deliveries).db) ∧
      ∀ requests, (session RocksView.call .empty requests).2 = (deliverAll engine deliveries).db →
        ∃ bytes : ByteView, (session ByteView.call .empty requests).2 = bytes ∧
          (bytes.table .heights).inOrder =
            (canonicalBlocks (deliverAll engine deliveries).db).map heightRow ∧
          (∀ b ∈ canonicalBlocks (deliverAll engine deliveries).db,
            (bytes.table .blocks).read (Hash.bytes b.blockHash) = some (blockCodec.encode b)) ∧
          (∃ (tip : Block) (state : ChainState),
            (canonicalBlocks (deliverAll engine deliveries).db).getLast? = some tip ∧
            state.latestBlock = (tip.header.height, tip.blockHash) ∧
            (bytes.table .stats).inOrder = [(stateKey, chainStateCodec.encode state.fields)]) ∧
          bytes.initializeInPath none nowSecs' = .ok bytes := by
  obtain ⟨chainMetadata, result, schema, committed⟩ := initialize_eq_ok initialized
  have launched : launch consensusConsts blockValidator config.genesis chainMetadata =
      .ok engine := by
    rw [launch, committed]
    exact started
  have first : (session RocksView.call .empty
      [.initializeInPath (some config) nowSecs]).2 = engine.db := by
    have kept := started
    rw [StryiConsensusEngine.new, bind_eq_ok] at kept
    obtain ⟨index, -, built⟩ := kept
    rw [session, RocksView.call, initialized, ← (pure_eq_ok _ _).mp built]
    rfl
  obtain ⟨later, last⟩ := deliverAll_session first deliveries
  refine ⟨⟨_, last⟩, fun requests left => ⟨_, rfl, ?_⟩⟩
  obtain ⟨-, valid⟩ := genesis_checked committed
  obtain ⟨inv, -, tables'⟩ := Invariant.launched launched
  obtain ⟨w, reached, kept⟩ := inv.run_metadata deliveries
  have canonical := reached.canonical
  obtain ⟨rest, bottom⟩ := reached.first
  obtain ⟨-, filed⟩ := session_filed requests
  rw [left] at filed
  have stores := filed.stores
  rw [canonicalBlocks_eq canonical]
  have named : (deliverAll engine deliveries).db.metadata = some chainMetadata := by
    have saved : (tables (deliverAll engine deliveries).db).metadata = some chainMetadata := by
      rw [kept, tables']
      rfl
    exact saved
  have verified := verifyInitializedState_ok canonical.sound canonical.chain canonical.represents
    (show w[0]? = some config.genesis by rw [bottom]; rfl) valid named schema
  refine ⟨inOrder_heights stores canonical.chain canonical.represents, fun b mem => ?_, ?_, ?_⟩
  · have body : (deliverAll engine deliveries).db.blocks.read b.blockHash = some b :=
      canonical.represents.holds.body b mem
    obtain ⟨value, found, rfl⟩ := stores.blocks.read_some body
    exact found
  · obtain ⟨state, hstate⟩ := exists_stateOf canonical.chain
    obtain ⟨tip, top, latest, -, -⟩ := stateOf_eq_some hstate
    have saved : (deliverAll engine deliveries).db.stats = some state :=
      canonical.represents.state.trans hstate
    obtain ⟨value, found, -, rfl⟩ := stores.stats.read_some (k := ()) saved
    refine ⟨tip, state, top, latest, Rows.inOrder_eq (List.pairwise_singleton _ _) fun row => ?_⟩
    rw [List.mem_singleton]
    constructor
    · intro same
      rw [same]
      exact found
    · intro read
      obtain ⟨-, v, key, bound, -, written⟩ := stores.stats.of_read read
      rw [saved, Option.some.injEq] at bound
      rw [← bound] at written
      exact Prod.ext key.symm written
  · rw [ByteView.initializeInPath, Option.map_none, stores.verifyInitializedState_eq, verified]
    rfl

end Node

open Sample in
/-- A database that has seen a branch overtake another one lists the new chain. -/
theorem stored_chain_sample : ∃ db engine requests,
    RocksView.empty.initializeInPath (some launchConfig) 0 = .ok db ∧
      StryiConsensusEngine.new consts validator db = .ok engine ∧
      (session RocksView.call .empty requests).2 =
        (deliverAll engine ([rival, other, next].map call)).db ∧
      ((session ByteView.call .empty requests).2.table .heights).inOrder =
        (canonicalBlocks (deliverAll engine ([rival, other, next].map call)).db).map heightRow := by
  have opened : (RocksView.empty.initializeInPath (some launchConfig) 0).toOption.any (fun db =>
      (StryiConsensusEngine.new consts validator db).toOption.any fun _ => true) = true := by
    decide +kernel
  obtain ⟨db, opened, started⟩ := exists_ok_of_any opened
  obtain ⟨engine, started, -⟩ := exists_ok_of_any started
  obtain ⟨⟨requests, left⟩, rows⟩ :=
    stored_chain opened started ([rival, other, next].map call) 5
  obtain ⟨bytes, same, heights, -⟩ := rows requests left
  exact ⟨db, engine, requests, opened, started, left, by rw [same]; exact heights⟩

end StryiChain
