import StryiChain.Storage.MemoryLawful
import StryiChain.Storage.RocksLawful

/-!
# The UTXO families against a plain map (`stryi_storage/src/{write,utxo}.rs`)

Calls that write UTXOs, as data. As long as the entries agree with their keys and only stored
outpoints are removed, a run of calls leaves in the RocksDB families what it leaves in the
in-memory map, and the index answers for every address as a scan of the map does.
-/

namespace StryiChain

/-- `encode_utxo_key` (`utxo.rs:9-15`): 36 bytes. -/
def encodeUtxoKey (outpoint : OutPoint) : List UInt8 :=
  outpoint.txid.bytes ++ beBytes 4 outpoint.vout.toNat

/-- Two outpoints never share a row. -/
theorem encodeUtxoKey_injective : Function.Injective encodeUtxoKey := by
  intro a b same
  obtain ⟨txid, vout⟩ := List.append_inj same (by rw [Hash.length_bytes, Hash.length_bytes])
  have index : a.vout.toNat = b.vout.toNat := beBytes_inj a.vout.toNat_lt b.vout.toNat_lt vout
  cases a
  cases b
  rw [OutPoint.mk.injEq]
  exact ⟨Hash.bytes_injective txid, UInt32.toNat_inj.mp index⟩

/-- A call of `UtxoWrite`. -/
inductive UtxoCall where
  | batchPutUtxos (entries : List (OutPoint × UTXO))
  | batchRemoveUtxos (outpoints : List OutPoint)

namespace UtxoCall

/-- What the call does to a storage. -/
def run {S : Type} [UtxoWrite S] (storage : S) : UtxoCall → Except StorageError S
  | .batchPutUtxos entries => StryiChain.batchPutUtxos storage entries
  | .batchRemoveUtxos outpoints => StryiChain.batchRemoveUtxos storage outpoints

/-- What the call does to a map: insertion or deletion one by one. -/
def effect (m : Coins) : UtxoCall → Coins
  | .batchPutUtxos entries => entries.foldl (fun m e => Function.update m e.1 (some e.2)) m
  | .batchRemoveUtxos outpoints => outpoints.foldl (fun m o => Function.update m o none) m

/-- The entries agree with their keys; the outpoints are distinct and stored. -/
def Legal (m : Coins) : UtxoCall → Prop
  | .batchPutUtxos entries => ∀ entry ∈ entries, Keyed entry
  | .batchRemoveUtxos outpoints => outpoints.Nodup ∧ ∀ o ∈ outpoints, m o ≠ none

/-- A sequence of calls. -/
def runAll {S : Type} [UtxoWrite S] (calls : List UtxoCall) (storage : S) :
    Except StorageError S := calls.foldlM run storage

/-- Every call of the sequence is legal when its turn comes. -/
def LegalRun : List UtxoCall → Coins → Prop
  | [], _ => True
  | call :: calls, m => call.Legal m ∧ LegalRun calls (call.effect m)

end UtxoCall

theorem removals_eq (outpoints : List OutPoint) (m : Coins) :
    outpoints.foldl (fun m o => Function.update m o none) m = eraseAll outpoints m := by
  induction outpoints generalizing m with
  | nil => simp
  | cons o os ih => rw [List.foldl_cons, ih, eraseAll_cons]

section Backends

variable [Primitives]

namespace RocksView

variable {view : RocksView}

/-- One member of an address (`utxo.rs:36-50`). -/
def fetchOwned (view : RocksView) (address : AccountAddress) (utxos : Table OutPoint UTXO)
    (outpoint : OutPoint) : Except StorageError (Table OutPoint UTXO) := do
  let utxo ← okOr (← view.getUtxo outpoint)
    (.corruption s!"Address {address} references missing UTXO {outpoint}")
  failIf (utxo.owner ≠ address)
    (.corruption s!"Address {address} references UTXO owned by {utxo.owner}")
  return AList.insert outpoint utxo utxos

omit [Primitives] in
/-- The loop over the members of an address, each of which is stored with this owner. -/
theorem fetchOwned_ok (keyed : Coins.WellKeyed view.utxo.read) {address : AccountAddress}
    {outpoints : List OutPoint} (owned : ∀ o ∈ outpoints, view.Owns address o)
    (found : Table OutPoint UTXO) :
    ∃ found', outpoints.foldlM (view.fetchOwned address) found = .ok found' ∧
      ∀ o, found'.read o = if o ∈ outpoints then view.utxo.read o else found.read o := by
  induction outpoints generalizing found with
  | nil => exact ⟨found, rfl, by simp⟩
  | cons op ops ih =>
    obtain ⟨utxo, stored, owner⟩ := owned op (by simp)
    obtain ⟨found', loop, lookup⟩ := ih (fun o mem => owned o (List.mem_cons_of_mem _ mem))
      (AList.insert op utxo found)
    have own : ¬ (utxo.owner ≠ address) := fun other => other owner
    refine ⟨found', ?_, fun o => ?_⟩
    · rw [List.foldlM_cons, fetchOwned, getUtxo_ok keyed, stored, bind_ok, okOr_some, bind_ok,
        failIf_of_not _ own, bind_ok]
      exact loop
    · rw [lookup, Table.read_insert]
      by_cases same : o = op
      · subst same
        simp [stored]
      · simp [same]

/-- The index answers with exactly the entries of the owner. -/
theorem getUtxosForAddress_ok (indexed : view.Indexed) (address : AccountAddress) :
    ∃ found, view.getUtxosForAddress address = .ok found ∧
      ∀ o u, found.read o = some u ↔ view.utxo.read o = some u ∧ u.owner = address := by
  have owned : ∀ o ∈ iter (view.members address), view.Owns address o := fun o mem =>
    (indexed.addresses address o).mp (mem_iter.mp mem)
  obtain ⟨found, run, lookup⟩ := fetchOwned_ok indexed.keyed owned ∅
  refine ⟨found, run, fun o u => ?_⟩
  rw [lookup]
  by_cases owns : o ∈ iter (view.members address)
  · obtain ⟨utxo, stored, owner⟩ := owned o owns
    rw [if_pos owns, stored, Option.some.injEq]
    constructor
    · rintro rfl
      exact ⟨rfl, owner⟩
    · exact fun h => h.1
  · rw [if_neg owns, Table.read_empty]
    constructor
    · intro impossible
      cases impossible
    · intro h
      exact (owns (mem_iter.mpr ((indexed.addresses address o).mpr ⟨u, h⟩))).elim

end RocksView

omit [Primitives] in
/-- A scan of the in-memory map answers with exactly the entries of the owner. -/
theorem MemoryView.getUtxosForAddress_eq (memory : MemoryView) (address : AccountAddress)
    (o : OutPoint) (u : UTXO) :
    (memory.getUtxosForAddress address).read o = some u ↔
      memory.utxos.read o = some u ∧ u.owner = address := by
  have keys : ((memory.utxos.toPairs.filter fun entry => entry.2.owner = address).map
      Prod.fst).Nodup :=
    (List.filter_sublist.map Prod.fst).nodup (Table.nodup_toPairs_keys _)
  rw [getUtxosForAddress, Table.read_insertAll_empty keys, List.mem_filter, Table.mem_toPairs,
    decide_eq_true_eq]

/-- The two backends hold the same map, and the index of the first mirrors it. -/
structure Simulates (view : RocksView) (memory : MemoryView) : Prop where
  indexed : view.Indexed
  same : view.utxo.read = memory.utxos.read

namespace Simulates

variable {view : RocksView} {memory : MemoryView}

/-- Both backends answer alike for every address. -/
theorem addresses (simulates : Simulates view memory) (address : AccountAddress) :
    ∃ found, view.getUtxosForAddress address = .ok found ∧
      found.read = (memory.getUtxosForAddress address).read := by
  obtain ⟨found, run, lookup⟩ := RocksView.getUtxosForAddress_ok simulates.indexed address
  refine ⟨found, run, ?_⟩
  funext o
  apply Option.ext
  intro u
  rw [lookup, MemoryView.getUtxosForAddress_eq, simulates.same]

/-- One legal call. -/
theorem step (simulates : Simulates view memory) {call : UtxoCall}
    (legal : call.Legal memory.utxos.read) :
    ∃ view' memory', call.run view = .ok view' ∧ call.run memory = .ok memory' ∧
      Simulates view' memory' ∧ memory'.utxos.read = call.effect memory.utxos.read := by
  obtain ⟨indexed, same⟩ := simulates
  cases call with
  | batchPutUtxos entries =>
    obtain ⟨addresses, run, indexed'⟩ := RocksView.batchPutUtxos_indexed indexed legal
    refine ⟨_, _, run, rfl, ⟨indexed', ?_⟩, Table.read_insertAll _ _⟩
    simp only [Table.read_insertAll, same]
  | batchRemoveUtxos outpoints =>
    obtain ⟨distinct, present⟩ := legal
    obtain ⟨addresses, run, indexed'⟩ :=
      RocksView.batchRemoveUtxos_indexed indexed distinct (by rwa [same])
    refine ⟨_, _, run, MemoryView.batchRemoveUtxos_eq present, ⟨indexed', ?_⟩, ?_⟩
    · simp only [Table.read_removeAll, same]
    · rw [UtxoCall.effect, removals_eq, Table.read_removeAll]

/-- A run of legal calls. -/
theorem run (simulates : Simulates view memory) {calls : List UtxoCall}
    (legal : UtxoCall.LegalRun calls memory.utxos.read) :
    ∃ view' memory', UtxoCall.runAll calls view = .ok view' ∧
      UtxoCall.runAll calls memory = .ok memory' ∧ Simulates view' memory' := by
  induction calls generalizing view memory with
  | nil => exact ⟨view, memory, rfl, rfl, simulates⟩
  | cons call calls ih =>
    obtain ⟨view', memory', step, step', next, map⟩ := simulates.step legal.1
    obtain ⟨view'', memory'', rest, rest', last⟩ := ih next (by rw [map]; exact legal.2)
    refine ⟨view'', memory'', ?_, ?_, last⟩
    · rw [UtxoCall.runAll, List.foldlM_cons, step, bind_ok]
      exact rest
    · rw [UtxoCall.runAll, List.foldlM_cons, step', bind_ok]
      exact rest'

end Simulates

/-- The UTXO families refine a plain map: every legal call succeeds with what insertion or
deletion one by one gives, the index mirrors the entries again and answers with the entries of
each owner; and a run of legal calls ends where the in-memory backend ends. -/
theorem utxoFamilies_refine {view : RocksView} (indexed : view.Indexed) :
    (∀ call : UtxoCall, call.Legal view.utxo.read → ∃ view', call.run view = .ok view' ∧
      view'.utxo.read = call.effect view.utxo.read ∧ view'.Indexed ∧
      ∀ address, ∃ found, view'.getUtxosForAddress address = .ok found ∧
        ∀ o u, found.read o = some u ↔ view'.utxo.read o = some u ∧ u.owner = address) ∧
    ∀ (calls : List UtxoCall) (memory : MemoryView), memory.utxos.read = view.utxo.read →
      UtxoCall.LegalRun calls view.utxo.read →
      ∃ view' memory', UtxoCall.runAll calls view = .ok view' ∧
        UtxoCall.runAll calls memory = .ok memory' ∧ view'.Indexed ∧
        view'.utxo.read = memory'.utxos.read ∧
        ∀ address, ∃ found, view'.getUtxosForAddress address = .ok found ∧
          found.read = (memory'.getUtxosForAddress address).read := by
  constructor
  · intro call legal
    cases call with
    | batchPutUtxos entries =>
      obtain ⟨addresses, run, indexed'⟩ := RocksView.batchPutUtxos_indexed indexed legal
      exact ⟨_, run, Table.read_insertAll _ _, indexed', RocksView.getUtxosForAddress_ok indexed'⟩
    | batchRemoveUtxos outpoints =>
      obtain ⟨addresses, run, indexed'⟩ :=
        RocksView.batchRemoveUtxos_indexed indexed legal.1 legal.2
      refine ⟨_, run, ?_, indexed', RocksView.getUtxosForAddress_ok indexed'⟩
      rw [UtxoCall.effect, removals_eq, Table.read_removeAll]
  · intro calls memory same legal
    have simulates : Simulates view memory := ⟨indexed, same.symm⟩
    obtain ⟨view', memory', run, run', last⟩ := simulates.run (by rwa [same])
    exact ⟨view', memory', run, run', last.indexed, last.same, last.addresses⟩

end Backends

namespace Sample

/-- Two outputs of one account. -/
def filling : UtxoCall :=
  .batchPutUtxos [(⟨⟨1⟩, 0⟩, ⟨⟨1⟩, 0, 5, ⟨7⟩⟩), (⟨⟨2⟩, 0⟩, ⟨⟨2⟩, 0, 9, ⟨7⟩⟩)]

/-- One of them is stored twice in one batch, with two other owners, and the other one is removed. -/
def moving : List UtxoCall :=
  [.batchPutUtxos [(⟨⟨1⟩, 0⟩, ⟨⟨1⟩, 0, 6, ⟨8⟩⟩), (⟨⟨1⟩, 0⟩, ⟨⟨1⟩, 0, 6, ⟨9⟩⟩)],
    .batchRemoveUtxos [⟨⟨2⟩, 0⟩]]

end Sample

open Sample in
/-- The output ends with the last of its owners, in both backends. -/
theorem utxoFamilies_refine_sample : ∃ view memory view' memory',
    filling.run RocksView.empty = .ok view ∧ filling.run MemoryView.default = .ok memory ∧
    UtxoCall.runAll moving view = .ok view' ∧ UtxoCall.runAll moving memory = .ok memory' ∧
    view'.utxo.read = memory'.utxos.read ∧
    view'.utxo.read ⟨⟨1⟩, 0⟩ = some ⟨⟨1⟩, 0, 6, ⟨9⟩⟩ ∧ view'.utxo.read ⟨⟨2⟩, 0⟩ = none ∧
    ∀ address, ∃ found, view'.getUtxosForAddress address = .ok found ∧
      found.read = (memory'.getUtxosForAddress address).read := by
  have empty : RocksView.empty.Indexed := by
    constructor
    · intro o u present
      cases present
    · intro address o
      simp [RocksView.members, RocksView.Owns, RocksView.empty]
  have legal : filling.Legal RocksView.empty.utxo.read := by
    simp [filling, UtxoCall.Legal, Keyed]
  obtain ⟨view, run, filled, indexed, -⟩ := (utxoFamilies_refine empty).1 _ legal
  obtain ⟨memory, run', stored⟩ : ∃ memory, filling.run MemoryView.default = .ok memory ∧
      memory.utxos.read = filling.effect RocksView.empty.utxo.read :=
    ⟨_, rfl, Table.read_insertAll _ _⟩
  have moves : UtxoCall.LegalRun moving view.utxo.read := by
    rw [filled]
    refine ⟨?_, ⟨List.nodup_singleton _, by decide +kernel⟩, trivial⟩
    simp [UtxoCall.Legal, Keyed]
  obtain ⟨view', memory', done, done', -, same, found⟩ :=
    (utxoFamilies_refine indexed).2 moving memory (stored.trans filled.symm) moves
  have reads : (filling.run MemoryView.default).toOption.any (fun memory =>
      (UtxoCall.runAll moving memory).toOption.any fun memory' =>
        memory'.utxos.read ⟨⟨1⟩, 0⟩ = some ⟨⟨1⟩, 0, 6, ⟨9⟩⟩ ∧
        memory'.utxos.read ⟨⟨2⟩, 0⟩ = none) = true := by decide +kernel
  rw [run', Except.toOption, Option.any_some, done', Except.toOption, Option.any_some,
    decide_eq_true_eq, ← same] at reads
  exact ⟨view, memory, view', memory', run, run', done, done', same, reads.1, reads.2, found⟩

end StryiChain
