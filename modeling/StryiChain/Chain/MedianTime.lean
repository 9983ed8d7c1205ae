import StryiChain.Chain.Run
import StryiChain.Chain.Startup
import StryiChain.Chain.Views
import StryiChain.Misc.Median

/-!
# Median time past along a branch (`difficulty.rs:54-91`, `header.rs:68-91`)

What `median_time_past` returns on the blocks of a branch, and that it never goes back. A
timestamp may be below the one of its parent; only the median of the last eleven is a lower bound
for the next one.
-/

namespace StryiChain

section Branch

variable [Primitives] {S : Type} [BlockStorage S]

/-- A hash-linked branch from genesis, whose headers a storage finds by their hash. -/
structure TimestampBranch (state : S) (w : List Block) : Prop where
  genesis : ∀ {g : Block}, w[0]? = some g →
    g.header.isGenesis = true ∧ verifyGenesisWorkShape g = .ok ()
  normal : ∀ {i : Nat} {b : Block}, w[i + 1]? = some b → b.header.isGenesis = false
  height : ∀ {i : Nat} {b : Block}, w[i]? = some b → b.header.height.toNat = i
  linked : ∀ {i : Nat} {a b : Block}, w[i]? = some a → w[i + 1]? = some b →
    b.header.previousBlockHash = a.blockHash
  stored : ∀ b ∈ w, getBlockHeaderByHash state b.blockHash = .ok (some b.header)

/-- A view of a chain is a branch. -/
theorem Views.timestampBranch [UtxoStorage S] {view : S} {w : List Block} {m : Coins}
    (views : Views view w m) : TimestampBranch view w where
  genesis := by
    intro g at_0
    obtain ⟨first, found, marker, shape⟩ := views.chain.genesis
    rw [found, Option.some.injEq] at at_0
    exact at_0 ▸ ⟨marker, shape⟩
  normal := fun at_next => (views.chain.normal at_next (Nat.succ_pos _)).1
  height := views.chain.height
  linked := views.chain.linked
  stored := views.header

/-- The timestamps of the last `min 11 (h + 1)` blocks up to the height `h`, from the bottom. -/
def lastTimestamps (w : List Block) (h : Nat) : List UInt64 :=
  ((w.take (h + 1)).drop (h + 1 - min 11 (h + 1))).map fun b => b.header.timestamp

namespace TimestampBranch

variable {state : S} {w : List Block} {h i j : Nat} {a b p : Block} {m m' : UInt64}

theorem readRequiredHeader_eq (branch : TimestampBranch state w) (mem : b ∈ w) :
    readRequiredHeader state b.blockHash = .ok b.header := by
  rw [readRequiredHeader, branch.stored b mem]
  rfl

omit [Primitives] in
/-- A slot that is filled adds the newest block. -/
theorem downwards_succ (at_i : w[i]? = some b) (room : Nat) :
    (w.take (i + 1)).reverse.take (room + 1) = b :: (w.take i).reverse.take room := by
  have newest : w.take (i + 1) = w.take i ++ [b] := by
    rw [List.take_add_one, at_i, Option.toList_some]
  rw [newest, List.reverse_append, List.reverse_singleton, List.singleton_append,
    List.take_succ_cons]

/-- The walk collects the timestamps from a block downwards, until the slots or the blocks are
used up. -/
theorem collectTimestamps_eq (branch : TimestampBranch state w) (room : Nat)
    (at_i : w[i]? = some b) :
    collectTimestamps state room b.header =
      .ok (((w.take (i + 1)).reverse.take room).map fun b => b.header.timestamp) := by
  induction room generalizing i b with
  | zero => rw [collectTimestamps, List.take_zero, List.map_nil]
  | succ room ih =>
    rw [collectTimestamps, downwards_succ at_i, List.map_cons]
    cases i with
    | zero =>
      obtain ⟨marker, shape⟩ := branch.genesis at_i
      rw [verifyGenesisWorkShape] at shape
      rw [shape, bind_ok, failIf_of_not _ (by simp [marker]), bind_ok, if_pos (.inl marker),
        List.take_zero, List.reverse_nil, List.take_nil, List.map_nil]
      rfl
    | succ i =>
      have unmarked := branch.normal at_i
      have level := branch.height at_i
      have above : b.header.height ≠ 0 := by
        intro zero
        rw [zero, UInt64.toNat_zero] at level
        omega
      rw [verifyGenesisHeaderWorkShape_of_normal unmarked, bind_ok,
        failIf_of_not _ (fun bottom => above bottom.2), bind_ok]
      cases room with
      | zero =>
        rw [if_pos (.inr rfl), List.take_zero, List.map_nil]
        rfl
      | succ room =>
        have inside := (List.getElem?_eq_some_iff.mp at_i).1
        have below : w[i]? = some w[i] := List.getElem?_eq_getElem (by omega)
        have next : checkedAdd w[i].header.height 1 = some b.header.height := by
          rw [checkedAdd_eq_some, level, branch.height below, UInt64.toNat_one]
        rw [if_neg (by simp [unmarked]), branch.linked below at_i,
          branch.readRequiredHeader_eq (List.mem_of_getElem? below), bind_ok,
          failIf_of_not _ (not_not.mpr next), bind_ok, ih below, bind_ok]
        rfl

omit [Primitives] in
theorem lastTimestamps_perm (at_h : w[h]? = some p) :
    (((w.take (h + 1)).reverse.take 11).map fun b => b.header.timestamp).Perm
      (lastTimestamps w h) := by
  have inside := (List.getElem?_eq_some_iff.mp at_h).1
  have length : (w.take (h + 1)).length = h + 1 := by
    rw [List.length_take]
    omega
  have oldest : h + 1 - 11 = h + 1 - min 11 (h + 1) := by omega
  rw [List.take_reverse, length, oldest, List.map_reverse, lastTimestamps]
  exact List.reverse_perm _

omit [Primitives] in
theorem length_lastTimestamps (at_h : w[h]? = some p) :
    (lastTimestamps w h).length = min 11 (h + 1) := by
  have inside := (List.getElem?_eq_some_iff.mp at_h).1
  rw [lastTimestamps, List.length_map, List.length_drop, List.length_take]
  omega

/-- `median_time_past` succeeds on every block of the branch, with the upper median of the last
timestamps. -/
theorem medianTimePast_spec (branch : TimestampBranch state w) (at_h : w[h]? = some p) :
    ∃ m, medianTimePast state p.blockHash = .ok m ∧
      IsUpperMedian UInt64.toNat (lastTimestamps w h) m := by
  have perm := lastTimestamps_perm at_h
  have length := perm.length_eq.trans (length_lastTimestamps at_h)
  set timestamps := ((w.take (h + 1)).reverse.take 11).map fun b => b.header.timestamp
  have inside : timestamps.length / 2 < (timestamps.insertionSort (· ≤ ·)).length := by
    rw [List.length_insertionSort]
    omega
  have at_half := List.getElem?_eq_getElem inside
  refine ⟨(timestamps.insertionSort (· ≤ ·))[timestamps.length / 2], ?_, ?_⟩
  · rw [medianTimePast, branch.readRequiredHeader_eq (List.mem_of_getElem? at_h), bind_ok,
      branch.collectTimestamps_eq 11 at_h, bind_ok, List.getD_eq_getElem?_getD, at_half]
    rfl
  · have ordered : (timestamps.insertionSort (· ≤ ·)).Pairwise (· ≤ ·) :=
      List.pairwise_insertionSort _ _
    refine IsUpperMedian.perm ⟨_, List.perm_insertionSort _ _, ordered.imp ?_, at_half⟩ perm
    intro x y le
    exact UInt64.le_iff_toNat_le.mp le

/-- One block above its parent. The window of the child has the new timestamp and, of the window of
the parent, all of it or all but the oldest. -/
theorem medianTimePast_step (branch : TimestampBranch state w) (at_h : w[h]? = some a)
    (at_next : w[h + 1]? = some b) (below : medianTimePast state a.blockHash = .ok m)
    (above : medianTimePast state b.blockHash = .ok m') (later : m < b.header.timestamp) :
    m ≤ m' := by
  obtain ⟨_, found, median⟩ := branch.medianTimePast_spec at_h
  obtain ⟨_, found', median'⟩ := branch.medianTimePast_spec at_next
  rw [below, Except.ok.injEq] at found
  rw [above, Except.ok.injEq] at found'
  subst found found'
  have window := median.perm (lastTimestamps_perm at_h).symm
  have window' := median'.perm (lastTimestamps_perm at_next).symm
  rw [downwards_succ at_next, List.map_cons] at window'
  rw [UInt64.le_iff_toNat_le]
  refine window.mono window' ((List.take_sublist_take_left (by omega)).map _) ?_ ?_
  · simp only [List.length_map, List.length_cons, List.length_take, List.length_reverse]
    omega
  · exact (UInt64.lt_iff_toNat_lt.mp later).le

/-- Every block above genesis is later than the median time past of its parent. -/
def Later (state : S) (w : List Block) : Prop :=
  ∀ (i : Nat) (a b : Block), w[i]? = some a → w[i + 1]? = some b →
    ∀ m, medianTimePast state a.blockHash = .ok m → m < b.header.timestamp

/-- The run lemma, by induction on how far the blocks are apart. -/
theorem medianTimePast_mono (branch : TimestampBranch state w) (later : Later state w)
    (order : i ≤ j) (at_i : w[i]? = some a) (at_j : w[j]? = some b)
    (below : medianTimePast state a.blockHash = .ok m)
    (above : medianTimePast state b.blockHash = .ok m') : m ≤ m' := by
  induction j, order using Nat.le_induction generalizing b m' with
  | base =>
    rw [at_i, Option.some.injEq] at at_j
    rw [at_j, above, Except.ok.injEq] at below
    exact UInt64.le_of_eq below.symm
  | succ j order ih =>
    have inside := (List.getElem?_eq_some_iff.mp at_j).1
    have at_parent : w[j]? = some w[j] := List.getElem?_eq_getElem (by omega)
    obtain ⟨middle, found, -⟩ := branch.medianTimePast_spec at_parent
    have step := branch.medianTimePast_step at_parent at_j found above
      (later j _ b at_parent at_j middle found)
    exact UInt64.le_trans (ih at_parent found) step

end TimestampBranch

omit [Primitives] in
/-- What the check of a timestamp leaves. -/
theorem verifyTimestamp_later {state : S} {block : Block} {nowSecs : UInt64}
    (valid : verifyTimestamp block state nowSecs = .ok ()) :
    ∃ m, medianTimePast state block.header.previousBlockHash = .ok m ∧
      m < block.header.timestamp := by
  rw [verifyTimestamp, bind_eq_ok] at valid
  obtain ⟨m, median, valid⟩ := valid
  rw [bind_eq_ok] at valid
  obtain ⟨_, past, -⟩ := valid
  rw [failIf_eq_ok] at past
  exact ⟨m, median, UInt64.not_le.mp past⟩

/-- On every hash-linked branch from genesis, `median_time_past` of a block is the element at
`n / 2` of the sorted timestamps of the last `n = min 11 (h + 1)` blocks. When every block above
genesis is later than the median time past of its parent, as `verify_timestamp` demands, it never
decreases along the branch. -/
theorem median_time_past {state : S} {w : List Block} (branch : TimestampBranch state w) :
    (∀ (h : Nat) (p : Block), w[h]? = some p → ∃ m, medianTimePast state p.blockHash = .ok m ∧
      ∀ sorted : List UInt64, sorted.Perm (lastTimestamps w h) → sorted.Pairwise (· ≤ ·) →
        sorted[min 11 (h + 1) / 2]? = some m) ∧
    (∀ (b : Block) (nowSecs : UInt64), verifyTimestamp b state nowSecs = .ok () →
      ∃ m, medianTimePast state b.header.previousBlockHash = .ok m ∧ m < b.header.timestamp) ∧
    (TimestampBranch.Later state w → ∀ (i j : Nat) (a b : Block), i ≤ j → w[i]? = some a →
      w[j]? = some b → ∃ m m', medianTimePast state a.blockHash = .ok m ∧
        medianTimePast state b.blockHash = .ok m' ∧ m ≤ m') := by
  refine ⟨?_, fun _ _ => verifyTimestamp_later, ?_⟩
  · intro h p at_h
    obtain ⟨m, found, median⟩ := branch.medianTimePast_spec at_h
    refine ⟨m, found, fun sorted perm ordered => ?_⟩
    have length := TimestampBranch.length_lastTimestamps at_h
    have inside : min 11 (h + 1) / 2 < sorted.length := by
      rw [perm.length_eq, length]
      omega
    have at_half := List.getElem?_eq_getElem inside
    have other : IsUpperMedian UInt64.toNat (lastTimestamps w h)
        sorted[min 11 (h + 1) / 2] := by
      refine ⟨sorted, perm, ordered.imp fun le => UInt64.le_iff_toNat_le.mp le, ?_⟩
      rw [length, at_half]
    rw [at_half, UInt64.toNat_inj.mp (median.unique other)]
  · intro later i j a b order at_i at_j
    obtain ⟨m, below, -⟩ := branch.medianTimePast_spec at_i
    obtain ⟨m', above, -⟩ := branch.medianTimePast_spec at_j
    exact ⟨m, m', below, above, branch.medianTimePast_mono later order at_i at_j below above⟩

end Branch

namespace Sample

/-- Blocks above genesis, ten seconds apart. -/
def tower : Nat → List Block
  | 0 => []
  | n + 1 => tower n ++ [above ((tower n).getLastD genesis) 0 []]

end Sample

open Sample in
/-- At the height 13 the window has left the three lowest blocks. -/
theorem median_time_past_sample : ∃ engine a b m, start = .ok engine ∧
    (genesis :: tower 13)[5]? = some a ∧ (genesis :: tower 13)[13]? = some b ∧
    medianTimePast (deliverAll engine ((tower 13).map call)).db a.blockHash = .ok m ∧
    medianTimePast (deliverAll engine ((tower 13).map call)).db b.blockHash = .ok 80 ∧ m ≤ 80 := by
  have reads : start.toOption.any (fun engine =>
      let state := (deliverAll engine ((tower 13).map call)).db
      canonicalBlocks state = genesis :: tower 13 ∧
      ∀ i : Fin 13, (genesis :: tower 13)[i.1]?.all fun a => (genesis :: tower 13)[i.1 + 1]?.all
        fun b => (medianTimePast state a.blockHash).toOption.all fun m =>
          m < b.header.timestamp) = true := by
    decide +kernel
  obtain ⟨engine, started, reads⟩ := exists_ok_of_any reads
  obtain ⟨chain, increases⟩ := of_decide_eq_true reads
  obtain ⟨w, inv⟩ := (Invariant.launched started).1.run ((tower 13).map call)
  have canonical := inv.canonical
  rw [← canonicalBlocks_eq canonical, chain] at canonical
  have branch := (views_storage canonical.sound canonical.chain
    canonical.represents.holds).timestampBranch
  have later : TimestampBranch.Later (deliverAll engine ((tower 13).map call)).db
      (genesis :: tower 13) := by
    intro i a b at_i at_next m found
    have inside := (List.getElem?_eq_some_iff.mp at_next).1
    have length : (genesis :: tower 13).length = 14 := by decide +kernel
    have here := increases ⟨i, by omega⟩
    rw [at_i, Option.all_some, at_next, Option.all_some, found] at here
    exact of_decide_eq_true here
  obtain ⟨medians, -, monotone⟩ := median_time_past branch
  obtain ⟨a, at_a⟩ : ∃ a, (genesis :: tower 13)[5]? = some a :=
    Option.isSome_iff_exists.mp (by decide +kernel)
  obtain ⟨b, at_b⟩ : ∃ b, (genesis :: tower 13)[13]? = some b :=
    Option.isSome_iff_exists.mp (by decide +kernel)
  obtain ⟨m', found', middle⟩ := medians 13 b at_b
  have window : lastTimestamps (genesis :: tower 13) 13 =
      [30, 40, 50, 60, 70, 80, 90, 100, 110, 120, 130] := by decide +kernel
  have eighty := middle _ (.refl _) (by rw [window]; decide)
  rw [window] at eighty
  obtain rfl : 80 = m' := Option.some.inj eighty
  obtain ⟨m, above', found, below, order⟩ := monotone later 5 13 a b (by decide) at_a at_b
  obtain rfl : 80 = above' := Except.ok.inj (found'.symm.trans below)
  exact ⟨engine, a, b, m, started, at_a, at_b, found, found', order⟩

end StryiChain
