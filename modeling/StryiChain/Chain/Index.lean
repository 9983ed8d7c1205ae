import StryiChain.Chain.Reorg
import StryiChain.Consensus.Engine

/-!
# The chain index of a chain

The live index is changed one block at a time, and rebuilt from storage on a restart. Both ways
lead to the index of the canonical chain.
-/

namespace StryiChain

variable [Primitives]

/-- The entry of the block at a position of a chain. -/
def entryAt (w : List Block) (i : Nat) (b : Block) : ChainIndexEntry :=
  ⟨b.header.previousBlockHash, b.header.height, chainWork (w.take (i + 1))⟩

/-- The tip of a chain. -/
def tipOf (w : List Block) : Option TipInfo :=
  w.getLast?.map fun b => ⟨b.header.height, b.blockHash, chainWork w⟩

/-- The index holds the blocks of the chain and nothing else. -/
structure IndexOf (w : List Block) (index : ChainIndex) : Prop where
  entry : ∀ {i : Nat} {b : Block}, w[i]? = some b →
    index.entries.read b.blockHash = some (entryAt w i b)
  only : ∀ {hash : BlockHash}, index.entries.read hash ≠ none → hash ∈ w.map Block.blockHash
  tip : index.tip = tipOf w

section Heaviest

open ChainIndex

omit [Primitives]

theorem heaviest_concat (l : List (BlockHash × ChainIndexEntry)) (e : BlockHash × ChainIndexEntry) :
    heaviest (l ++ [e]) = match heaviest l with
      | none => some e
      | some best => if best.2.work ≤ e.2.work then some e else some best := by
  rw [heaviest, List.foldl_append]
  rfl

/-- `max_by_key` returns an element that none outweighs. -/
theorem heaviest_spec {l : List (BlockHash × ChainIndexEntry)} (ne : l ≠ []) :
    ∃ best ∈ l, heaviest l = some best ∧ ∀ e ∈ l, e.2.work ≤ best.2.work := by
  induction l using List.reverseRecOn with
  | nil => exact absurd rfl ne
  | append_singleton l e ih =>
    rw [heaviest_concat]
    rcases List.eq_nil_or_concat l with rfl | ⟨_, _, rfl⟩
    · exact ⟨e, by simp, rfl, by simp⟩
    · obtain ⟨best, mem, found, max⟩ := ih (by simp)
      rw [found]
      by_cases heavier : best.2.work ≤ e.2.work
      · refine ⟨e, by simp, if_pos heavier, fun e' he' => ?_⟩
        rcases List.mem_append.mp he' with old | new
        · exact Nat.le_trans (max e' old) heavier
        · rw [List.mem_singleton.mp new]
      · refine ⟨best, List.mem_append_left _ mem, if_neg heavier, fun e' he' => ?_⟩
        rcases List.mem_append.mp he' with old | new
        · exact max e' old
        · rw [List.mem_singleton.mp new]
          omega

/-- An element that outweighs all others is the heaviest, whatever the order. -/
theorem heaviest_eq {l : List (BlockHash × ChainIndexEntry)} {e : BlockHash × ChainIndexEntry}
    (mem : e ∈ l) (max : ∀ e' ∈ l, e' ≠ e → e'.2.work < e.2.work) : heaviest l = some e := by
  obtain ⟨best, inside, found, above⟩ := heaviest_spec (List.ne_nil_of_mem mem)
  rw [found, Option.some.injEq]
  by_contra differs
  have lighter := max best inside differs
  have heavier := above e mem
  omega

end Heaviest

section Work

variable {w : List Block}

/-- Work grows strictly along a chain. -/
theorem IsChain.work_lt (chain : IsChain w) {i j : Nat} (lt : i < j) (inside : j < w.length) :
    chainWork (w.take (i + 1)) < chainWork (w.take (j + 1)) := by
  have at_j : w[j]? = some w[j] := List.getElem?_eq_getElem inside
  have positive := Block.work_pos (chain.normal at_j (by omega)).1
  have step : chainWork (w.take (j + 1)) = chainWork (w.take j) + w[j].work := by
    rw [List.take_add_one, at_j, chainWork_append]
    simp
  have lower : chainWork (w.take (i + 1)) ≤ chainWork (w.take j) := by
    have shorter : (w.take j).take (i + 1) = w.take (i + 1) := by
      rw [List.take_take]
      congr 1
      omega
    rw [← shorter]
    exact chainWork_take_le _ _
  omega

end Work

namespace IndexOf

variable {w p q bs : List Block} {index : ChainIndex} {a b : Block}

theorem new : IndexOf [] ChainIndex.new :=
  ⟨fun at_i => by simp at at_i, fun found => absurd (Table.read_empty _) found, rfl⟩

theorem has_iff (indexOf : IndexOf w index) {hash : BlockHash} :
    index.has hash = true ↔ hash ∈ w.map Block.blockHash := by
  rw [ChainIndex.has, Option.isSome_iff_ne_none]
  refine ⟨indexOf.only, fun mem => ?_⟩
  obtain ⟨b, hb, rfl⟩ := List.mem_map.mp mem
  obtain ⟨i, at_i⟩ := List.mem_iff_getElem?.mp hb
  rw [indexOf.entry at_i]
  simp

/-- Two indexes of one chain are read in the same way. -/
theorem unique {index' : ChainIndex} (indexOf : IndexOf w index) (indexOf' : IndexOf w index') :
    index.entries.read = index'.entries.read ∧ index.tip = index'.tip := by
  refine ⟨funext fun hash => ?_, indexOf.tip.trans indexOf'.tip.symm⟩
  by_cases mem : hash ∈ w.map Block.blockHash
  · obtain ⟨b, hb, rfl⟩ := List.mem_map.mp mem
    obtain ⟨i, at_i⟩ := List.mem_iff_getElem?.mp hb
    rw [indexOf.entry at_i, indexOf'.entry at_i]
  · have absent : ∀ {x : ChainIndex}, IndexOf w x → x.entries.read hash = none := by
      intro x h
      by_contra found
      exact mem (h.only found)
    rw [absent indexOf, absent indexOf']

/-- A block with a new hash is inserted, which replaces the tip because it carries work. -/
theorem insert_fresh (indexOf : IndexOf w index) (fresh : ∀ a ∈ w, a.blockHash ≠ b.blockHash)
    (grows : w ≠ [] → 0 < b.work) :
    IndexOf (w ++ [b]) (index.insert b (chainWork (w ++ [b]))) := by
  refine ⟨fun {i a} at_i => ?_, fun {hash} found => ?_, ?_⟩
  · simp only [ChainIndex.insert, Table.read_insert]
    rcases getElem?_concat_cases at_i with ⟨inside, old⟩ | ⟨rfl, rfl⟩
    · have other : a.blockHash ≠ b.blockHash := fresh a (List.mem_of_getElem? old)
      rw [Function.update_of_ne other, indexOf.entry old, entryAt, entryAt,
        List.take_append_of_le_length (by omega)]
    · rw [Function.update_self, entryAt, List.take_of_length_le (by simp)]
  · simp only [ChainIndex.insert, Table.read_insert] at found
    by_cases same : hash = b.blockHash
    · simp [same]
    · rw [Function.update_of_ne same] at found
      rw [List.map_append, List.mem_append]
      exact .inl (indexOf.only found)
  · simp only [ChainIndex.insert, indexOf.tip, tipOf]
    rcases List.eq_nil_or_concat w with rfl | ⟨front, top, rfl⟩
    · rfl
    · have positive := grows (by simp)
      simp
      omega

/-- A block is inserted above the tip. -/
theorem insert (indexOf : IndexOf w index) (chain : IsChain (w ++ [b])) :
    IndexOf (w ++ [b]) (index.insert b (chainWork (w ++ [b]))) := by
  refine indexOf.insert_fresh (fun a mem => chain.hash_ne mem) fun ne => ?_
  exact Block.work_pos (chain.normal (by simp) (List.length_pos_iff.mpr ne)).1

/-- The top block is removed, and the tip is searched among what is left. -/
theorem remove (indexOf : IndexOf (w ++ [b]) index) (chain : IsChain (w ++ [b])) (ne : w ≠ []) :
    IndexOf w (index.remove b.blockHash) := by
  have at_b : (w ++ [b])[w.length]? = some b := by simp
  have present : (index.entries.read b.blockHash).isNone = false := by
    rw [indexOf.entry at_b]
    rfl
  have isTip : (index.tip.any fun tip => tip.hash = b.blockHash) = true := by
    simp [indexOf.tip, tipOf]
  have shape : index.remove b.blockHash = ChainIndex.recomputeTip
      { index with entries := AList.erase b.blockHash index.entries } := by
    simp only [ChainIndex.remove, present, Bool.false_eq_true, if_false, isTip, if_true]
  have entry : ∀ {i : Nat} {a : Block}, w[i]? = some a →
      Table.read (AList.erase b.blockHash index.entries) a.blockHash = some (entryAt w i a) := by
    intro i a at_i
    have inside := (List.getElem?_eq_some_iff.mp at_i).1
    have other : a.blockHash ≠ b.blockHash := chain.hash_ne (List.mem_of_getElem? at_i)
    rw [Table.read_erase, Function.update_of_ne other,
      indexOf.entry (i := i) (by rw [List.getElem?_append_left inside, at_i]), entryAt, entryAt,
      List.take_append_of_le_length (by omega)]
  have only : ∀ {hash : BlockHash}, Table.read (AList.erase b.blockHash index.entries) hash ≠ none →
      hash ∈ w.map Block.blockHash := by
    intro hash found
    rw [Table.read_erase] at found
    by_cases same : hash = b.blockHash
    · subst same
      simp at found
    · rw [Function.update_of_ne same] at found
      have mem := indexOf.only found
      rw [List.map_append, List.mem_append] at mem
      exact mem.resolve_right (by simpa using same)
  rw [shape]
  refine ⟨entry, only, ?_⟩
  obtain ⟨top, last⟩ : ∃ top, w.getLast? = some top := by
    rw [← Option.isSome_iff_exists, List.getLast?_isSome]
    exact ne
  have pos := List.length_pos_iff.mpr ne
  have at_top : w[w.length - 1]? = some top := by rw [← List.getLast?_eq_getElem?, last]
  have below := chain.left ne
  have heaviest : ChainIndex.heaviest
      (iter (Table.toPairs (AList.erase b.blockHash index.entries))) =
      some (top.blockHash, entryAt w (w.length - 1) top) := by
    refine heaviest_eq ?_ fun e mem differs => ?_
    · rw [mem_iter, Table.mem_toPairs, entry at_top]
    · obtain ⟨hash, data⟩ := e
      rw [mem_iter, Table.mem_toPairs] at mem
      obtain ⟨a, ha, rfl⟩ := List.mem_map.mp (only (by rw [mem]; simp))
      obtain ⟨i, at_i⟩ := List.mem_iff_getElem?.mp ha
      have inside := (List.getElem?_eq_some_iff.mp at_i).1
      rw [entry at_i, Option.some.injEq] at mem
      subst mem
      have strict : i < w.length - 1 := by
        rcases Nat.lt_or_ge i (w.length - 1) with lt | ge
        · exact lt
        · obtain rfl : i = w.length - 1 := by omega
          rw [at_top, Option.some.injEq] at at_i
          subst at_i
          exact absurd rfl differs
      exact below.work_lt strict (by omega)
  simp only [ChainIndex.recomputeTip, heaviest, Option.map_some, tipOf, last, entryAt]
  rw [show w.length - 1 + 1 = w.length by omega, List.take_length]

theorem work_eq (indexOf : IndexOf (p ++ q) index) (last : p.getLast? = some a) :
    index.work a.blockHash = some (chainWork p) := by
  have pos := length_pos_of_last last
  rw [ChainIndex.work, indexOf.entry (getElem?_append_last last), entryAt, show p.length - 1 + 1 = p.length by omega,
    List.take_left]
  rfl

/-- The detached blocks leave the index, the top one first. -/
theorem removeAll (indexOf : IndexOf (p ++ q) index) (chain : IsChain (p ++ q)) (ne : p ≠ []) :
    IndexOf p ((q.map Block.point).reverse.foldl (fun index (_, hash) => index.remove hash)
      index) := by
  induction q using List.reverseRecOn generalizing index with
  | nil => simpa using indexOf
  | append_singleton q b ih =>
    rw [← List.append_assoc] at indexOf chain
    rw [List.map_append, List.reverse_append, List.map_singleton, List.reverse_singleton,
      List.singleton_append, List.foldl_cons]
    have ne' : p ++ q ≠ [] := by simp [ne]
    exact ih (indexOf.remove chain ne') (chain.left ne')

/-- A branch enters the index with its cumulative works. -/
theorem insertAll (indexOf : IndexOf p index) (chain : IsChain (p ++ bs)) {works : List Nat}
    (run : branchWork (chainWork p) bs = .ok works) :
    IndexOf (p ++ bs) ((bs.zip works).foldl (fun index (block, work) => index.insert block work)
      index) := by
  induction bs generalizing p index works with
  | nil => simpa using indexOf
  | cons b bs ih =>
    simp only [branchWork, bind_eq_ok, verifiedBlockWork_eq_ok, addWork_eq_ok, pure_eq_ok] at run
    obtain ⟨work, ⟨-, rfl⟩, total, ⟨-, rfl⟩, later, rest, rfl⟩ := run
    have total : chainWork p + b.work = chainWork (p ++ [b]) := by simp
    rw [total] at rest ⊢
    rw [List.append_cons] at chain ⊢
    rw [List.zip_cons_cons, List.foldl_cons]
    exact ih (indexOf.insert (chain.left (by simp))) chain rest

/-- The index after a reorganization. -/
theorem reindex (indexOf : IndexOf (p ++ q) index) (chain : IsChain (p ++ q))
    (branch : IsChain (p ++ bs)) (ne : p ≠ []) {works : List Nat}
    (run : branchWork (chainWork p) bs = .ok works) :
    IndexOf (p ++ bs) (StryiChain.reindex index (q.map Block.point).reverse (bs.zip works)) :=
  (indexOf.removeAll chain ne).insertAll branch run

end IndexOf

/-- The works of a branch that fits the heights do not overflow. -/
theorem branchWork_ok {p bs : List Block} (chain : IsChain (p ++ bs)) (ne : p ≠ [])
    (fits : (p ++ bs).length ≤ 2 ^ 64) : ∃ works, branchWork (chainWork p) bs = .ok works := by
  induction bs generalizing p with
  | nil => exact ⟨[], rfl⟩
  | cons b bs ih =>
    have links := chain.linksAt ne
    have room : p.length ≤ 2 ^ 64 := by
      rw [List.length_append] at fits
      omega
    rw [List.append_cons] at chain fits
    obtain ⟨works, rest⟩ := ih chain (by simp) fits
    have total : addWork (chainWork p) b.work = .ok (chainWork (p ++ [b])) :=
      addWork_eq_ok.mpr ⟨chainWork_add_lt room b, by simp⟩
    have work : verifiedBlockWork b = .ok b.work :=
      verifiedBlockWork_eq_ok.mpr ⟨verifyGenesisWorkShape_of_normal links.normal.1, rfl⟩
    exact ⟨_, by rw [branchWork, work, bind_ok, total, bind_ok, rest]; rfl⟩

section Rebuild

open LawfulStorage

variable {S : Type} [FullNodeStorage S] [LawfulStorage S] {s : S} {w : List Block} {b : Block}

/-- Every block of the chain is found where the walk looks for it. -/
theorem readCanonical_ok (sound : Sound s) (chain : IsChain w) (holds : Holds (tables s) w)
    {i : Nat} (fits : i < 2 ^ 64) (at_i : w[i]? = some b) :
    readCanonical s (UInt64.ofNat i) b.blockHash = .ok b := by
  have height : b.header.height = UInt64.ofNat i := by
    rw [← UInt64.toNat_inj, toNat_ofNat_u64 (by omega),
      chain.height at_i]
  have body := holds.body b (List.mem_of_getElem? at_i)
  have canonical := holds.get_height chain at_i
  rw [height] at canonical
  have shape := (wellFormed sound).shape body
  simp only [readCanonical, getBlockByHash_eq _ sound, body, mapError_ok, bind_ok, okOr_some,
    getBlockHashByHeight_eq _ sound, canonical, height, ne_eq, not_true_eq_false, or_self,
    failIf_of_not _ not_false, shape]
  by_cases zero : i = 0
  · subst zero
    obtain ⟨g, first, marker, -⟩ := chain.genesis
    rw [at_i, Option.some.injEq] at first
    subst first
    simp [marker]
  · have pos : 0 < UInt64.ofNat i := by
      rw [UInt64.lt_iff_toNat_lt, toNat_ofNat_u64 (by omega)]
      simp
      omega
    have undo := holds.undo at_i (by omega)
    simp [pos, getBlockUndo_eq _ sound, undo]

/-- The walk collects the chain up to its starting block. -/
theorem collectFrom_ok (sound : Sound s) (chain : IsChain w) (holds : Holds (tables s) w)
    (fits : w.length ≤ 2 ^ 64) {i : Nat} (at_i : w[i]? = some b) :
    collectFrom s i b.blockHash = .ok (w.take (i + 1)) := by
  induction i generalizing b with
  | zero =>
    have read := readCanonical_ok sound chain holds (by omega) at_i
    rw [collectFrom, show (0 : UInt64) = UInt64.ofNat 0 from rfl, read, List.take_add_one, at_i]
    rfl
  | succ i ih =>
    have inside := (List.getElem?_eq_some_iff.mp at_i).1
    have at_below : w[i]? = some w[i] := List.getElem?_eq_getElem (by omega)
    have linked := chain.linked at_below at_i
    rw [collectFrom, readCanonical_ok sound chain holds (by omega) at_i, bind_ok, linked,
      ih at_below, bind_ok, List.take_add_one (i := i + 1), at_i]
    rfl

/-- Indexing the whole chain, block by block. -/
theorem indexBlocks_ok (sound : Sound s) (chain : IsChain w) (holds : Holds (tables s) w)
    (fits : w.length ≤ 2 ^ 64) {n : Nat} (bound : n ≤ w.length) :
    ∃ index, (w.take n).foldlM (indexBlock s) (ChainIndex.new, 0) =
      .ok (index, chainWork (w.take n)) ∧ IndexOf (w.take n) index := by
  induction n with
  | zero => exact ⟨ChainIndex.new, rfl, IndexOf.new⟩
  | succ n ih =>
    obtain ⟨index, below, indexOf⟩ := ih (by omega)
    have at_n : w[n]? = some w[n] := List.getElem?_eq_getElem (by omega)
    have split : w.take (n + 1) = w.take n ++ [w[n]] := by
      rw [List.take_add_one, at_n]
      rfl
    have part := chain.take (n := n + 1) (by omega)
    have saved := holds.index at_n
    have body := holds.body _ (List.mem_of_getElem? at_n)
    rw [split] at part saved ⊢
    have room : (w.take n).length ≤ 2 ^ 64 := by
      rw [List.length_take]
      omega
    have work : verifiedBlockWork w[n] = .ok w[n].work :=
      verifiedBlockWork_eq_ok.mpr ⟨(wellFormed sound).shape body, rfl⟩
    have total : addWork (chainWork (w.take n)) w[n].work =
        .ok (chainWork (w.take n ++ [w[n]])) := by
      refine addWork_eq_ok.mpr ⟨chainWork_add_lt room _, ?_⟩
      rw [chainWork_append, chainWork_cons, chainWork_nil, Nat.add_zero]
    refine ⟨index.insert w[n] (chainWork (w.take n ++ [w[n]])), ?_, indexOf.insert part⟩
    rw [List.foldlM_append, below, bind_ok]
    generalize w.take n ++ [w[n]] = upTo at total saved
    simp [indexBlock, work, total, getBlockIndex_eq _ sound, saved, BlockIndexData.of]

/-- A restart finds the index of the canonical chain. -/
theorem buildChainIndex_ok (sound : Sound s) (chain : IsChain w)
    (represents : Represents (tables s) w) :
    ∃ index, buildChainIndex s = .ok index ∧ IndexOf w index := by
  obtain ⟨st, hst⟩ := exists_stateOf chain
  obtain ⟨tip, last, latest, count, work⟩ := stateOf_eq_some hst
  have fits := represents.fits
  have top := chain.tip_height last
  have at_tip : w[tip.header.height.toNat]? = some tip := by
    rw [show tip.header.height.toNat = w.length - 1 by omega, ← List.getLast?_eq_getElem?, last]
  have walk := collectFrom_ok sound chain represents.holds (by omega) at_tip
  rw [top, List.take_length] at walk
  obtain ⟨index, built, indexOf⟩ :=
    indexBlocks_ok sound chain represents.holds (by omega) (Nat.le_refl w.length)
  rw [List.take_length] at built indexOf
  have room : checkedAdd tip.header.height 1 = some (UInt64.ofNat w.length) := by
    rw [checkedAdd_eq_some, toNat_ofNat_u64 (by omega),
      UInt64.toNat_one, top]
  refine ⟨index, ?_, indexOf⟩
  simp [buildChainIndex, chainState_eq sound, represents.state, hst, collectCanonicalAncestry,
    latest, walk, rebuildChainIndex, built, work, count, room]

end Rebuild

end StryiChain
