import StryiChain.Mempool.Parents

/-!
# The order of a block template

A package is collected depth first, and a transaction that two of its members spend from is
listed before the second of them is reached. Where no package has such a transaction, and the
tracker knows every spend, the selection puts each transaction behind those that it spends from.
-/

namespace StryiChain

open Relation

section Template

namespace DependencyTracker

variable [Primitives] {tracker : DependencyTracker} {h p c : TransactionHash}

/-- The package of a transaction has every parent of its transactions. -/
theorem Consistent.getWithAncestors_closed (consistent : tracker.Consistent)
    (mem : c ∈ tracker.getWithAncestors h) (arrow : tracker.graph.Arrow p c) :
    p ∈ tracker.getWithAncestors h := by
  rw [consistent.mem_getWithAncestors] at mem ⊢
  exact ⟨mem.1, mem.2.head arrow⟩

/-- A package that is a tree lists no transaction before one of its parents. -/
theorem Consistent.getWithAncestors_ordered (consistent : tracker.Consistent)
    (tree : TreeAbove tracker.graph.Arrow h) (acyclic : ¬ TransGen tracker.graph.Arrow h h) :
    (tracker.getWithAncestors h).Pairwise fun a b => ¬ tracker.graph.Arrow b a := by
  unfold getWithAncestors
  cases found : tracker.indices.read h with
  | none => exact List.Pairwise.nil
  | some start =>
    have wf := consistent.wellFormed
    have weight := (consistent.indices h start).mp found
    have bound := DiGraph.mem_range_of_nodeWeight weight
    have leads : (fun i j => i ∈ tracker.edgesDirected .incoming j) =
        fun i j => (i, j) ∈ tracker.graph.edges := by
      funext i j
      exact propext mem_incoming
    have below : TreeAbove (fun i j => i ∈ tracker.edgesDirected .incoming j) start := by
      rw [leads]
      intro i j j' edge edge' path path'
      obtain ⟨c, target, reaches⟩ := wf.exists_path weight path
      obtain ⟨c', target', reaches'⟩ := wf.exists_path weight path'
      have source : tracker.graph.nodeWeight i = some _ :=
        List.getElem?_eq_getElem (wf.bound _ edge).1
      have same := tree _ c c' ⟨i, j, edge, source, target⟩ ⟨i, j', edge', source, target'⟩ reaches
        reaches'
      subst same
      exact wf.index_eq target target'
    have top : ∀ j, ReflTransGen (fun i j => i ∈ tracker.edgesDirected .incoming j) j start →
        start ∉ tracker.edgesDirected .incoming j := by
      rw [leads]
      intro j path edge
      obtain ⟨c, target, reaches⟩ := wf.exists_path weight path
      exact acyclic (TransGen.head' ⟨start, j, mem_incoming.mp edge, weight, target⟩ reaches)
    refine (gather_ordered (edgesDirected_closed wf .incoming) bound below top _).filterMap _ ?_
    rintro i j later a source b target ⟨j', i', edge, target', source'⟩
    rw [← wf.index_eq source source', ← wf.index_eq target target'] at edge
    exact later (mem_incoming.mpr edge)

end DependencyTracker

namespace MemPool

variable [Primitives] [Floats] {pool : MemPool} {tx : Transaction} {h p c : TransactionHash}

/-- No two transactions of a package spend from the same one, for any package of the pool. -/
def Treelike (pool : MemPool) : Prop := ∀ h, TreeAbove pool.Feeds h

/-- The spends among a new transaction and the pool transactions that it does not replace. -/
def Leads (pool : MemPool) (tx : Transaction) (p c : TransactionHash) : Prop :=
  ¬ pool.Replaces tx p ∧ ((pool.Feeds p c ∧ ¬ pool.Replaces tx c) ∨
    c = tx.data.hash ∧ ∃ parent, pool.find p = some parent ∧
      ∃ o ∈ tx.spentOutpoints, o ∈ parent.outpoints)

/-- An admitted transaction enters as a leaf, and no two of the transaction and its ancestors
spend from the same one. -/
def EntersAsTree (pool : MemPool) (call : Call) : Prop :=
  ∀ lookup now tx, call = .addTransaction lookup now tx →
    (pool.addTransaction lookup now tx).1 = .ok () →
      pool.EntersAsLeaf tx ∧ TreeAbove (pool.Leads tx) tx.data.hash

section Select

/-- What the selection keeps under any ranking: pool transactions, each once, within the limit. -/
structure Within (pool : MemPool) (limit : Nat) (selection : Selection) : Prop where
  chosen : pool.Chosen selection
  size : selection.selected.length ≤ limit

/-- What it keeps besides where the packages are trees: the chosen transactions have their
parents, and none was chosen before a parent. -/
structure Sorted (pool : MemPool) (selection : Selection) : Prop where
  whole : ∀ c ∈ selection.selected, ∀ p, pool.Feeds p c → p ∈ selection.selected
  ordered : selection.selected.Pairwise fun a b => ¬ pool.Feeds a b

/-- A package of new transactions is put in front, the last one first. -/
theorem select_package {package : List TransactionHash} (distinct : package.Nodup)
    {selection : Selection} (new : ∀ h ∈ package, h ∉ selection.selected) :
    (package.foldl pool.select selection).selected = package.reverse ++ selection.selected := by
  induction package generalizing selection with
  | nil => rfl
  | cons h package ih =>
    rw [List.nodup_cons] at distinct
    have one : (pool.select selection h).selected = h :: selection.selected := by
      unfold select
      rw [if_neg (new h List.mem_cons_self)]
      cases pool.storage.get h <;> rfl
    rw [List.foldl_cons, ih distinct.2, one, List.reverse_cons, List.append_assoc,
      List.singleton_append]
    intro h' mem
    rw [one, List.mem_cons, not_or]
    exact ⟨fun same => distinct.1 (same ▸ mem), new h' (List.mem_cons_of_mem _ mem)⟩

variable {limit : Nat}

/-- The part of a package that is not chosen yet. -/
def fresh (pool : MemPool) (selection : Selection) (h : TransactionHash) : List TransactionHash :=
  (pool.dependencyTracker.getWithAncestors h).filter fun hash => hash ∉ selection.selected

theorem mem_fresh {selection : Selection} : c ∈ pool.fresh selection h ↔
    c ∈ pool.dependencyTracker.getWithAncestors h ∧ c ∉ selection.selected := by
  simp [fresh, List.mem_filter]

/-- What every package keeps holds of the selection that is returned. -/
theorem selectPackages_invariant {inv : Selection → Prop} {ranked : List TransactionHash}
    (keeps : ∀ selection, ∀ h ∈ ranked, inv selection →
      (pool.fresh selection h).length ≤ limit - selection.result.length →
      inv ((pool.fresh selection h).foldl pool.select selection))
    {selection : Selection} (start : inv selection) :
    ∃ final, inv final ∧ pool.selectPackages limit ranked selection = final.result := by
  induction ranked generalizing selection with
  | nil => exact ⟨selection, start, rfl⟩
  | cons h ranked ih =>
    have later := fun selection h' mem =>
      keeps selection h' (List.mem_cons_of_mem _ mem)
    rw [selectPackages]
    split
    · exact ih later start
    · dsimp only
      split
      · exact ih later start
      · rename_i room
        have next := keeps selection h List.mem_cons_self start (Nat.le_of_not_lt room)
        split
        · exact ⟨_, next, rfl⟩
        · exact ih later next

theorem within_start : pool.Within limit ⟨[], []⟩ := ⟨chosen_start, Nat.zero_le _⟩

theorem Within.package (tracked : pool.Tracked) {selection : Selection}
    (within : pool.Within limit selection) (here : pool.find h ≠ none)
    (room : (pool.fresh selection h).length ≤ limit - selection.result.length) :
    pool.Within limit ((pool.fresh selection h).foldl pool.select selection) ∧
      ((pool.fresh selection h).foldl pool.select selection).selected =
        (pool.fresh selection h).reverse ++ selection.selected := by
  obtain ⟨-, distinct, nodes⟩ :=
    tracked.consistent.getWithAncestors_spec ((tracked.nodes h).mpr here)
  have held : ∀ h' ∈ pool.fresh selection h, pool.find h' ≠ none :=
    fun h' mem => (tracked.nodes h').mp (nodes h' (mem_fresh.mp mem).1)
  have apart : ∀ h' ∈ pool.fresh selection h, h' ∉ selection.selected :=
    fun h' mem => (mem_fresh.mp mem).2
  have selected : ((pool.fresh selection h).foldl pool.select selection).selected =
      (pool.fresh selection h).reverse ++ selection.selected :=
    select_package (distinct.filter _) apart
  refine ⟨⟨(within.chosen.package _ held).1, ?_⟩, selected⟩
  have size := within.size
  rw [within.chosen.length_eq] at room
  rw [selected, List.length_append, List.length_reverse]
  omega

/-- A package that is a tree keeps the selection sorted. -/
theorem Sorted.package (tracked : pool.Tracked) (exact' : pool.Exact) (tree : pool.Treelike)
    {selection after : Selection} (sorted : pool.Sorted selection)
    (selected : after.selected = (pool.fresh selection h).reverse ++ selection.selected) :
    pool.Sorted after := by
  have same : pool.dependencyTracker.graph.Arrow = pool.Feeds := by
    funext p c
    exact propext (exact'.1 p c)
  have order := tracked.consistent.getWithAncestors_ordered (h := h) (by rw [same]; exact tree h)
    (exact'.2 h)
  rw [same] at order
  refine ⟨fun c mem p feeds => ?_, ?_⟩
  · rw [selected, List.mem_append, List.mem_reverse] at mem ⊢
    rcases mem with new | old
    · by_cases chosen : p ∈ selection.selected
      · exact .inr chosen
      · refine .inl (mem_fresh.mpr ⟨?_, chosen⟩)
        refine tracked.consistent.getWithAncestors_closed (mem_fresh.mp new).1 ?_
        rw [same]
        exact feeds
    · exact .inr (sorted.whole c old p feeds)
  · rw [selected, List.pairwise_append, List.pairwise_reverse]
    refine ⟨order.filter _, sorted.ordered, fun a new b old feeds => ?_⟩
    exact (mem_fresh.mp (List.mem_reverse.mp new)).2 (sorted.whole b old a feeds)

theorem ranking_held (tracked : pool.Tracked) : ∀ h ∈ pool.ranking, pool.find h ≠ none :=
  fun h mem => (tracked.nodes h).mp ((ranking_perm tracked).mem_iff.mp mem)

/-- The template lists chosen transactions within the limit; where the packages are trees they are
sorted. -/
theorem getBestTransactions_within (tracked : pool.Tracked) (limit : Nat) :
    ∃ final, pool.Within limit final ∧ pool.getBestTransactions limit = final.result ∧
      (pool.Exact → pool.Treelike → pool.Sorted final) := by
  unfold getBestTransactions
  split
  · exact ⟨⟨[], []⟩, within_start, rfl, fun _ _ => ⟨by simp, List.Pairwise.nil⟩⟩
  · have keeps : ∀ selection, ∀ h ∈ pool.ranking, pool.Within limit selection ∧
        (pool.Exact → pool.Treelike → pool.Sorted selection) →
        (pool.fresh selection h).length ≤ limit - selection.result.length →
        pool.Within limit ((pool.fresh selection h).foldl pool.select selection) ∧
          (pool.Exact → pool.Treelike →
            pool.Sorted ((pool.fresh selection h).foldl pool.select selection)) := by
      intro selection h mem state room
      obtain ⟨within, selected⟩ := state.1.package tracked (ranking_held tracked h mem) room
      exact ⟨within, fun exact' tree =>
        (state.2 exact' tree).package tracked exact' tree selected⟩
    obtain ⟨final, ⟨within, sorted⟩, result⟩ := selectPackages_invariant keeps
      ⟨within_start, fun _ _ => ⟨by simp, List.Pairwise.nil⟩⟩
    exact ⟨final, within, result, sorted⟩

/-- In a sorted selection the parents come first. -/
theorem Sorted.parents_first (indexed : pool.storage.Indexed) {selection : Selection}
    (chosen : pool.Chosen selection) (sorted : pool.Sorted selection)
    {before after : List Transaction} {child parent : Transaction}
    (split : selection.result = before ++ child :: after) (found : pool.find p = some parent)
    (other : p ≠ child.data.hash) (spends : ∃ o ∈ child.spentOutpoints, o ∈ parent.outpoints) :
    parent ∈ before := by
  rw [chosen.listed, List.filterMap_eq_append_iff] at split
  obtain ⟨l, l', list, earlier, later⟩ := split
  obtain ⟨m, h, rest, list', skipped, held, -⟩ := List.filterMap_eq_cons_iff.mp later
  have whole : selection.selected.reverse = l ++ (m ++ h :: rest) := by rw [list, list']
  have hash : child.data.hash = h := indexed.keyed h child held
  have feeds : pool.Feeds p h := ⟨parent, child, found, held, spends⟩
  have mem : ∀ c, c ∈ selection.selected ↔ c ∈ l ∨ c ∈ m ∨ c = h ∨ c ∈ rest := by
    intro c
    rw [← List.mem_reverse, whole]
    simp
  rcases (mem p).mp (sorted.whole h ((mem h).mpr (by simp)) p feeds) with here | here | here | here
  · rw [← earlier]
    exact List.mem_filterMap.mpr ⟨p, here, found⟩
  · rw [skipped p here] at found
    cases found
  · exact absurd (here.trans hash.symm) other
  · have order := List.pairwise_reverse.mpr sorted.ordered
    rw [whole, List.pairwise_append, List.pairwise_append] at order
    exact absurd feeds ((List.pairwise_cons.mp order.2.1.2.1).1 p here)

end Select

section Run

/-- The spends after an admission are those that the new transaction brings and leaves. -/
theorem leads_of_feeds (indexed : pool.storage.Indexed) (tracked : pool.Tracked)
    (exact' : pool.Exact) (leaf : pool.EntersAsLeaf tx) {now fee : UInt64}
    (feeds : ((pool.removeAll (pool.evictions tx)).store now tx fee).Feeds p c) :
    p ≠ tx.data.hash ∧ pool.Leads tx p c := by
  have replaced : ∀ h, h ∈ pool.evictions tx ↔ pool.Replaces tx h :=
    fun h => mem_evictions_iff indexed tracked exact'
  have other : p ≠ tx.data.hash := by
    rintro rfl
    exact ((entersAsLeaf_iff indexed tracked exact').mp leaf).childless now fee feeds
  refine ⟨other, ?_⟩
  by_cases new : c = tx.data.hash
  · subst new
    obtain ⟨parent, child, found, held, spends⟩ := feeds
    rw [find_store, Function.update_of_ne other, find_removeAll] at found
    rw [find_store, Function.update_self, Option.some.injEq] at held
    subst held
    split at found
    · cases found
    · rename_i stays
      exact ⟨fun gone => stays ((replaced p).mpr gone), .inr ⟨rfl, parent, found, spends⟩⟩
  · obtain ⟨old, left, right⟩ := (feeds_removeAll _).mp ((feeds_store now fee other new).mp feeds)
    rw [replaced] at left right
    exact ⟨left, .inl ⟨old, right⟩⟩

theorem Treelike.removeAll (tree : pool.Treelike) (l : List TransactionHash) :
    (pool.removeAll l).Treelike :=
  fun h => (tree h).mono fun _ _ feeds => ((feeds_removeAll l).mp feeds).1

theorem Treelike.admission (indexed : pool.storage.Indexed) (tracked : pool.Tracked)
    (exact' : pool.Exact) (tree : pool.Treelike) (leaf : pool.EntersAsLeaf tx)
    (above : TreeAbove (pool.Leads tx) tx.data.hash) (now fee : UInt64) :
    ((pool.removeAll (pool.evictions tx)).store now tx fee).Treelike := by
  have leads : ∀ p c, ((pool.removeAll (pool.evictions tx)).store now tx fee).Feeds p c →
      p ≠ tx.data.hash ∧ pool.Leads tx p c :=
    fun p c feeds => leads_of_feeds indexed tracked exact' leaf feeds
  have old : ∀ p c, ((pool.removeAll (pool.evictions tx)).store now tx fee).Feeds p c →
      c ≠ tx.data.hash → pool.Feeds p c := by
    intro p c feeds other
    rcases (leads p c feeds).2.2 with before | new
    · exact before.1
    · exact absurd new.1 other
  intro h
  by_cases new : h = tx.data.hash
  · subst new
    exact above.mono fun p c feeds => (leads p c feeds).2
  · -- a path that does not end in the new leaf does not pass through it
    have path : ∀ c, ReflTransGen
        ((pool.removeAll (pool.evictions tx)).store now tx fee).Feeds c h →
        c ≠ tx.data.hash ∧ ReflTransGen pool.Feeds c h := by
      intro c reaches
      induction reaches using ReflTransGen.head_induction_on with
      | refl => exact ⟨new, .refl⟩
      | head first _ ih => exact ⟨(leads _ _ first).1, ih.2.head (old _ _ first ih.1)⟩
    intro a c c' first second below below'
    have here := path c below
    have here' := path c' below'
    exact tree h a c c' (old a c first here.1) (old a c' second here'.1) here.2 here'.2

/-- What keeps the packages trees along a run. -/
structure Forest (pool : MemPool) : Prop where
  indexed : pool.storage.Indexed
  tracked : pool.Tracked
  exact' : pool.Exact
  tree : pool.Treelike

theorem forest_new (config : MemPoolConfig) : (new config).Forest where
  indexed := TransactionStorage.indexed_empty
  tracked := tracked_new config
  exact' := exact_new config
  tree h a c c' first := by
    obtain ⟨parent, -, found, -⟩ := first
    simp [new, find, TransactionStorage.find, TransactionStorage.get, TransactionStorage.empty]
      at found

theorem Forest.call (forest : pool.Forest) {call : Call} (enters : pool.EntersAsTree call) :
    (pool.call call).Forest where
  indexed := indexed_call forest.indexed call
  tracked := tracked_call forest.indexed forest.tracked call
  exact' := (exact_call forest.indexed forest.tracked forest.exact' call).mpr
    fun lookup now tx isAdd admitted => (enters lookup now tx isAdd admitted).1
  tree := by
    rcases pool.call_cases call with ⟨l, removed⟩ | ⟨lookup, now, tx, -, rfl, -⟩
    · rw [removed]
      exact forest.tree.removeAll l
    · rw [MemPool.call]
      rcases pool.addTransaction_cases lookup now tx with ⟨e, failed⟩ | ⟨utxos, -, -, done⟩
      · rw [failed]
        exact forest.tree
      · obtain ⟨leaf, above⟩ := enters lookup now tx rfl (by rw [done])
        rw [done]
        exact forest.tree.admission forest.indexed forest.tracked forest.exact' leaf above now _

/-- A template has at most as many transactions as it may, from the pool and each once; and in a
run in which every admitted transaction enters as a leaf over a tree, every transaction stands
behind all pool transactions that it spends from. -/
theorem template_ordered (config : MemPoolConfig) (calls : List Call) (limit : Nat) :
    (((new config).run calls).getBestTransactions limit).length ≤ limit ∧
    (((new config).run calls).getBestTransactions limit).Nodup ∧
    (∀ tx ∈ ((new config).run calls).getBestTransactions limit,
      ((new config).run calls).find tx.data.hash = some tx) ∧
    (Throughout MemPool.call EntersAsTree (new config) calls →
      ∀ before child after, ((new config).run calls).getBestTransactions limit =
          before ++ child :: after →
        ∀ p parent, ((new config).run calls).find p = some parent → p ≠ child.data.hash →
          (∃ o ∈ child.spentOutpoints, o ∈ parent.outpoints) → parent ∈ before) := by
  obtain ⟨indexed, tracked, -⟩ := reachable_run config calls
  obtain ⟨final, within, result, sorted⟩ := getBestTransactions_within tracked limit
  have listed : ∀ tx, tx ∈ final.result ↔
      ∃ h ∈ final.selected, ((new config).run calls).find h = some tx := by
    intro tx
    rw [within.chosen.listed, List.mem_filterMap]
    simp
  refine ⟨?_, ?_, fun tx mem => ?_, fun along before child after split p parent => ?_⟩
  · rw [result, within.chosen.length_eq]
    exact within.size
  · rw [result, within.chosen.listed]
    refine (List.nodup_reverse.mpr within.chosen.distinct).filterMap fun h h' tx first second => ?_
    rw [← indexed.keyed h tx first, indexed.keyed h' tx second]
  · rw [result] at mem
    obtain ⟨h, -, found⟩ := (listed tx).mp mem
    rw [indexed.keyed h tx found]
    exact found
  · have forest : ((new config).run calls).Forest := by
      have all := along.invariant (forest_new config) (fun pool call state => state.call)
        calls.length
      rwa [List.take_length] at all
    rw [result] at split
    exact (sorted forest.exact' forest.tree).parents_first indexed within.chosen split

end Run

end MemPool

end Template

namespace Sample

/-- The coin in two halves. -/
def fork : Transaction := payment 7 [purse.1] [⟨50000, ⟨7⟩⟩, ⟨50000, ⟨7⟩⟩]

def left : Transaction := payment 7 [⟨fork.data.hash, 0⟩] [⟨50000, ⟨7⟩⟩]

def right : Transaction := payment 7 [⟨fork.data.hash, 1⟩] [⟨50000, ⟨7⟩⟩]

/-- Both halves together, for a fee that puts its package first. -/
def join : Transaction :=
  payment 7 [⟨left.data.hash, 0⟩, ⟨right.data.hash, 0⟩] [⟨100, ⟨8⟩⟩]

def diamond : List MemPool.Call :=
  [fork, left, right, join].map fun tx => .addTransaction (holding [purse]) 0 tx

/-- The sort of four elements, by the comparisons that it makes. -/
theorem mergeSort_four {α : Type} {le : α → α → Bool} {a b c d : α} (ab : le a b = false)
    (cd : le c d = false) (bd : le b d = false) (bc : le b c) (ac : le a c = false) :
    [a, b, c, d].mergeSort le = [d, b, c, a] := by
  simp [List.mergeSort, List.MergeSort.Internal.splitInTwo, ab, cd, bd, bc, ac]

open MemPool in
theorem diamond_ranking : ((MemPool.new poolConfig).run diamond).ranking =
    [join, left, right, fork].map fun tx => tx.data.hash := by
  have order : ((MemPool.new poolConfig).run diamond).dependencyTracker.topologicalOrder =
      [fork.data.hash, left.data.hash, right.data.hash, join.data.hash] := by decide +kernel
  rw [ranking, order, List.map_cons, List.map_cons, List.map_cons, List.map_cons, List.map_nil,
    mergeSort_four]
  · rfl
  all_goals decide +kernel

end Sample

open Sample in
/-- In a template for a diamond the second half comes before the transaction that makes it. -/
theorem template_breaks_diamond :
    ¬ ∀ (config : MemPoolConfig) (calls : List MemPool.Call) (limit : Nat) (before after child),
      ((MemPool.new config).run calls).getBestTransactions limit = before ++ child :: after →
      ∀ p parent, ((MemPool.new config).run calls).find p = some parent → p ≠ child.data.hash →
        (∃ o ∈ child.spentOutpoints, o ∈ parent.outpoints) → parent ∈ before := by
  intro all
  have template : ((MemPool.new poolConfig).run diamond).getBestTransactions 4 =
      [] ++ right :: [fork, left, join] := by
    rw [MemPool.getBestTransactions, if_neg (by decide), diamond_ranking]
    decide +kernel
  have held : ((MemPool.new poolConfig).run diamond).find fork.data.hash = some fork := by
    decide +kernel
  have spends : ∃ o ∈ right.spentOutpoints, o ∈ fork.outpoints := by decide +kernel
  exact absurd (all poolConfig diamond 4 _ _ _ template _ fork held (by decide +kernel) spends)
    List.not_mem_nil

namespace Sample

/-- A parent and one child. -/
def chain : List MemPool.Call :=
  [fork, left].map fun tx => .addTransaction (holding [purse]) 0 tx

theorem chain_enters :
    Throughout MemPool.call MemPool.EntersAsTree (MemPool.new poolConfig) chain := by
  refine ⟨?_, ?_, trivial⟩
  · rintro lookup now tx ⟨rfl, rfl, rfl⟩ -
    have empty : ∀ h tx, (MemPool.new poolConfig).find h ≠ some tx := by
      simp [MemPool.new, MemPool.find, TransactionStorage.find, TransactionStorage.get,
        TransactionStorage.empty]
    refine ⟨⟨by decide +kernel, fun c child held => absurd held (empty c child)⟩, ?_⟩
    rintro a c c' ⟨-, ⟨⟨parent, -, found, -⟩, -⟩ | ⟨-, parent, found, -⟩⟩
    · exact absurd found (empty a parent)
    · exact absurd found (empty a parent)
  · rintro lookup now tx ⟨rfl, rfl, rfl⟩ -
    have pairs : ((((MemPool.new poolConfig).call
        (.addTransaction (holding [purse]) 0 fork)).storage.transactions.toPairs).map
          fun e => (e.1, e.2.transaction)) = [(fork.data.hash, fork)] := by decide +kernel
    have only : ∀ h tx, ((MemPool.new poolConfig).call
        (.addTransaction (holding [purse]) 0 fork)).find h = some tx → tx = fork := by
      intro h tx found
      have mem := MemPool.mem_pairs_of_find found
      rw [pairs, List.mem_singleton] at mem
      exact (Prod.mk.inj mem).2
    have apart : ∀ o ∈ fork.spentOutpoints, o ∉ left.outpoints ∧ o ∉ fork.outpoints := by
      decide +kernel
    refine ⟨⟨by decide +kernel, fun c child held spends => ?_⟩, ?_⟩
    · obtain ⟨o, input, output⟩ := spends
      rw [only c child held] at input
      exact absurd output (apart o input).1
    · -- the parent spends nothing of the pool, so every spend is one of the child
      have child : ∀ a c, ((MemPool.new poolConfig).call
          (.addTransaction (holding [purse]) 0 fork)).Leads left a c → c = left.data.hash := by
        rintro a c ⟨-, ⟨⟨parent, tx, found, held, o, input, output⟩, -⟩ | ⟨same, -⟩⟩
        · rw [only a parent found] at output
          rw [only c tx held] at input
          exact absurd output (apart o input).2
        · exact same
      intro a c c' first second _ _
      rw [child a c first, child a c' second]

end Sample

open Sample in
theorem template_ordered_sample : ∀ before child after,
    ((MemPool.new poolConfig).run chain).getBestTransactions 4 = before ++ child :: after →
    ∀ p parent, ((MemPool.new poolConfig).run chain).find p = some parent →
      p ≠ child.data.hash → (∃ o ∈ child.spentOutpoints, o ∈ parent.outpoints) →
      parent ∈ before :=
  (MemPool.template_ordered poolConfig chain 4).2.2.2 chain_enters

end StryiChain
