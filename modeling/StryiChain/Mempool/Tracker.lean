import StryiChain.Mempool.Indexes

/-!
# The tracker and the spend relation

Edges are added from the child side only, when the child enters the pool. A transaction that
enters while something in the pool already spends one of its outputs is left without these edges.
Everything else the tracker does keeps it equal to the spend relation of the pool.
-/

namespace StryiChain

open Relation

namespace DependencyTracker

variable [Primitives]

/-- The index of a tracker finds exactly the nodes of its graph. -/
structure Consistent (tracker : DependencyTracker) : Prop where
  wellFormed : tracker.graph.WellFormed
  indices : ∀ h i, tracker.indices.read h = some i ↔ tracker.graph.nodeWeight i = some h

variable {tracker : DependencyTracker} {h h' p c : TransactionHash}

theorem consistent_empty : (empty : DependencyTracker).Consistent :=
  ⟨DiGraph.wellFormed_empty, by simp [empty, DiGraph.nodeWeight]⟩

theorem Consistent.tracked_iff (consistent : tracker.Consistent) :
    h ∈ tracker.graph.nodes ↔ ∃ i, tracker.indices.read h = some i := by
  rw [List.mem_iff_getElem?]
  exact exists_congr fun i => (consistent.indices h i).symm

section Add

variable {parents : List TransactionHash}

/-- The loop over the parents adds their edges, and nothing else. -/
theorem foldl_addParent (parents : List TransactionHash) {indices : Table TransactionHash Nat} {child : Nat}
    {graph : DiGraph TransactionHash} (wf : graph.WellFormed)
    (exact' : ∀ h i, indices.read h = some i ↔ graph.nodeWeight i = some h)
    (weight : graph.nodeWeight child = some h) :
    (parents.foldl (addParent indices child) graph).WellFormed ∧
    (parents.foldl (addParent indices child) graph).nodes = graph.nodes ∧
    ∀ p c, (parents.foldl (addParent indices child) graph).Arrow p c ↔
      graph.Arrow p c ∨ c = h ∧ p ∈ parents ∧ p ∈ graph.nodes := by
  induction parents generalizing graph with
  | nil => simp [wf]
  | cons parent parents ih =>
    rw [List.foldl_cons, addParent]
    cases found : indices.read parent with
    | none =>
      have untracked : parent ∉ graph.nodes := by
        intro mem
        obtain ⟨i, at_i⟩ := List.mem_iff_getElem?.mp mem
        rw [(exact' parent i).mpr at_i] at found
        cases found
      obtain ⟨wf', nodes, arrows⟩ := ih wf exact' weight
      refine ⟨wf', nodes, fun p c => ?_⟩
      rw [arrows, List.mem_cons]
      constructor
      · rintro (old | ⟨target, mem, tracked⟩)
        · exact .inl old
        · exact .inr ⟨target, .inr mem, tracked⟩
      · rintro (old | ⟨target, rfl | mem, tracked⟩)
        · exact .inl old
        · exact absurd tracked untracked
        · exact .inr ⟨target, mem, tracked⟩
    | some i =>
      have source := (exact' parent i).mp found
      have tracked : parent ∈ graph.nodes := List.mem_of_getElem? source
      have start := DiGraph.lt_of_nodeWeight source
      have stop := DiGraph.lt_of_nodeWeight weight
      have kept := DiGraph.nodeWeight_addEdge start stop
      obtain ⟨wf', nodes, arrows⟩ := ih (wf.addEdge start stop)
        (fun h i => by rw [kept, exact' h i]) (by rw [kept, weight])
      rw [DiGraph.nodes_addEdge start stop] at nodes arrows
      refine ⟨wf', nodes, fun p c => ?_⟩
      have edge : (graph.addEdge i child).Arrow p c ↔ graph.Arrow p c ∨ p = parent ∧ c = h := by
        rw [DiGraph.arrow_addEdge start stop, source, weight, Option.some.injEq, Option.some.injEq,
          eq_comm (a := parent), eq_comm (a := h)]
      rw [arrows, edge, List.mem_cons]
      constructor
      · rintro ((old | ⟨rfl, rfl⟩) | ⟨target, mem, tracked⟩)
        · exact .inl old
        · exact .inr ⟨rfl, .inl rfl, tracked⟩
        · exact .inr ⟨target, .inr mem, tracked⟩
      · rintro (old | ⟨target, same | mem, tracked⟩)
        · exact .inl (.inl old)
        · exact .inl (.inr ⟨same, target⟩)
        · exact .inr ⟨target, mem, tracked⟩

/-- A new transaction becomes a node that has its tracked parents. -/
theorem Consistent.addTransaction (consistent : tracker.Consistent)
    (new : h ∉ tracker.graph.nodes) (parents : List TransactionHash) :
    (tracker.addTransaction h parents).Consistent ∧
    (tracker.addTransaction h parents).graph.nodes = tracker.graph.nodes ++ [h] ∧
    ∀ p c, (tracker.addTransaction h parents).graph.Arrow p c ↔ tracker.graph.Arrow p c ∨
      c = h ∧ p ∈ parents ∧ (p ∈ tracker.graph.nodes ∨ p = h) := by
  have wf := consistent.wellFormed.addNode new
  have weight : (tracker.graph.addNode h).nodeWeight tracker.graph.nodes.length = some h := by
    simp [DiGraph.nodeWeight]
  have exact' : ∀ h' i,
      Table.read (AList.insert h tracker.graph.nodes.length tracker.indices) h' = some i ↔
        (tracker.graph.addNode h).nodeWeight i = some h' := by
    intro h' i
    rw [Table.read_insert]
    by_cases same : h' = h
    · subst same
      rw [Function.update_self, Option.some.injEq]
      constructor
      · rintro rfl
        exact weight
      · intro at_i
        exact wf.index_eq weight at_i
    · rw [Function.update_of_ne same, consistent.indices]
      rw [DiGraph.nodeWeight, DiGraph.nodeWeight, DiGraph.nodes_addNode, List.getElem?_append]
      split
      · exact Iff.rfl
      · rename_i outside
        rw [List.getElem?_eq_none (by omega)]
        simp only [reduceCtorEq, false_iff, List.getElem?_singleton]
        split
        · rw [Option.some.injEq]
          exact Ne.symm same
        · simp
  obtain ⟨wf', nodes, arrows⟩ := foldl_addParent parents wf exact' weight
  refine ⟨⟨wf', fun h' i => ?_⟩, nodes.trans DiGraph.nodes_addNode, fun p c => ?_⟩
  · rw [DiGraph.nodeWeight, show (tracker.addTransaction h parents).graph.nodes = _ from nodes]
    exact exact' h' i
  · refine (arrows p c).trans ?_
    rw [consistent.wellFormed.arrow_addNode]
    simp

end Add

section Remove

/-- Rebuilding finds every node again. -/
theorem rebuildIndices_consistent {graph : DiGraph TransactionHash} (wf : graph.WellFormed) :
    (rebuildIndices graph).Consistent := by
  refine ⟨wf, fun h i => ?_⟩
  have keys : graph.nodes.zipIdx.map Prod.fst = graph.nodes := List.zipIdx_map_fst 0 graph.nodes
  have entries : ∀ h i, (h, i) ∈ graph.nodes.zipIdx ↔ graph.nodeWeight i = some h :=
    fun h i => List.mem_zipIdx_iff_getElem?
  simp only [rebuildIndices, Table.read_insertAll]
  rw [← entries]
  constructor
  · intro found
    rcases putAll_eq_some found with mem | ⟨-, none'⟩
    · exact mem
    · simp at none'
  · intro mem
    exact putAll_of_mem (by rw [keys]; exact wf.distinct) mem _

/-- A removed transaction takes its edges along, and the others keep theirs. -/
theorem Consistent.removeTransaction (consistent : tracker.Consistent) (h : TransactionHash) :
    (tracker.removeTransaction h).Consistent ∧
    (∀ h', h' ∈ (tracker.removeTransaction h).graph.nodes ↔
      h' ∈ tracker.graph.nodes ∧ h' ≠ h) ∧
    ∀ p c, (tracker.removeTransaction h).graph.Arrow p c ↔
      tracker.graph.Arrow p c ∧ p ≠ h ∧ c ≠ h := by
  unfold DependencyTracker.removeTransaction
  cases found : tracker.indices.read h with
  | none =>
    have untracked : h ∉ tracker.graph.nodes := by
      intro mem
      obtain ⟨i, at_i⟩ := consistent.tracked_iff.mp mem
      rw [found] at at_i
      cases at_i
    refine ⟨consistent, fun h' => ?_, fun p c => ?_⟩
    · constructor
      · intro mem
        exact ⟨mem, fun same => untracked (same ▸ mem)⟩
      · exact And.left
    · constructor
      · intro arrow
        exact ⟨arrow, fun same => untracked (same ▸ arrow.source),
          fun same => untracked (same ▸ arrow.target)⟩
      · exact And.left
  | some i =>
    have here := (consistent.indices h i).mp found
    have wf := consistent.wellFormed
    exact ⟨rebuildIndices_consistent (wf.removeNode here), fun h' => wf.mem_removeNode here,
      fun p c => wf.arrow_removeNode here⟩

end Remove

section Walk

theorem edgesDirected_closed (wf : tracker.graph.WellFormed) (direction : Direction) :
    ∀ i, ∀ j ∈ tracker.edgesDirected direction i, j ∈ List.range tracker.graph.nodes.length := by
  intro i j mem
  rw [List.mem_range]
  cases direction with
  | outgoing =>
    simp only [edgesDirected, mem_iter, DiGraph.mem_successors] at mem
    exact (wf.bound _ mem).2
  | incoming =>
    simp only [edgesDirected, mem_iter, DiGraph.mem_predecessors] at mem
    exact (wf.bound _ mem).1

theorem mem_hashes {nodes : List Nat} :
    h ∈ tracker.hashes nodes ↔ ∃ i ∈ nodes, tracker.graph.nodeWeight i = some h :=
  List.mem_filterMap

/-- The descendants are what can be reached over edges. -/
theorem Consistent.mem_getDescendants (consistent : tracker.Consistent) :
    h' ∈ tracker.getDescendants h ↔ TransGen tracker.graph.Arrow h h' := by
  unfold getDescendants walkHashes
  cases found : tracker.indices.read h with
  | none =>
    simp only [List.not_mem_nil, false_iff]
    intro path
    obtain ⟨i, at_i⟩ : ∃ i, tracker.indices.read h = some i := by
      obtain ⟨_, first, -⟩ := TransGen.head'_iff.mp path
      exact consistent.tracked_iff.mp first.source
    rw [found] at at_i
    cases at_i
  | some start =>
    have here := (consistent.indices h start).mp found
    have closed := edgesDirected_closed consistent.wellFormed .outgoing
    rw [mem_hashes, consistent.wellFormed.path_iff here]
    apply exists_congr
    intro i
    rw [Walk.mem_run_visited closed, and_comm]
    simp only [edgesDirected, mem_iter, DiGraph.mem_successors]

end Walk

end DependencyTracker

namespace MemPool

variable [Primitives] [Floats] {pool : MemPool} {tx : Transaction} {h p c : TransactionHash}

/-- The pool transaction `c` spends an output of the pool transaction `p`. -/
def Feeds (pool : MemPool) (p c : TransactionHash) : Prop :=
  ∃ parent child, pool.find p = some parent ∧ pool.find c = some child ∧
    ∃ o ∈ child.spentOutpoints, o ∈ parent.outpoints

/-- The tracker has one node for each pool transaction, its index finds them, and every edge is a
spend. -/
structure Tracked (pool : MemPool) : Prop where
  consistent : pool.dependencyTracker.Consistent
  nodes : ∀ h, h ∈ pool.dependencyTracker.graph.nodes ↔ pool.find h ≠ none
  sound : ∀ p c, pool.dependencyTracker.graph.Arrow p c → pool.Feeds p c

/-- What the tracker is meant to be. -/
structure Mirrors (pool : MemPool) : Prop where
  distinct : pool.dependencyTracker.graph.nodes.Nodup
  nodes : ∀ h, h ∈ pool.dependencyTracker.graph.nodes ↔ pool.find h ≠ none
  indices : ∀ h i, pool.dependencyTracker.indices.read h = some i ↔
    pool.dependencyTracker.graph.nodeWeight i = some h
  edges : ∀ p c, pool.dependencyTracker.graph.Arrow p c ↔ pool.Feeds p c
  acyclic : ∀ h, ¬ TransGen pool.dependencyTracker.graph.Arrow h h
  removes : ∀ h h' tx, (pool.removeTransaction h).find h' = some tx ↔
    pool.find h' = some tx ∧ h' ≠ h ∧ ¬ TransGen pool.Feeds h h'

/-- The new transaction replaces `c`: it spends an input of `c` or of a pool transaction that `c`
descends from. -/
def Replaces (pool : MemPool) (tx : Transaction) (c : TransactionHash) : Prop :=
  ∃ r conflict, pool.find r = some conflict ∧
    (∃ o ∈ tx.spentOutpoints, o ∈ conflict.spentOutpoints) ∧ ReflTransGen pool.Feeds r c

/-- A transaction enters the pool as a leaf: neither itself nor a pool transaction that it does
not replace spends one of its outputs. -/
def EntersAsLeaf (pool : MemPool) (tx : Transaction) : Prop :=
  (∀ o ∈ tx.spentOutpoints, o ∉ tx.outpoints) ∧
  ∀ c child, pool.find c = some child → (∃ o ∈ child.spentOutpoints, o ∈ tx.outpoints) →
    pool.Replaces tx c

/-- Every transaction that a sequence of calls admits enters as a leaf. -/
def ParentsFirst (pool : MemPool) : List Call → Prop
  | [] => True
  | call :: calls =>
      (∀ lookup now tx, call = .addTransaction lookup now tx →
        (pool.addTransaction lookup now tx).1 = .ok () → pool.EntersAsLeaf tx) ∧
      (pool.call call).ParentsFirst calls

theorem tracked_new (config : MemPoolConfig) : (new config).Tracked where
  consistent := DependencyTracker.consistent_empty
  nodes := by
    simp [new, DependencyTracker.empty, find, TransactionStorage.find,
      TransactionStorage.get, TransactionStorage.empty]
  sound p c arrow := absurd arrow DiGraph.not_arrow_empty

section Remove

theorem feeds_removeAll (l : List TransactionHash) :
    (pool.removeAll l).Feeds p c ↔ pool.Feeds p c ∧ p ∉ l ∧ c ∉ l := by
  unfold Feeds
  simp only [find_removeAll]
  by_cases hp : p ∈ l
  · simp [hp]
  · by_cases hc : c ∈ l
    · simp [hc]
    · simp [hp, hc]

/-- The tracker after a list of removals. -/
theorem tracker_removeAll (consistent : pool.dependencyTracker.Consistent)
    (l : List TransactionHash) :
    (pool.removeAll l).dependencyTracker.Consistent ∧
    (∀ h, h ∈ (pool.removeAll l).dependencyTracker.graph.nodes ↔
      h ∈ pool.dependencyTracker.graph.nodes ∧ h ∉ l) ∧
    ∀ p c, (pool.removeAll l).dependencyTracker.graph.Arrow p c ↔
      pool.dependencyTracker.graph.Arrow p c ∧ p ∉ l ∧ c ∉ l := by
  induction l generalizing pool with
  | nil => simp [removeAll, consistent]
  | cons h l ih =>
    obtain ⟨one, nodes, arrows⟩ := consistent.removeTransaction h
    change (pool.removeStoredTransaction h).dependencyTracker.Consistent at one
    obtain ⟨rest, nodes', arrows'⟩ := ih one
    refine ⟨rest, fun h' => ?_, fun p c => ?_⟩
    · rw [List.mem_cons, not_or]
      exact (nodes' h').trans ((and_congr_left fun _ => nodes h').trans and_assoc)
    · rw [List.mem_cons, List.mem_cons, not_or, not_or]
      refine (arrows' p c).trans ((and_congr_left fun _ => arrows p c).trans ?_)
      constructor
      · rintro ⟨⟨arrow, left, right⟩, left', right'⟩
        exact ⟨arrow, ⟨left, left'⟩, right, right'⟩
      · rintro ⟨arrow, ⟨left, left'⟩, right, right'⟩
        exact ⟨⟨arrow, left, right⟩, left', right'⟩

theorem Tracked.removeAll (tracked : pool.Tracked) (l : List TransactionHash) :
    (pool.removeAll l).Tracked := by
  obtain ⟨consistent, nodes, arrows⟩ := tracker_removeAll tracked.consistent l
  refine ⟨consistent, fun h => ?_, fun p c arrow => ?_⟩
  · rw [nodes, tracked.nodes, find_removeAll]
    split
    · rename_i mem
      simp [mem]
    · rename_i stays
      simp [stays]
  · obtain ⟨old, left, right⟩ := (arrows p c).mp arrow
    exact (feeds_removeAll l).mpr ⟨tracked.sound p c old, left, right⟩

end Remove

section Store

/-- The pool that a new transaction is stored in has nothing under its hash. -/
structure Ready (pool : MemPool) (tx : Transaction) : Prop where
  tracked : pool.Tracked
  new : pool.find tx.data.hash = none
  indexed : ∀ now fee, (pool.store now tx fee).storage.Indexed

variable (now fee : UInt64)

/-- The edges after a transaction has been stored. -/
theorem Ready.store_arrow (ready : pool.Ready tx) :
    (pool.store now tx fee).dependencyTracker.Consistent ∧
    (∀ h, h ∈ (pool.store now tx fee).dependencyTracker.graph.nodes ↔
      (pool.store now tx fee).find h ≠ none) ∧
    ∀ p c, (pool.store now tx fee).dependencyTracker.graph.Arrow p c ↔
      pool.dependencyTracker.graph.Arrow p c ∨
        c = tx.data.hash ∧ (pool.store now tx fee).Feeds p c := by
  have untracked : tx.data.hash ∉ pool.dependencyTracker.graph.nodes := by
    rw [ready.tracked.nodes, ready.new]
    simp
  obtain ⟨consistent, nodes, arrows⟩ := ready.tracked.consistent.addTransaction untracked
    (parentHashes (pool.store now tx fee).storage tx)
  have nodes' : (pool.store now tx fee).dependencyTracker.graph.nodes =
      pool.dependencyTracker.graph.nodes ++ [tx.data.hash] := nodes
  have held : ∀ h, h ∈ (pool.store now tx fee).dependencyTracker.graph.nodes ↔
      (pool.store now tx fee).find h ≠ none := by
    intro h
    rw [nodes', List.mem_append, List.mem_singleton, ready.tracked.nodes, find_store]
    by_cases same : h = tx.data.hash
    · subst same
      simp
    · simp [same]
  have parents : ∀ p, p ∈ parentHashes (pool.store now tx fee).storage tx ↔
      (pool.store now tx fee).Feeds p tx.data.hash := by
    intro p
    have own : (pool.store now tx fee).find tx.data.hash = some tx := by
      rw [find_store, Function.update_self]
    rw [parentHashes, List.mem_filterMap]
    constructor
    · rintro ⟨o, input, creator⟩
      obtain ⟨parent, found, output⟩ := ((ready.indexed now fee).creating o p).mp creator
      exact ⟨parent, tx, found, own, o, input, output⟩
    · rintro ⟨parent, child, found, same, o, input, output⟩
      rw [own, Option.some.injEq] at same
      subst same
      exact ⟨o, input, ((ready.indexed now fee).creating o p).mpr ⟨parent, found, output⟩⟩
  refine ⟨consistent, held, fun p c => (arrows p c).trans (or_congr_right ?_)⟩
  constructor
  · rintro ⟨rfl, mem, -⟩
    exact ⟨rfl, (parents p).mp mem⟩
  · rintro ⟨rfl, feeds⟩
    refine ⟨rfl, (parents p).mpr feeds, ?_⟩
    obtain ⟨parent, -, found, -⟩ := feeds
    have tracked := (held p).mpr (by simp [found])
    rwa [nodes', List.mem_append, List.mem_singleton] at tracked

/-- Between two transactions that were there before, storing another one changes nothing. -/
theorem feeds_store (left : p ≠ tx.data.hash) (right : c ≠ tx.data.hash) :
    (pool.store now tx fee).Feeds p c ↔ pool.Feeds p c := by
  unfold Feeds
  rw [find_store, Function.update_of_ne left, Function.update_of_ne right]

theorem Ready.store_tracked (ready : pool.Ready tx) : (pool.store now tx fee).Tracked := by
  obtain ⟨consistent, nodes, arrows⟩ := ready.store_arrow now fee
  refine ⟨consistent, nodes, fun p c arrow => ?_⟩
  rcases (arrows p c).mp arrow with old | ⟨-, feeds⟩
  · have left : p ≠ tx.data.hash := by
      rintro rfl
      exact (ready.tracked.nodes _).mp old.source ready.new
    have right : c ≠ tx.data.hash := by
      rintro rfl
      exact (ready.tracked.nodes _).mp old.target ready.new
    exact (feeds_store now fee left right).mpr (ready.tracked.sound p c old)
  · exact feeds

/-- Nothing in the pool spends an output of the transaction, nor does it itself. -/
def Leaf (pool : MemPool) (tx : Transaction) : Prop :=
  (∀ o ∈ tx.spentOutpoints, o ∉ tx.outpoints) ∧
  ∀ c child, pool.find c = some child → ∀ o ∈ child.spentOutpoints, o ∉ tx.outpoints

/-- The edges of the tracker are the spends of the pool, and they form no cycle. -/
def Exact (pool : MemPool) : Prop :=
  (∀ p c, pool.dependencyTracker.graph.Arrow p c ↔ pool.Feeds p c) ∧
  ∀ h, ¬ TransGen pool.dependencyTracker.graph.Arrow h h

theorem exact_new (config : MemPoolConfig) : (new config).Exact := by
  refine ⟨fun p c => ?_, fun h path => ?_⟩
  · constructor
    · intro arrow
      exact absurd arrow DiGraph.not_arrow_empty
    · rintro ⟨parent, child, found, -⟩
      simp [new, find, TransactionStorage.find, TransactionStorage.get, TransactionStorage.empty]
        at found
  · obtain ⟨_, first, -⟩ := TransGen.head'_iff.mp path
    exact DiGraph.not_arrow_empty first

theorem Exact.removeAll (exact' : pool.Exact) (tracked : pool.Tracked)
    (l : List TransactionHash) : (pool.removeAll l).Exact := by
  obtain ⟨-, -, arrows⟩ := tracker_removeAll tracked.consistent l
  refine ⟨fun p c => ?_, fun h path => ?_⟩
  · rw [arrows, feeds_removeAll, exact'.1]
  · exact exact'.2 h (TransGen.mono (fun p c arrow => ((arrows p c).mp arrow).1) h h path)

/-- Nothing spends from a leaf. -/
theorem Leaf.childless (leaf : pool.Leaf tx) : ¬ (pool.store now tx fee).Feeds tx.data.hash c := by
  rintro ⟨parent, child, found, held, o, input, output⟩
  rw [find_store, Function.update_self, Option.some.injEq] at found
  subst found
  rw [find_store] at held
  by_cases same : c = tx.data.hash
  · subst same
    rw [Function.update_self, Option.some.injEq] at held
    subst held
    exact leaf.1 o input output
  · rw [Function.update_of_ne same] at held
    exact leaf.2 c child held o input output

/-- A stored transaction that is a leaf keeps the tracker exact. -/
theorem Ready.store_exact (ready : pool.Ready tx) (exact' : pool.Exact) (leaf : pool.Leaf tx) :
    (pool.store now tx fee).Exact := by
  obtain ⟨-, -, arrows⟩ := ready.store_arrow now fee
  have edges : ∀ p c, (pool.store now tx fee).dependencyTracker.graph.Arrow p c ↔
      (pool.store now tx fee).Feeds p c := by
    intro p c
    refine ⟨(ready.store_tracked now fee).sound p c, fun feeds => (arrows p c).mpr ?_⟩
    by_cases right : c = tx.data.hash
    · exact .inr ⟨right, feeds⟩
    · have left : p ≠ tx.data.hash := by
        rintro rfl
        exact leaf.childless now fee feeds
      exact .inl ((exact'.1 p c).mpr ((feeds_store now fee left right).mp feeds))
  refine ⟨edges, fun h path => ?_⟩
  -- a path that does not end in the new leaf does not pass through it
  have old : ∀ a b, TransGen (pool.store now tx fee).dependencyTracker.graph.Arrow a b →
      b ≠ tx.data.hash → TransGen pool.dependencyTracker.graph.Arrow a b := by
    intro a b path
    induction path with
    | single arrow =>
      intro other
      exact .single (((arrows _ _).mp arrow).resolve_right fun new => other new.1)
    | tail _ arrow ih =>
      intro other
      have before := ((arrows _ _).mp arrow).resolve_right fun new => other new.1
      refine (ih ?_).tail before
      rintro rfl
      exact (ready.tracked.nodes _).mp before.source ready.new
  by_cases same : h = tx.data.hash
  · obtain ⟨c, first, -⟩ := TransGen.head'_iff.mp path
    exact leaf.childless now fee ((edges _ c).mp (same ▸ first))
  · exact exact'.2 h (old h h path same)

/-- A stored transaction that leaves the tracker exact was a leaf. -/
theorem Ready.leaf_of_exact (ready : pool.Ready tx) (exact' : (pool.store now tx fee).Exact) :
    pool.Leaf tx := by
  obtain ⟨-, -, arrows⟩ := ready.store_arrow now fee
  have own : (pool.store now tx fee).find tx.data.hash = some tx := by
    rw [find_store, Function.update_self]
  refine ⟨fun o input output => ?_, fun c child held o input output => ?_⟩
  · have feeds : (pool.store now tx fee).Feeds tx.data.hash tx.data.hash :=
      ⟨tx, tx, own, own, o, input, output⟩
    exact exact'.2 _ (.single ((exact'.1 _ _).mpr feeds))
  · have other : c ≠ tx.data.hash := by
      rintro rfl
      rw [ready.new] at held
      cases held
    have held' : (pool.store now tx fee).find c = some child := by
      rw [find_store, Function.update_of_ne other]
      exact held
    rcases (arrows _ c).mp ((exact'.1 _ c).mpr ⟨tx, child, own, held', o, input, output⟩) with
      old | ⟨same, -⟩
    · exact (ready.tracked.nodes _).mp old.source ready.new
    · exact other same

end Store

/-- The new transaction displaces `p`: it spends an input of `p` or of a pool transaction that `p`
is tracked as a descendant of. -/
def Displaces (pool : MemPool) (tx : Transaction) (p : TransactionHash) : Prop :=
  ∃ r conflict, pool.find r = some conflict ∧
    (∃ o ∈ tx.spentOutpoints, o ∈ conflict.spentOutpoints) ∧
    ReflTransGen pool.dependencyTracker.graph.Arrow r p

/-- The evicted transactions are those that are displaced. -/
theorem mem_evictions_displaces (indexed : pool.storage.Indexed)
    (consistent : pool.dependencyTracker.Consistent) :
    h ∈ pool.evictions tx ↔ pool.Displaces tx h := by
  simp only [mem_evictions, mem_findConflicts, consistent.mem_getDescendants]
  constructor
  · rintro ⟨r, ⟨o, input, spender⟩, -, reached⟩
    obtain ⟨conflict, held, input'⟩ := (indexed.spending o r).mp spender
    exact ⟨r, conflict, held, ⟨o, input, input'⟩, reflTransGen_iff_eq_or_transGen.mpr reached⟩
  · rintro ⟨r, conflict, held, ⟨o, input, input'⟩, reached⟩
    refine ⟨r, ⟨o, input, (indexed.spending o r).mpr ⟨conflict, held, input'⟩⟩, ?_,
      reflTransGen_iff_eq_or_transGen.mp reached⟩
    change pool.storage.find r = some conflict at held
    simp [find, held]

/-- Where the tracker is exact, the evicted transactions are those that are replaced. -/
theorem mem_evictions_iff (indexed : pool.storage.Indexed) (tracked : pool.Tracked)
    (exact' : pool.Exact) : h ∈ pool.evictions tx ↔ pool.Replaces tx h := by
  have same : pool.dependencyTracker.graph.Arrow = pool.Feeds := by
    funext p c
    exact propext (exact'.1 p c)
  rw [mem_evictions_displaces indexed tracked.consistent, Displaces, same, Replaces]

/-- To enter as a leaf is to be a leaf once the replaced transactions are gone. -/
theorem entersAsLeaf_iff (indexed : pool.storage.Indexed) (tracked : pool.Tracked)
    (exact' : pool.Exact) :
    pool.EntersAsLeaf tx ↔ (pool.removeAll (pool.evictions tx)).Leaf tx := by
  unfold EntersAsLeaf Leaf
  refine and_congr_right fun _ => forall_congr' fun c => forall_congr' fun child => ?_
  have evicted : c ∈ pool.evictions tx ↔ pool.Replaces tx c :=
    mem_evictions_iff indexed tracked exact'
  rw [find_removeAll]
  constructor
  · intro replaced held o input output
    split at held
    · cases held
    · rename_i stays
      exact stays (evicted.mpr (replaced held ⟨o, input, output⟩))
  · rintro leaf held ⟨o, input, output⟩
    by_contra stays
    rw [← evicted] at stays
    exact leaf (by rw [if_neg stays]; exact held) o input output

theorem ready_admission (indexed : pool.storage.Indexed) (tracked : pool.Tracked)
    (new : pool.find tx.data.hash = none) : (pool.removeAll (pool.evictions tx)).Ready tx where
  tracked := tracked.removeAll _
  new := by rw [find_removeAll, new, ite_self]
  indexed now fee := indexed_admission indexed new now fee

theorem tracked_call (indexed : pool.storage.Indexed) (tracked : pool.Tracked) (call : Call) :
    (pool.call call).Tracked := by
  rcases pool.call_cases call with ⟨l, removed⟩ | ⟨lookup, now, tx, utxos, -, new, -, stored⟩
  · rw [removed]
    exact tracked.removeAll l
  · rw [stored]
    exact (ready_admission indexed tracked new).store_tracked now _

/-- A call keeps an exact tracker exact, unless it admits a transaction that is no leaf. -/
theorem exact_call (indexed : pool.storage.Indexed) (tracked : pool.Tracked) (exact' : pool.Exact)
    (call : Call) :
    (pool.call call).Exact ↔ ∀ lookup now tx, call = .addTransaction lookup now tx →
      (pool.addTransaction lookup now tx).1 = .ok () → pool.EntersAsLeaf tx := by
  cases call with
  | addTransaction lookup now tx =>
    simp only [Call.addTransaction.injEq, MemPool.call]
    rcases pool.addTransaction_cases lookup now tx with ⟨e, failed⟩ | ⟨utxos, new, -, done⟩
    · constructor
      · rintro - _ _ _ ⟨rfl, rfl, rfl⟩ admitted
        rw [failed] at admitted
        cases admitted
      · intro _
        rw [failed]
        exact exact'
    · have ready := ready_admission indexed tracked new
      constructor
      · rintro after _ _ _ ⟨rfl, rfl, rfl⟩ -
        rw [done] at after
        exact (entersAsLeaf_iff indexed tracked exact').mpr (ready.leaf_of_exact now _ after)
      · intro leaf
        have enters := leaf lookup now tx ⟨rfl, rfl, rfl⟩ (by rw [done])
        rw [done]
        exact ready.store_exact now _ (exact'.removeAll tracked _)
          ((entersAsLeaf_iff indexed tracked exact').mp enters)
  | removeTransaction h =>
    refine iff_of_true ?_ (by simp)
    rw [MemPool.call, removeTransaction_eq]
    exact exact'.removeAll tracked _
  | updateOnBlock block =>
    refine iff_of_true ?_ (by simp)
    rw [MemPool.call, updateOnBlock_eq]
    exact exact'.removeAll tracked _
  | cleanupExpired now =>
    refine iff_of_true ?_ (by simp)
    rcases pool.call_cases (.cleanupExpired now) with ⟨l, removed⟩ | ⟨_, _, _, _, same, -⟩
    · rw [removed]
      exact exact'.removeAll tracked l
    · cases same

/-- An exact tracker is what it is meant to be. -/
theorem mirrors_iff (tracked : pool.Tracked) : pool.Mirrors ↔ pool.Exact := by
  constructor
  · intro mirrors
    exact ⟨mirrors.edges, mirrors.acyclic⟩
  · intro exact'
    refine ⟨tracked.consistent.wellFormed.distinct, tracked.nodes, tracked.consistent.indices,
      exact'.1, exact'.2, fun h h' tx => ?_⟩
    have same : pool.dependencyTracker.graph.Arrow = pool.Feeds := by
      funext p c
      exact propext (exact'.1 p c)
    have gone : h' ∈ pool.dependencyTracker.getDescendants h ++ [h] ↔
        TransGen pool.Feeds h h' ∨ h' = h := by
      rw [List.mem_append, List.mem_singleton, tracked.consistent.mem_getDescendants, same]
    rw [removeTransaction_eq, find_removeAll]
    split
    · rename_i removed
      simp only [reduceCtorEq, false_iff]
      rintro ⟨-, other, apart⟩
      exact (gone.mp removed).elim apart other
    · rename_i stays
      rw [gone, not_or] at stays
      simp [stays]

/-- The tracker mirrors the spend relation in every state of a sequence of calls, whatever the
lookups answer, exactly when every admitted transaction enters as a leaf. -/
theorem tracker_mirrors (config : MemPoolConfig) (calls : List Call) :
    (∀ n, ((new config).run (calls.take n)).Mirrors) ↔ (new config).ParentsFirst calls := by
  have rest : ∀ (calls : List Call) (pool : MemPool), pool.storage.Indexed → pool.Tracked →
      pool.Exact → ((∀ n, (pool.run (calls.take n)).Mirrors) ↔ pool.ParentsFirst calls) := by
    intro calls
    induction calls with
    | nil =>
      intro pool _ tracked exact'
      simpa [ParentsFirst, run] using (mirrors_iff tracked).mpr exact'
    | cons call calls ih =>
      intro pool indexed tracked exact'
      have indexed' := indexed_call indexed call
      have tracked' := tracked_call indexed tracked call
      rw [ParentsFirst, ← exact_call indexed tracked exact']
      constructor
      · intro all
        have after : (pool.call call).Exact := (mirrors_iff tracked').mp (all 1)
        refine ⟨after, (ih _ indexed' tracked' after).mp fun n => ?_⟩
        exact all (n + 1)
      · rintro ⟨after, later⟩ n
        cases n with
        | zero => exact (mirrors_iff tracked).mpr exact'
        | succ n => exact (ih _ indexed' tracked' after).mpr later n
  exact rest calls _ TransactionStorage.indexed_empty (tracked_new config) (exact_new config)

end MemPool

namespace Sample

/-- The account 7 moves a coin to itself and pays from there. -/
def moved : Transaction := payment 7 [(coin 1).1] [⟨1000, ⟨7⟩⟩]

def paid : Transaction := payment 7 moved.outpoints [⟨900, ⟨8⟩⟩]

/-- The parent is confirmed and comes back after a reorganization, while its child stays. -/
def parentReturns : List MemPool.Call :=
  [.addTransaction (holding [coin 1]) 0 moved, .addTransaction (holding [coin 1]) 0 paid,
    .updateOnBlock ⟨[moved]⟩, .addTransaction (holding [coin 1]) 0 moved]

end Sample

open Sample in
/-- The returning parent has no edge to the child that stayed. -/
theorem tracker_misses_returning_parent :
    ¬ ∀ (config : MemPoolConfig) (calls : List MemPool.Call),
      ((MemPool.new config).run calls).Mirrors := by
  intro all
  have edges := (all poolConfig parentReturns).edges moved.data.hash paid.data.hash
  have feeds : ((MemPool.new poolConfig).run parentReturns).Feeds moved.data.hash paid.data.hash := by
    refine ⟨moved, paid, ?_, ?_, moved.outpoints.head (by decide), ?_, ?_⟩ <;> decide +kernel
  obtain ⟨i, j, edge, -⟩ := edges.mpr feeds
  have none' : ((MemPool.new poolConfig).run parentReturns).dependencyTracker.graph.edges = [] := by
    decide +kernel
  rw [none'] at edge
  cases edge

end StryiChain
