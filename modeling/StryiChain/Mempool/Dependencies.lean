import StryiChain.Core.Transaction
import StryiChain.Misc.Table
import StryiChain.Misc.Traversal

/-!
# Dependencies between pool transactions (`mempool/dependencies.rs`)

A graph with one node for each pool transaction and an edge from a parent to each child, with an
index from hashes to nodes that is rebuilt whenever a node is removed. The order in which a node
lists its edges is left open, as the order of a hash map is. Nodes are numbered without the bound of
2^32 that the index type of `petgraph` has.
-/

namespace StryiChain

variable [Primitives]

/-- `petgraph::Direction`. -/
inductive Direction where
  | outgoing
  | incoming

/-- `DependencyTracker`. -/
structure DependencyTracker where
  graph : DiGraph TransactionHash
  indices : Table TransactionHash Nat

namespace DependencyTracker

/-- `DependencyTracker::default`. -/
def empty : DependencyTracker := ⟨.empty, ∅⟩

/-- The edge to a parent (`dependencies.rs:27-31`): a hash without a node is passed over. -/
def addParent (indices : Table TransactionHash Nat) (child : Nat)
    (graph : DiGraph TransactionHash) (parentHash : TransactionHash) : DiGraph TransactionHash :=
  match indices.read parentHash with
  | some parent => graph.addEdge parent child
  | none => graph

/-- `add_transaction` (`dependencies.rs:19-32`). -/
def addTransaction (tracker : DependencyTracker) (childHash : TransactionHash)
    (parentHashes : List TransactionHash) : DependencyTracker :=
  let child := tracker.graph.nodes.length
  let indices := AList.insert childHash child tracker.indices
  { graph := parentHashes.foldl (addParent indices child) (tracker.graph.addNode childHash)
    indices }

/-- `rebuild_indices` (`dependencies.rs:141-149`). -/
def rebuildIndices (graph : DiGraph TransactionHash) : DependencyTracker where
  graph := graph
  indices := Table.insertAll graph.nodes.zipIdx ∅

/-- `remove_transaction` (`dependencies.rs:34-41`). -/
def removeTransaction (tracker : DependencyTracker) (txHash : TransactionHash) :
    DependencyTracker :=
  match tracker.indices.read txHash with
  | none => tracker
  | some index => rebuildIndices (tracker.graph.removeNode index)

/-- The far ends of `edges_directed`. -/
def edgesDirected (tracker : DependencyTracker) : Direction → Nat → List Nat
  | .outgoing, index => iter (tracker.graph.successors index)
  | .incoming, index => iter (tracker.graph.predecessors index)

/-- The hashes of a list of nodes. -/
def hashes (tracker : DependencyTracker) (nodes : List Nat) : List TransactionHash :=
  nodes.filterMap tracker.graph.nodeWeight

/-- `walk_hashes` (`dependencies.rs:77-103`). Every node enters the queue at most once after the
start, so the loop ends after as many turns as there are nodes, and one. -/
def walkHashes (tracker : DependencyTracker) (txHash : TransactionHash) (direction : Direction) :
    List TransactionHash :=
  match tracker.indices.read txHash with
  | none => []
  | some start =>
      tracker.hashes (Walk.run (tracker.edgesDirected direction)
        ((List.range tracker.graph.nodes.length).length + 1) ⟨[], [start]⟩).visited

/-- `get_descendants`. -/
def getDescendants (tracker : DependencyTracker) (txHash : TransactionHash) :
    List TransactionHash :=
  tracker.walkHashes txHash .outgoing

/-- `gather_with_ancestors` (`dependencies.rs:105-121`). A node pushes its incoming edges once. -/
def gatherWithAncestors (tracker : DependencyTracker) (start : Nat) : List Nat :=
  let next := tracker.edgesDirected .incoming
  gather next (1 + openEdges next (List.range tracker.graph.nodes.length) []) [start] []

/-- `get_with_ancestors` (`dependencies.rs:47-57`). -/
def getWithAncestors (tracker : DependencyTracker) (txHash : TransactionHash) :
    List TransactionHash :=
  match tracker.indices.read txHash with
  | none => []
  | some start => tracker.hashes (tracker.gatherWithAncestors start)

/-- `topological_order` (`dependencies.rs:60-75`) with `dfs_topo` (`dependencies.rs:123-139`),
which is never deeper than there are nodes. -/
def topologicalOrder (tracker : DependencyTracker) : List TransactionHash :=
  let nodes := List.range tracker.graph.nodes.length
  tracker.hashes
    (dfsAll (tracker.edgesDirected .outgoing) (nodes.length + 1) nodes ⟨[], []⟩).finished.reverse

end DependencyTracker

end StryiChain
