import Mathlib.Data.List.Nodup
import Mathlib.Logic.Relation
import Mathlib.Tactic.Common

/-!
# Directed graphs with numbered nodes

A graph is a vector of node weights and a collection of edges between their indices. Removing a
node moves the last one into its place, so that indices do not stay valid; what stays is the
relation between the weights. A library of graphs is taken as given, and nothing is asked of the
order in which it keeps the edges.
-/

namespace StryiChain

open Relation

variable {α : Type}

/-- Removes the element at an index by moving the last one there. -/
def swapRemove (l : List α) (i : Nat) : List α :=
  match l.getLast? with
  | some last => (l.set i last).dropLast
  | none => []

theorem swapRemove_append_cons (before after : List α) (a b : α) :
    swapRemove (before ++ a :: (after ++ [b])) before.length = before ++ b :: after := by
  have last : (before ++ a :: (after ++ [b])).getLast? = some b := by
    rw [← List.cons_append, ← List.append_assoc, List.getLast?_append]
    simp
  rw [swapRemove, last]
  dsimp only
  rw [List.set_append_right _ _ (Nat.le_refl _), Nat.sub_self, List.set_cons_zero,
    ← List.cons_append, ← List.append_assoc, List.dropLast_concat]

theorem swapRemove_append_singleton (before : List α) (a : α) :
    swapRemove (before ++ [a]) before.length = before := by
  rw [swapRemove, List.getLast?_concat]
  dsimp only
  rw [List.set_append_right _ _ (Nat.le_refl _), Nat.sub_self, List.set_cons_zero,
    List.dropLast_concat]

/-- Everything but the removed element stays. -/
theorem perm_swapRemove {l : List α} {i : Nat} {a : α} (here : l[i]? = some a) :
    l.Perm (a :: swapRemove l i) := by
  obtain ⟨inside, at_i⟩ := List.getElem?_eq_some_iff.mp here
  have split : l = l.take i ++ a :: l.drop (i + 1) := by
    rw [← at_i, List.getElem_cons_drop, List.take_append_drop]
  have size : (l.take i).length = i := List.length_take_of_le (Nat.le_of_lt inside)
  generalize l.take i = before at split size
  generalize l.drop (i + 1) = after at split
  subst split size
  rcases List.eq_nil_or_concat after with rfl | ⟨after, b, rfl⟩
  · rw [swapRemove_append_singleton]
    exact List.perm_append_singleton a before
  · rw [List.concat_eq_append, swapRemove_append_cons]
    refine List.perm_middle.trans (List.Perm.cons a ?_)
    refine List.Perm.append_left before ?_
    exact List.perm_append_singleton b after

/-- Where the elements that stay are found. -/
theorem getElem?_swapRemove {l : List α} {i j : Nat} (inside : i < l.length) (other : j ≠ i)
    (bound : j < l.length) :
    (swapRemove l i)[if j = l.length - 1 then i else j]? = l[j]? := by
  have last : l.getLast? = some l[l.length - 1] := by
    rw [List.getLast?_eq_getElem?]
    exact List.getElem?_eq_getElem (by omega)
  rw [swapRemove, last]
  dsimp only
  split
  · rename_i same
    subst same
    rw [List.getElem?_dropLast, List.length_set, if_pos (by omega), List.getElem?_set,
      if_pos rfl, if_pos inside]
    exact (List.getElem?_eq_getElem bound).symm
  · rw [List.getElem?_dropLast, List.length_set, if_pos (by omega), List.getElem?_set,
      if_neg (Ne.symm other)]

/-- The new number of a node when another one is removed. -/
def renumber (size removed j : Nat) : Nat := if j = size - 1 then removed else j

/-- A library of directed graphs. A new node comes last; one that is removed takes its edges with
it and leaves its number to the last one. -/
class GraphLibrary where
  Graph : Type → Type
  empty {α : Type} : Graph α
  addNode {α : Type} : Graph α → α → Graph α
  addEdge {α : Type} : Graph α → Nat → Nat → Graph α
  removeNode {α : Type} : Graph α → Nat → Graph α
  nodes {α : Type} : Graph α → List α
  edges {α : Type} : Graph α → List (Nat × Nat)
  successors {α : Type} : Graph α → Nat → List Nat
  predecessors {α : Type} : Graph α → Nat → List Nat
  nodes_empty {α : Type} : nodes (empty : Graph α) = []
  edges_empty {α : Type} : edges (empty : Graph α) = []
  nodes_addNode {α : Type} (g : Graph α) (a : α) : nodes (addNode g a) = nodes g ++ [a]
  mem_edges_addNode {α : Type} (g : Graph α) (a : α) {e : Nat × Nat} :
    e ∈ edges (addNode g a) ↔ e ∈ edges g
  nodes_addEdge {α : Type} {g : Graph α} {i j : Nat} (source : i < (nodes g).length)
    (target : j < (nodes g).length) : nodes (addEdge g i j) = nodes g
  mem_edges_addEdge {α : Type} {g : Graph α} {i j : Nat} (source : i < (nodes g).length)
    (target : j < (nodes g).length) {e : Nat × Nat} :
    e ∈ edges (addEdge g i j) ↔ e = (i, j) ∨ e ∈ edges g
  nodes_removeNode {α : Type} {g : Graph α} {i : Nat} (inside : i < (nodes g).length) :
    nodes (removeNode g i) = swapRemove (nodes g) i
  mem_edges_removeNode {α : Type} {g : Graph α} {i : Nat} (inside : i < (nodes g).length)
    {e : Nat × Nat} : e ∈ edges (removeNode g i) ↔
      ∃ old ∈ edges g, old.1 ≠ i ∧ old.2 ≠ i ∧
        (renumber (nodes g).length i old.1, renumber (nodes g).length i old.2) = e
  mem_successors {α : Type} {g : Graph α} {i j : Nat} :
    j ∈ successors g i ↔ (i, j) ∈ edges g
  mem_predecessors {α : Type} {g : Graph α} {i j : Nat} :
    i ∈ predecessors g j ↔ (i, j) ∈ edges g

namespace Standard

/-- Two vectors. The newest edge comes first. -/
structure Graph (α : Type) where
  nodes : List α
  edges : List (Nat × Nat)

namespace Graph

def addNode (g : Graph α) (a : α) : Graph α := { g with nodes := g.nodes ++ [a] }

def addEdge (g : Graph α) (source target : Nat) : Graph α :=
  { g with edges := (source, target) :: g.edges }

def removeNode (g : Graph α) (i : Nat) : Graph α :=
  if i < g.nodes.length then
    { nodes := swapRemove g.nodes i
      edges := (g.edges.filter fun e => e.1 ≠ i ∧ e.2 ≠ i).map fun e =>
        (renumber g.nodes.length i e.1, renumber g.nodes.length i e.2) }
  else
    g

def successors (g : Graph α) (i : Nat) : List Nat :=
  (g.edges.filter fun e => e.1 = i).map Prod.snd

def predecessors (g : Graph α) (i : Nat) : List Nat :=
  (g.edges.filter fun e => e.2 = i).map Prod.fst

end Graph

end Standard

/-- Graphs of two vectors make a library. -/
@[reducible] def GraphLibrary.standard : GraphLibrary where
  Graph := Standard.Graph
  empty := ⟨[], []⟩
  addNode := Standard.Graph.addNode
  addEdge := Standard.Graph.addEdge
  removeNode := Standard.Graph.removeNode
  nodes := Standard.Graph.nodes
  edges := Standard.Graph.edges
  successors := Standard.Graph.successors
  predecessors := Standard.Graph.predecessors
  nodes_empty := rfl
  edges_empty := rfl
  nodes_addNode _ _ := rfl
  mem_edges_addNode _ _ := Iff.rfl
  nodes_addEdge _ _ := rfl
  mem_edges_addEdge _ _ := List.mem_cons
  nodes_removeNode inside := by rw [Standard.Graph.removeNode, if_pos inside]
  mem_edges_removeNode inside := by
    intro e
    rw [Standard.Graph.removeNode, if_pos inside, List.mem_map]
    simp only [List.mem_filter, ne_eq, decide_eq_true_eq, and_assoc]
  mem_successors := by simp [Standard.Graph.successors]
  mem_predecessors := by simp [Standard.Graph.predecessors]

variable [GraphLibrary]

/-- A directed graph of the library. -/
abbrev DiGraph (α : Type) : Type := GraphLibrary.Graph α

namespace DiGraph

def empty : DiGraph α := GraphLibrary.empty

def addNode (g : DiGraph α) (a : α) : DiGraph α := GraphLibrary.addNode g a

def addEdge (g : DiGraph α) (source target : Nat) : DiGraph α :=
  GraphLibrary.addEdge g source target

def removeNode (g : DiGraph α) (i : Nat) : DiGraph α := GraphLibrary.removeNode g i

/-- The weights of the nodes, in the order of their numbers. -/
def nodes (g : DiGraph α) : List α := GraphLibrary.nodes g

def edges (g : DiGraph α) : List (Nat × Nat) := GraphLibrary.edges g

/-- The weight of a node. -/
def nodeWeight (g : DiGraph α) (i : Nat) : Option α := g.nodes[i]?

/-- The targets of the edges that leave a node. -/
def successors (g : DiGraph α) (i : Nat) : List Nat := GraphLibrary.successors g i

/-- The sources of the edges that enter a node. -/
def predecessors (g : DiGraph α) (i : Nat) : List Nat := GraphLibrary.predecessors g i

variable {g : DiGraph α} {a b : α} {i j : Nat}

@[simp] theorem nodes_empty : (empty : DiGraph α).nodes = [] := GraphLibrary.nodes_empty

@[simp] theorem edges_empty : (empty : DiGraph α).edges = [] := GraphLibrary.edges_empty

@[simp] theorem nodes_addNode : (g.addNode a).nodes = g.nodes ++ [a] :=
  GraphLibrary.nodes_addNode g a

@[simp] theorem mem_edges_addNode {e : Nat × Nat} : e ∈ (g.addNode a).edges ↔ e ∈ g.edges :=
  GraphLibrary.mem_edges_addNode g a

@[simp] theorem mem_successors : j ∈ g.successors i ↔ (i, j) ∈ g.edges :=
  GraphLibrary.mem_successors

@[simp] theorem mem_predecessors : i ∈ g.predecessors j ↔ (i, j) ∈ g.edges :=
  GraphLibrary.mem_predecessors

theorem nodes_addEdge (source : i < g.nodes.length) (target : j < g.nodes.length) :
    (g.addEdge i j).nodes = g.nodes := GraphLibrary.nodes_addEdge source target

theorem nodeWeight_addEdge (source : i < g.nodes.length) (target : j < g.nodes.length) (k : Nat) :
    (g.addEdge i j).nodeWeight k = g.nodeWeight k := by
  rw [nodeWeight, nodeWeight, nodes_addEdge source target]

theorem mem_edges_addEdge (source : i < g.nodes.length) (target : j < g.nodes.length)
    {e : Nat × Nat} : e ∈ (g.addEdge i j).edges ↔ e = (i, j) ∨ e ∈ g.edges :=
  GraphLibrary.mem_edges_addEdge source target

theorem nodes_removeNode (inside : i < g.nodes.length) :
    (g.removeNode i).nodes = swapRemove g.nodes i := GraphLibrary.nodes_removeNode inside

theorem mem_edges_removeNode (inside : i < g.nodes.length) {e : Nat × Nat} :
    e ∈ (g.removeNode i).edges ↔ ∃ old ∈ g.edges, old.1 ≠ i ∧ old.2 ≠ i ∧
      (renumber g.nodes.length i old.1, renumber g.nodes.length i old.2) = e :=
  GraphLibrary.mem_edges_removeNode inside

theorem lt_of_nodeWeight (here : g.nodeWeight i = some a) : i < g.nodes.length :=
  (List.getElem?_eq_some_iff.mp here).1

/-- The weights are distinct, and the edges join nodes of the graph. -/
structure WellFormed (g : DiGraph α) : Prop where
  distinct : g.nodes.Nodup
  bound : ∀ e ∈ g.edges, e.1 < g.nodes.length ∧ e.2 < g.nodes.length

/-- An edge between two weights. -/
def Arrow (g : DiGraph α) (a b : α) : Prop :=
  ∃ i j, (i, j) ∈ g.edges ∧ g.nodeWeight i = some a ∧ g.nodeWeight j = some b

theorem wellFormed_empty : (empty : DiGraph α).WellFormed where
  distinct := by
    rw [nodes_empty]
    exact List.nodup_nil
  bound := by
    intro e mem
    rw [edges_empty] at mem
    cases mem

theorem not_arrow_empty : ¬ (empty : DiGraph α).Arrow a b := by
  rintro ⟨i, j, edge, -⟩
  rw [edges_empty] at edge
  cases edge

theorem Arrow.source (arrow : g.Arrow a b) : a ∈ g.nodes := by
  obtain ⟨i, j, -, source, -⟩ := arrow
  exact List.mem_of_getElem? source

theorem Arrow.target (arrow : g.Arrow a b) : b ∈ g.nodes := by
  obtain ⟨i, j, -, -, target⟩ := arrow
  exact List.mem_of_getElem? target

theorem mem_range_of_nodeWeight (here : g.nodeWeight i = some a) :
    i ∈ List.range g.nodes.length :=
  List.mem_range.mpr (lt_of_nodeWeight here)

/-- Distinct weights identify the index. -/
theorem WellFormed.index_eq (wf : g.WellFormed) (first : g.nodeWeight i = some a)
    (second : g.nodeWeight j = some a) : i = j := by
  obtain ⟨inside, at_i⟩ := List.getElem?_eq_some_iff.mp first
  obtain ⟨inside', at_j⟩ := List.getElem?_eq_some_iff.mp second
  exact (wf.distinct.getElem_inj_iff).mp (at_i.trans at_j.symm)

theorem WellFormed.addNode (wf : g.WellFormed) (new : a ∉ g.nodes) : (g.addNode a).WellFormed where
  distinct := by
    rw [nodes_addNode, List.nodup_append]
    refine ⟨wf.distinct, by simp, ?_⟩
    rintro x here y there rfl
    rw [List.mem_singleton] at there
    exact new (there ▸ here)
  bound := by
    intro e mem
    have := wf.bound e (mem_edges_addNode.mp mem)
    simp only [nodes_addNode, List.length_append]
    omega

theorem WellFormed.arrow_addNode (wf : g.WellFormed) (c : α) :
    (g.addNode c).Arrow a b ↔ g.Arrow a b := by
  have kept : ∀ e ∈ g.edges, (g.addNode c).nodeWeight e.1 = g.nodeWeight e.1 ∧
      (g.addNode c).nodeWeight e.2 = g.nodeWeight e.2 := by
    intro e mem
    have := wf.bound e mem
    simp only [nodeWeight, nodes_addNode]
    exact ⟨List.getElem?_append_left this.1, List.getElem?_append_left this.2⟩
  constructor
  · rintro ⟨i, j, edge, source, target⟩
    rw [mem_edges_addNode] at edge
    rw [(kept _ edge).1] at source
    rw [(kept _ edge).2] at target
    exact ⟨i, j, edge, source, target⟩
  · rintro ⟨i, j, edge, source, target⟩
    refine ⟨i, j, mem_edges_addNode.mpr edge, ?_, ?_⟩
    · rw [(kept _ edge).1]
      exact source
    · rw [(kept _ edge).2]
      exact target

theorem WellFormed.addEdge (wf : g.WellFormed) (source : i < g.nodes.length)
    (target : j < g.nodes.length) : (g.addEdge i j).WellFormed where
  distinct := by
    rw [nodes_addEdge source target]
    exact wf.distinct
  bound := by
    intro e mem
    rw [nodes_addEdge source target]
    rcases (mem_edges_addEdge source target).mp mem with rfl | mem
    · exact ⟨source, target⟩
    · exact wf.bound e mem

theorem arrow_addEdge (source : i < g.nodes.length) (target : j < g.nodes.length) :
    (g.addEdge i j).Arrow a b ↔ g.Arrow a b ∨ g.nodeWeight i = some a ∧ g.nodeWeight j = some b := by
  simp only [Arrow, mem_edges_addEdge source target, nodeWeight_addEdge source target]
  constructor
  · rintro ⟨i', j', same | edge, start', end'⟩
    · cases same
      exact .inr ⟨start', end'⟩
    · exact .inl ⟨i', j', edge, start', end'⟩
  · rintro (⟨i', j', edge, start', end'⟩ | ⟨start', end'⟩)
    · exact ⟨i', j', .inr edge, start', end'⟩
    · exact ⟨i, j, .inl rfl, start', end'⟩

section Remove

variable {c : α} (wf : g.WellFormed) (here : g.nodeWeight i = some c)

include here in
theorem perm_removeNode : g.nodes.Perm (c :: (g.removeNode i).nodes) := by
  rw [nodes_removeNode (lt_of_nodeWeight here)]
  exact perm_swapRemove here

include wf here in
theorem WellFormed.mem_removeNode : a ∈ (g.removeNode i).nodes ↔ a ∈ g.nodes ∧ a ≠ c := by
  have perm := perm_removeNode here
  have distinct := List.nodup_cons.mp (perm.nodup_iff.mp wf.distinct)
  rw [perm.mem_iff, List.mem_cons]
  constructor
  · intro mem
    exact ⟨.inr mem, fun same => distinct.1 (same ▸ mem)⟩
  · rintro ⟨same | mem, other⟩
    · exact absurd same other
    · exact mem

include here in
/-- The new index of a node that stays. -/
theorem nodeWeight_removeNode (other : j ≠ i) (bound : j < g.nodes.length) :
    (g.removeNode i).nodeWeight (renumber g.nodes.length i j) = g.nodeWeight j := by
  have inside := lt_of_nodeWeight here
  rw [nodeWeight, nodeWeight, nodes_removeNode inside]
  exact getElem?_swapRemove inside other bound

include wf here in
theorem WellFormed.removeNode : (g.removeNode i).WellFormed := by
  have inside := lt_of_nodeWeight here
  have perm := perm_removeNode here
  have size := perm.length_eq
  rw [List.length_cons] at size
  refine ⟨(List.nodup_cons.mp (perm.nodup_iff.mp wf.distinct)).2, fun e mem => ?_⟩
  obtain ⟨old, edge, left, right, rfl⟩ := (mem_edges_removeNode inside).mp mem
  have bound := wf.bound old edge
  dsimp only [renumber]
  constructor <;> split <;> omega

include wf here in
/-- Removing a node removes its edges, and no other relation between weights. -/
theorem WellFormed.arrow_removeNode :
    (g.removeNode i).Arrow a b ↔ g.Arrow a b ∧ a ≠ c ∧ b ≠ c := by
  have named : ∀ j d, g.nodeWeight j = some d → (j ≠ i ↔ d ≠ c) := by
    intro j d weight
    constructor
    · rintro other rfl
      exact other (wf.index_eq weight here)
    · rintro other rfl
      rw [here, Option.some.injEq] at weight
      exact other weight.symm
  have inside := lt_of_nodeWeight here
  constructor
  · rintro ⟨i', j', edge, source, target⟩
    obtain ⟨old, mem, left, right, same⟩ := (mem_edges_removeNode inside).mp edge
    have bound := wf.bound old mem
    cases same
    rw [nodeWeight_removeNode here left bound.1] at source
    rw [nodeWeight_removeNode here right bound.2] at target
    exact ⟨⟨old.1, old.2, mem, source, target⟩, (named _ _ source).mp left,
      (named _ _ target).mp right⟩
  · rintro ⟨⟨i', j', mem, source, target⟩, left, right⟩
    have left' := (named _ _ source).mpr left
    have right' := (named _ _ target).mpr right
    have bound := wf.bound _ mem
    refine ⟨renumber g.nodes.length i i', renumber g.nodes.length i j',
      (mem_edges_removeNode inside).mpr ⟨(i', j'), mem, left', right', rfl⟩, ?_, ?_⟩
    · rw [nodeWeight_removeNode here left' bound.1]
      exact source
    · rw [nodeWeight_removeNode here right' bound.2]
      exact target

end Remove

/-- Paths between indices are paths between weights. -/
theorem WellFormed.path_iff (wf : g.WellFormed) (source : g.nodeWeight i = some a) :
    TransGen g.Arrow a b ↔
      ∃ j, g.nodeWeight j = some b ∧ TransGen (fun i j => (i, j) ∈ g.edges) i j := by
  constructor
  · intro path
    induction path with
    | single arrow =>
      obtain ⟨i', j, edge, source', target⟩ := arrow
      rw [← wf.index_eq source source'] at edge
      exact ⟨j, target, .single edge⟩
    | tail _ arrow ih =>
      obtain ⟨j, middle, path⟩ := ih
      obtain ⟨j', k, edge, middle', target⟩ := arrow
      rw [← wf.index_eq middle middle'] at edge
      exact ⟨k, target, path.tail edge⟩
  · rintro ⟨j, target, path⟩
    induction path generalizing b with
    | single edge => exact .single ⟨i, _, edge, source, target⟩
    | tail _ edge ih =>
      have bound := (wf.bound _ edge).1
      exact (ih (List.getElem?_eq_getElem bound)).tail
        ⟨_, _, edge, List.getElem?_eq_getElem bound, target⟩

/-- The same for paths that may be empty. -/
theorem WellFormed.reflPath_iff (wf : g.WellFormed) (source : g.nodeWeight i = some a)
    (target : g.nodeWeight j = some b) :
    ReflTransGen g.Arrow a b ↔ ReflTransGen (fun i j => (i, j) ∈ g.edges) i j := by
  simp only [reflTransGen_iff_eq_or_transGen]
  rw [wf.path_iff source]
  constructor
  · rintro (rfl | ⟨j', target', path⟩)
    · exact .inl (wf.index_eq target source)
    · exact .inr (wf.index_eq target' target ▸ path)
  · rintro (rfl | path)
    · rw [source, Option.some.injEq] at target
      exact .inl target.symm
    · exact .inr ⟨j, target, path⟩

/-- A path between indices that ends in a weight comes from a weight. -/
theorem WellFormed.exists_path (wf : g.WellFormed) (target : g.nodeWeight j = some b)
    (path : ReflTransGen (fun i j => (i, j) ∈ g.edges) i j) :
    ∃ a, g.nodeWeight i = some a ∧ ReflTransGen g.Arrow a b := by
  have source : ∃ a, g.nodeWeight i = some a := by
    rcases ReflTransGen.cases_head path with rfl | ⟨k, edge, -⟩
    · exact ⟨b, target⟩
    · exact ⟨_, List.getElem?_eq_getElem (wf.bound _ edge).1⟩
  obtain ⟨a, source⟩ := source
  exact ⟨a, source, (wf.reflPath_iff source target).mpr path⟩

end DiGraph

end StryiChain
