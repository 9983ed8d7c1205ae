import StryiChain.Storage.Traits

/-!
# Dependencies inside a block (`dependencies.rs`)

Which transaction of a block spends an output of which other one, and the groups of transactions
that do not depend on each other.
-/

namespace StryiChain

variable [Primitives]

/-- `DependencyGraph` (`dependencies.rs:11-22`). The graph has one node for each position of the
block and is kept as its list of edges, from creator to spender. -/
structure DependencyGraph where
  outputIndex : Table OutPoint Nat
  spentOutputs : List OutPoint
  externalInputs : List OutPoint
  edges : List (Nat × Nat)
  nodeCount : Nat

namespace DependencyGraph

/-- The transactions of a block with their positions, one entry for each outpoint that
`outpoints` names. -/
def positions (outpoints : Transaction → List OutPoint) (block : BlockData) :
    List (OutPoint × Nat) :=
  block.transactions.zipIdx.flatMap fun (tx, position) =>
    (outpoints tx).map fun outpoint => (outpoint, position)

/-- The outputs of a block in order, with the position of their transaction. -/
def outputs (block : BlockData) : List (OutPoint × Nat) :=
  positions (fun tx => tx.createdUtxos.map Prod.fst) block

/-- The inputs of a block in order, with the position of their transaction. -/
def inputs (block : BlockData) : List (OutPoint × Nat) :=
  positions Transaction.spentOutpoints block

/-- The loop that indexes the outputs (`dependencies.rs:43-58`). -/
def indexOutputs (block : BlockData) : Except StryiCoreError (Table OutPoint Nat) :=
  (outputs block).foldlM
    (fun (index : Table OutPoint Nat) (outpoint, position) => do
      failIf (index.read outpoint).isSome
        (.transactionDependencyError "Duplicate output detected")
      return AList.insert outpoint position index)
    ∅

/-- The loop that separates internal from external inputs (`dependencies.rs:60-77`). -/
def link (graph : DependencyGraph) (input : OutPoint × Nat) : DependencyGraph :=
  match graph.outputIndex.read input.1 with
  | some creator => { graph with edges := graph.edges ++ [(creator, input.2)] }
  | none => { graph with externalInputs := List.insert input.1 graph.externalInputs }

/-- `DependencyGraph::build` (`dependencies.rs:26-79`). -/
def build (block : BlockData) : Except StryiCoreError DependencyGraph := do
  let outputIndex ← indexOutputs block
  return (inputs block).foldl link
    { outputIndex, spentOutputs := [], externalInputs := [], edges := []
      nodeCount := block.transactions.length }

/-- One input of `validate_order` (`dependencies.rs:84-98`). -/
def checkInput (graph : DependencyGraph) (input : OutPoint × Nat) :
    Except StryiCoreError DependencyGraph := do
  failIf (input.1 ∈ graph.spentOutputs) (.transactionDependencyError "Double spend detected")
  failIf ((graph.outputIndex.read input.1).any fun creator => input.2 ≤ creator)
    (.transactionDependencyError "Invalid transaction order")
  return { graph with spentOutputs := input.1 :: graph.spentOutputs }

/-- `DependencyGraph::validate_order` (`dependencies.rs:81-101`). -/
def validateOrder (graph : DependencyGraph) (block : BlockData) :
    Except StryiCoreError DependencyGraph :=
  (inputs block).foldlM checkInput graph

/-- `DependencyGraph::get_transaction_dependencies`. -/
def getTransactionDependencies (graph : DependencyGraph) (position : Nat) : List Nat :=
  (graph.edges.filter fun edge => edge.2 = position).map Prod.fst

/-- One pass of the grouping loop: the transactions whose dependencies are all processed. -/
def readyGroup (graph : DependencyGraph) (processed : List Nat) : List Nat :=
  (List.range graph.nodeCount).filter fun position =>
    position ∉ processed ∧
      ∀ creator ∈ graph.getTransactionDependencies position, creator ∈ processed

/-- The grouping loop with a bound on its passes. A pass over an acyclic graph processes at least
one more transaction. -/
def groupLoop (graph : DependencyGraph) : Nat → List Nat → List (List Nat)
  | 0, _ => []
  | passes + 1, processed =>
      if graph.nodeCount ≤ processed.length then
        []
      else
        let group := graph.readyGroup processed
        let rest := graph.groupLoop passes (processed ++ group)
        if group.isEmpty then rest else group :: rest

/-- `DependencyGraph::get_parallel_execution_groups` (`dependencies.rs:119-149`). -/
def getParallelExecutionGroups (graph : DependencyGraph) : List (List Nat) :=
  graph.groupLoop graph.nodeCount []

end DependencyGraph

end StryiChain
