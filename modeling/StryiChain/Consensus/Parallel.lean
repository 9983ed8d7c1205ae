import StryiChain.Consensus.Sequential
import StryiChain.Misc.Traversal

/-!
# The parallel groups of a block (`dependencies.rs:81-149`)

When the grouping loop ends and what it returns. Nothing in the loop stops it on a graph with a
cycle; that it ends for a block rests on the order that was checked before it.
-/

namespace StryiChain

namespace DependencyGraph

/-- The transaction at `later` spends an output of the transaction at `earlier`. -/
def Spends [Primitives] (block : BlockData) (later earlier : Nat) : Prop :=
  ∃ spender creator, block.transactions[later]? = some spender ∧
    block.transactions[earlier]? = some creator ∧
    ∃ o ∈ spender.spentOutpoints, o ∈ creator.createdUtxos.map Prod.fst

/-- The grouping loop as it is written (`dependencies.rs:119-149`), watched for a number of passes:
nothing, when it has not ended by then. -/
def groupWhile (graph : DependencyGraph) : Nat → List Nat → Option (List (List Nat))
  | 0, processed => if graph.nodeCount ≤ processed.length then some [] else none
  | passes + 1, processed =>
      if graph.nodeCount ≤ processed.length then
        some []
      else
        let group := graph.readyGroup processed
        (graph.groupWhile passes (processed ++ group)).map fun rest =>
          if group.isEmpty then rest else group :: rest

section Loop

variable {graph : DependencyGraph} {processed : List Nat}

/-- The loop over an ordered graph ends, with the groups of the bounded one: every pass makes the
positions that are left fewer. -/
theorem groupWhile_eq (ordered : graph.Ordered) (passes : Nat)
    (enough : graph.nodeCount ≤ processed.length + passes) :
    graph.groupWhile passes processed = some (graph.groupLoop passes processed) := by
  induction passes generalizing processed with
  | zero =>
    rw [Nat.add_zero] at enough
    rw [groupWhile, if_pos enough, groupLoop]
  | succ passes ih =>
    rw [groupWhile, groupLoop]
    by_cases done : graph.nodeCount ≤ processed.length
    · rw [if_pos done, if_pos done]
    · rw [if_neg done, if_neg done]
      have grows := List.length_pos_iff.mpr (readyGroup_ne_nil ordered (Nat.lt_of_not_le done))
      have rest := @ih (processed ++ graph.readyGroup processed) (by
        rw [List.length_append]
        omega)
      dsimp only
      rw [rest, Option.map_some]

/-- More passes than the loop takes change nothing. -/
theorem groupLoop_stable (ordered : graph.Ordered) (passes more : Nat)
    (enough : graph.nodeCount ≤ processed.length + passes) :
    graph.groupLoop (passes + more) processed = graph.groupLoop passes processed := by
  induction passes generalizing processed with
  | zero =>
    rw [Nat.add_zero] at enough
    rw [Nat.zero_add]
    cases more with
    | zero => rfl
    | succ more => simp only [groupLoop, if_pos enough]
  | succ passes ih =>
    rw [Nat.succ_add, groupLoop, groupLoop]
    by_cases done : graph.nodeCount ≤ processed.length
    · rw [if_pos done, if_pos done]
    · rw [if_neg done, if_neg done]
      have grows := List.length_pos_iff.mpr (readyGroup_ne_nil ordered (Nat.lt_of_not_le done))
      have rest := @ih (processed ++ graph.readyGroup processed) (by
        rw [List.length_append]
        omega)
      dsimp only
      rw [rest]

theorem groupLoop_ne_nil (passes : Nat) :
    ∀ group ∈ graph.groupLoop passes processed, group ≠ [] := by
  induction passes generalizing processed with
  | zero =>
    rw [groupLoop]
    simp
  | succ passes ih =>
    rw [groupLoop]
    intro group mem
    split at mem
    · cases mem
    · dsimp only at mem
      split at mem
      · exact ih group mem
      · rename_i inhabited
        cases List.mem_cons.mp mem with
        | inl same =>
          rw [same]
          rwa [List.isEmpty_iff] at inhabited
        | inr later => exact ih group later

/-- What a position of a group depends on is processed before the group. -/
theorem groupLoop_before (passes : Nat) {b : Nat} {group : List Nat}
    (at_b : (graph.groupLoop passes processed)[b]? = some group) {position creator : Nat}
    (mem : position ∈ group) (depends : creator ∈ graph.getTransactionDependencies position) :
    creator ∈ processed ∨
      ∃ a < b, ∃ earlier, (graph.groupLoop passes processed)[a]? = some earlier ∧
        creator ∈ earlier := by
  induction passes generalizing processed b with
  | zero =>
    rw [groupLoop] at at_b
    cases at_b
  | succ passes ih =>
    rw [groupLoop] at at_b ⊢
    by_cases done : graph.nodeCount ≤ processed.length
    · rw [if_pos done] at at_b
      cases at_b
    · rw [if_neg done] at at_b ⊢
      dsimp only at at_b ⊢
      by_cases empty : (graph.readyGroup processed).isEmpty = true
      · rw [if_pos empty] at at_b ⊢
        rw [List.isEmpty_iff] at empty
        rw [empty, List.append_nil] at at_b ⊢
        exact ih at_b
      · rw [if_neg empty] at at_b ⊢
        cases b with
        | zero =>
          rw [List.getElem?_cons_zero, Option.some.injEq] at at_b
          rw [← at_b] at mem
          exact .inl ((mem_readyGroup.mp mem).2.2 creator depends)
        | succ b =>
          rw [List.getElem?_cons_succ] at at_b
          cases ih at_b with
          | inl old =>
            cases List.mem_append.mp old with
            | inl before => exact .inl before
            | inr here => exact .inr ⟨0, Nat.succ_pos b, _, List.getElem?_cons_zero, here⟩
          | inr later =>
            obtain ⟨a, less, earlier, at_a, found⟩ := later
            exact .inr ⟨a + 1, Nat.succ_lt_succ less, earlier, at_a, found⟩

/-- Two groups that share a position are one group. -/
theorem index_unique {groups : List (List Nat)} (distinct : groups.flatten.Nodup) {a b : Nat}
    {group group' : List Nat} (at_a : groups[a]? = some group) (at_b : groups[b]? = some group')
    {position : Nat} (mem : position ∈ group) (mem' : position ∈ group') : a = b := by
  have apart := (List.nodup_flatten.mp distinct).2
  rw [List.pairwise_iff_getElem] at apart
  obtain ⟨inside, here⟩ := List.getElem?_eq_some_iff.mp at_a
  obtain ⟨inside', here'⟩ := List.getElem?_eq_some_iff.mp at_b
  cases Nat.lt_trichotomy a b with
  | inl less =>
    have disjoint := apart a b inside inside' less
    rw [here, here'] at disjoint
    exact absurd mem' (disjoint mem)
  | inr rest =>
    cases rest with
    | inl same => exact same
    | inr more =>
      have disjoint := apart b a inside' inside more
      rw [here, here'] at disjoint
      exact absurd mem (disjoint mem')

end Loop

section Block

variable [Primitives] {block : BlockData} {graph graph' : DependencyGraph}

omit [Primitives] in
theorem mem_positions {outpoints : Transaction → List OutPoint} {o : OutPoint} {position : Nat} :
    (o, position) ∈ positions outpoints block ↔
      ∃ tx, block.transactions[position]? = some tx ∧ o ∈ outpoints tx := by
  rw [positions, List.mem_flatMap]
  constructor
  · intro found
    obtain ⟨⟨tx, index⟩, mem, entry⟩ := found
    obtain ⟨o', inside, same⟩ := List.mem_map.mp entry
    rw [Prod.mk.injEq] at same
    rw [← same.1, ← same.2]
    exact ⟨tx, List.mem_zipIdx_iff_getElem?.mp mem, inside⟩
  · intro found
    obtain ⟨tx, at_position, inside⟩ := found
    exact ⟨(tx, position), List.mem_zipIdx_iff_getElem?.mpr at_position,
      List.mem_map.mpr ⟨o, inside, rfl⟩⟩

/-- One transaction spends from another one when an outpoint is an input there and an output
here. -/
theorem spends_iff {later earlier : Nat} : Spends block later earlier ↔
    ∃ o, (o, later) ∈ inputs block ∧ (o, earlier) ∈ outputs block := by
  simp only [inputs, outputs, mem_positions]
  constructor
  · intro spends
    obtain ⟨spender, creator, at_later, at_earlier, o, input, output⟩ := spends
    exact ⟨o, ⟨spender, at_later, input⟩, creator, at_earlier, output⟩
  · intro both
    obtain ⟨o, ⟨spender, at_later, input⟩, creator, at_earlier, output⟩ := both
    exact ⟨spender, creator, at_later, at_earlier, o, input, output⟩

/-- What `build` records of a block. -/
structure Records (block : BlockData) (graph : DependencyGraph) : Prop where
  count : graph.nodeCount = block.transactions.length
  creators : ∀ o creator, graph.outputIndex.read o = some creator ↔ (o, creator) ∈ outputs block
  dependencies : ∀ later earlier,
    earlier ∈ graph.getTransactionDependencies later ↔ Spends block later earlier

theorem build_records (built : build block = .ok graph) :
    Records block graph ∧ graph.spentOutputs = [] := by
  simp only [build, bind_eq_ok, pure_eq_ok] at built
  obtain ⟨index, indexed, rfl⟩ := built
  obtain ⟨-, creators⟩ := indexOutputs_eq_ok indexed
  obtain ⟨hindex, hspent, hcount, -, hedges⟩ := foldl_link (inputs block)
    { outputIndex := index, spentOutputs := [], externalInputs := [], edges := []
      nodeCount := block.transactions.length }
  refine ⟨⟨hcount, ?_, ?_⟩, hspent⟩
  · intro o creator
    rw [hindex]
    exact creators o creator
  · intro later earlier
    rw [getTransactionDependencies, List.mem_map, spends_iff]
    constructor
    · intro edge
      obtain ⟨⟨source, target⟩, mem, same⟩ := edge
      rw [List.mem_filter, hedges, decide_eq_true_iff] at mem
      cases mem.1 with
      | inl none => cases none
      | inr input =>
        obtain ⟨⟨o, position⟩, inside, created, spender⟩ := input
        rw [← same, ← mem.2]
        dsimp only at spender created
        rw [spender] at inside
        exact ⟨o, inside, (creators o source).mp created⟩
    · intro both
      obtain ⟨o, input, output⟩ := both
      refine ⟨(earlier, later), List.mem_filter.mpr ⟨?_, decide_eq_true rfl⟩, rfl⟩
      exact (hedges _).mpr (.inr ⟨(o, later), input, (creators o earlier).mpr output, rfl⟩)

/-- The order check passes over the inputs as they are in the block, and leaves the graph as it
is. -/
theorem validateOrder_iff (records : Records block graph) (fresh : graph.spentOutputs = []) :
    (∃ graph', graph.validateOrder block = .ok graph') ↔
      (block.transactions.flatMap Transaction.spentOutpoints).Nodup ∧
        ∀ later earlier, Spends block later earlier → earlier < later := by
  rw [← named_eq]
  constructor
  · intro checked
    obtain ⟨graph', run⟩ := checked
    obtain ⟨distinct, -, order, -⟩ := checkLoop_eq_ok run
    refine ⟨distinct, fun later earlier spends => ?_⟩
    obtain ⟨o, input, output⟩ := spends_iff.mp spends
    exact order (o, later) input earlier ((records.creators o earlier).mpr output)
  · intro both
    refine checkLoop_ok graph both.1 (by simp [fresh]) ?_
    intro input mem creator found
    exact both.2 input.2 creator
      (spends_iff.mpr ⟨input.1, mem, (records.creators input.1 creator).mp found⟩)

theorem validateOrder_records (records : Records block graph)
    (checked : graph.validateOrder block = .ok graph') :
    Records block graph' ∧ graph'.Ordered := by
  obtain ⟨-, -, order, frame⟩ := checkLoop_eq_ok checked
  have index := congrArg DependencyGraph.outputIndex frame
  have edges := congrArg DependencyGraph.edges frame
  have count := congrArg DependencyGraph.nodeCount frame
  have same : ∀ later, graph'.getTransactionDependencies later =
      graph.getTransactionDependencies later := by
    intro later
    rw [getTransactionDependencies, getTransactionDependencies]
    exact congrArg (fun edges => (edges.filter fun edge => edge.2 = later).map Prod.fst) edges
  refine ⟨⟨count.trans records.count, ?_, ?_⟩, ?_⟩
  · intro o creator
    rw [← records.creators]
    exact iff_of_eq (congrArg (fun index => Table.read index o = some creator) index)
  · intro later earlier
    rw [same, records.dependencies]
  · intro edge mem
    have depends : edge.1 ∈ graph'.getTransactionDependencies edge.2 :=
      List.mem_map.mpr ⟨edge, List.mem_filter.mpr ⟨mem, decide_eq_true rfl⟩, rfl⟩
    rw [same, records.dependencies, spends_iff] at depends
    obtain ⟨o, input, output⟩ := depends
    exact order (o, edge.2) input edge.1 ((records.creators o edge.1).mpr output)

/-- For a block whose graph is built, the order check passes exactly when no outpoint is an input
twice and every output is spent later than it is created. The grouping loop then ends: from as many
passes on as there are transactions it returns the same groups. None of them is empty, every
transaction stands in exactly one of them, and one that spends an output of another one stands in
a later group. -/
theorem parallel_groups (built : build block = .ok graph) :
    ((∃ graph', graph.validateOrder block = .ok graph') ↔
      (block.transactions.flatMap Transaction.spentOutpoints).Nodup ∧
        ∀ later earlier, Spends block later earlier → earlier < later) ∧
    ∀ graph', graph.validateOrder block = .ok graph' →
      (∀ passes, block.transactions.length ≤ passes →
        graph'.groupWhile passes [] = some graph'.getParallelExecutionGroups) ∧
      (∀ group ∈ graph'.getParallelExecutionGroups, group ≠ []) ∧
      graph'.getParallelExecutionGroups.flatten.Perm (List.range block.transactions.length) ∧
      ∀ later earlier, Spends block later earlier →
        ∀ (a b : Nat) (group group' : List Nat), graph'.getParallelExecutionGroups[a]? = some group →
          graph'.getParallelExecutionGroups[b]? = some group' → earlier ∈ group →
          later ∈ group' → a < b := by
  obtain ⟨records, fresh⟩ := build_records built
  refine ⟨validateOrder_iff records fresh, ?_⟩
  intro graph' checked
  obtain ⟨records', ordered⟩ := validateOrder_records records checked
  have perm := groups_perm ordered
  rw [records'.count] at perm
  have distinct := perm.nodup_iff.mpr List.nodup_range
  refine ⟨?ends, groupLoop_ne_nil _, perm, ?order⟩
  case ends =>
    intro passes enough
    rw [← records'.count] at enough
    have stable := @groupLoop_stable graph' [] ordered graph'.nodeCount
      (passes - graph'.nodeCount) (Nat.le_add_left _ _)
    rw [Nat.add_sub_cancel' enough] at stable
    rw [groupWhile_eq ordered passes (by rwa [List.length_nil, Nat.zero_add]), stable]
    rfl
  case order =>
    intro later earlier spends a b group group' at_a at_b mem mem'
    have depends := (records'.dependencies later earlier).mpr spends
    cases groupLoop_before _ at_b mem' depends with
    | inl none => cases none
    | inr before =>
      obtain ⟨c, less, found, at_c, here⟩ := before
      rwa [index_unique distinct at_a at_c mem here]

end Block

end DependencyGraph

namespace Sample

/-- Three payments: the second one spends what the first one creates. -/
def spendChain : BlockData :=
  let first := payment 7 [⟨⟨1⟩, 0⟩] [⟨10, ⟨7⟩⟩]
  ⟨[first, payment 7 [⟨first.data.hash, 0⟩] [⟨10, ⟨8⟩⟩], payment 9 [⟨⟨2⟩, 0⟩] []]⟩

end Sample

open Sample DependencyGraph in
/-- The third payment does not wait, the second one does. -/
theorem parallel_groups_sample : ∃ graph graph', build spendChain = .ok graph ∧
    graph.validateOrder spendChain = .ok graph' ∧
    graph'.groupWhile 3 [] = some [[0, 2], [1]] := by
  have evaluated : (build spendChain >>= fun graph => graph.validateOrder spendChain).toOption.any
      (fun graph => graph.getParallelExecutionGroups = [[0, 2], [1]]) = true := by
    decide +kernel
  obtain ⟨graph', run, groups⟩ := exists_ok_of_any evaluated
  obtain ⟨graph, built, checked⟩ := bind_eq_ok.mp run
  have ends := ((parallel_groups built).2 graph' checked).1 3 (by decide)
  rw [of_decide_eq_true groups] at ends
  exact ⟨graph, graph', built, checked, ends⟩

end StryiChain
