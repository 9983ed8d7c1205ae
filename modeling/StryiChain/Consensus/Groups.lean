import StryiChain.Consensus.Dependencies

/-!
# The dependency graph of a block

What the graph records of the inputs and outputs of a block, and that the parallel groups of an
ordered graph contain every position exactly once.
-/

namespace StryiChain

variable [Primitives]

namespace DependencyGraph

/-- The outpoints that a block creates, in order. -/
def created (data : BlockData) : List OutPoint := (outputs data).map Prod.fst

/-- The outpoints that a block names as inputs, in order. -/
def named (data : BlockData) : List OutPoint := (inputs data).map Prod.fst

/-- Every output is created before it is spent. -/
def Ordered (graph : DependencyGraph) : Prop := ∀ edge ∈ graph.edges, edge.1 < edge.2

section Index

omit [Primitives] in
/-- The indexing loop, started on a partly filled table. -/
theorem indexLoop_eq_ok {l : List (OutPoint × Nat)} {index index' : Table OutPoint Nat}
    (run : l.foldlM (fun (index : Table OutPoint Nat) entry => do
      failIf (index.read entry.1).isSome
        (StryiCoreError.transactionDependencyError "Duplicate output detected")
      return AList.insert entry.1 entry.2 index) index = .ok index') :
    (l.map Prod.fst).Nodup ∧ (∀ entry ∈ l, index.read entry.1 = none) ∧
      index'.read = putAll l index.read := by
  induction l generalizing index with
  | nil =>
    simp only [List.foldlM_nil, pure_eq_ok] at run
    subst run
    simp
  | cons entry l ih =>
    simp only [List.foldlM_cons, bind_eq_ok, failIf_eq_ok, pure_eq_ok] at run
    obtain ⟨next, ⟨-, absent, rfl⟩, rest⟩ := run
    obtain ⟨distinct, fresh, read⟩ := ih rest
    rw [Table.read_insert] at fresh read
    have others : ∀ other ∈ l, other.1 ≠ entry.1 ∧ index.read other.1 = none := by
      intro other mem
      have free := fresh other mem
      by_cases same : other.1 = entry.1
      · rw [same, Function.update_self] at free
        cases free
      · rw [Function.update_of_ne same] at free
        exact ⟨same, free⟩
    refine ⟨?_, ?_, by rw [read, putAll_cons]⟩
    · rw [List.map_cons, List.nodup_cons]
      refine ⟨fun mem => ?_, distinct⟩
      obtain ⟨other, hother, same⟩ := List.mem_map.mp mem
      exact (others other hother).1 same
    · intro other mem
      rcases List.mem_cons.mp mem with rfl | mem
      · simpa using absent
      · exact (others other mem).2

omit [Primitives] in
theorem indexLoop_ok {l : List (OutPoint × Nat)} {index : Table OutPoint Nat}
    (distinct : (l.map Prod.fst).Nodup) (fresh : ∀ entry ∈ l, index.read entry.1 = none) :
    ∃ index', l.foldlM (fun (index : Table OutPoint Nat) entry => do
      failIf (index.read entry.1).isSome
        (StryiCoreError.transactionDependencyError "Duplicate output detected")
      return AList.insert entry.1 entry.2 index) index = .ok index' := by
  induction l generalizing index with
  | nil => exact ⟨index, rfl⟩
  | cons entry l ih =>
    rw [List.map_cons, List.nodup_cons] at distinct
    have absent := fresh entry (by simp)
    have later : ∀ other ∈ l, Table.read (AList.insert entry.1 entry.2 index) other.1 = none := by
      intro other mem
      have differs : other.1 ≠ entry.1 := fun same => distinct.1 (same ▸ List.mem_map_of_mem mem)
      rw [Table.read_insert, Function.update_of_ne differs]
      exact fresh other (List.mem_cons_of_mem _ mem)
    obtain ⟨index', rest⟩ := ih distinct.2 later
    refine ⟨index', ?_⟩
    rw [List.foldlM_cons]
    simp only [absent, Option.isSome_none, Bool.false_eq_true, failIf_of_not _ not_false, bind_ok,
      pure_except]
    exact rest

/-- The index of the outputs exists when they are distinct, and says who created what. -/
theorem indexOutputs_eq_ok {data : BlockData} {index : Table OutPoint Nat}
    (run : indexOutputs data = .ok index) :
    (created data).Nodup ∧ ∀ o creator, index.read o = some creator ↔ (o, creator) ∈ outputs data := by
  obtain ⟨distinct, -, read⟩ := indexLoop_eq_ok run
  refine ⟨distinct, fun o creator => ?_⟩
  rw [read]
  constructor
  · intro found
    rcases putAll_eq_some found with mem | ⟨-, old⟩
    · exact mem
    · simp at old
  · intro mem
    exact putAll_of_mem distinct mem _

theorem indexOutputs_ok {data : BlockData} (distinct : (created data).Nodup) :
    ∃ index, indexOutputs data = .ok index :=
  indexLoop_ok distinct fun _ _ => Table.read_empty _

end Index

section Link

omit [Primitives]

/-- What the linking loop adds to a graph. -/
theorem foldl_link (l : List (OutPoint × Nat)) (graph : DependencyGraph) :
    (l.foldl link graph).outputIndex = graph.outputIndex ∧
    (l.foldl link graph).spentOutputs = graph.spentOutputs ∧
    (l.foldl link graph).nodeCount = graph.nodeCount ∧
    (∀ o, o ∈ (l.foldl link graph).externalInputs ↔ o ∈ graph.externalInputs ∨
      (o ∈ l.map Prod.fst ∧ graph.outputIndex.read o = none)) ∧
    (∀ edge, edge ∈ (l.foldl link graph).edges ↔ edge ∈ graph.edges ∨
      ∃ input ∈ l, graph.outputIndex.read input.1 = some edge.1 ∧ input.2 = edge.2) := by
  induction l generalizing graph with
  | nil => simp
  | cons input l ih =>
    obtain ⟨index, spent, count, external, edges⟩ := ih (graph.link input)
    cases creator : graph.outputIndex.read input.1 with
    | some position =>
      have step : graph.link input =
          { graph with edges := graph.edges ++ [(position, input.2)] } := by
        rw [link, creator]
      rw [List.foldl_cons]
      rw [step] at index spent count external edges ⊢
      refine ⟨index, spent, count, fun o => ?_, fun edge => ?_⟩
      · rw [external]
        constructor
        · rintro (old | ⟨mem, absent⟩)
          · exact .inl old
          · exact .inr ⟨by simp [mem], absent⟩
        · rintro (old | ⟨mem, absent⟩)
          · exact .inl old
          · rw [List.map_cons, List.mem_cons] at mem
            rcases mem with rfl | mem
            · rw [creator] at absent
              cases absent
            · exact .inr ⟨mem, absent⟩
      · rw [edges]
        simp only [List.mem_append, List.mem_cons, List.not_mem_nil, or_false,
          exists_eq_or_imp, creator, Option.some.injEq, or_assoc]
        refine or_congr_right (or_congr_left ?_)
        rw [Prod.ext_iff]
        exact and_congr eq_comm eq_comm
    | none =>
      have step : graph.link input =
          { graph with externalInputs := List.insert input.1 graph.externalInputs } := by
        rw [link, creator]
      rw [List.foldl_cons]
      rw [step] at index spent count external edges ⊢
      refine ⟨index, spent, count, fun o => ?_, fun edge => ?_⟩
      · rw [external, List.mem_insert_iff, List.map_cons, List.mem_cons]
        constructor
        · rintro ((rfl | old) | ⟨mem, absent⟩)
          · exact .inr ⟨.inl rfl, creator⟩
          · exact .inl old
          · exact .inr ⟨.inr mem, absent⟩
        · rintro (old | ⟨rfl | mem, absent⟩)
          · exact .inl (.inr old)
          · exact .inl (.inl rfl)
          · exact .inr ⟨mem, absent⟩
      · rw [edges]
        simp [creator]

end Link

section Order

omit [Primitives]

/-- The ordering loop, when it succeeds: only the set of spent outputs has grown. -/
theorem checkLoop_eq_ok {l : List (OutPoint × Nat)} {graph graph' : DependencyGraph}
    (run : l.foldlM checkInput graph = .ok graph') :
    (l.map Prod.fst).Nodup ∧ (∀ input ∈ l, input.1 ∉ graph.spentOutputs) ∧
      (∀ input ∈ l, ∀ creator, graph.outputIndex.read input.1 = some creator →
        creator < input.2) ∧ { graph' with spentOutputs := graph.spentOutputs } = graph := by
  induction l generalizing graph with
  | nil =>
    simp only [List.foldlM_nil, pure_eq_ok] at run
    subst run
    simp
  | cons input l ih =>
    simp only [List.foldlM_cons, bind_eq_ok, checkInput, failIf_eq_ok, pure_eq_ok] at run
    obtain ⟨next, ⟨-, new, -, ordered, rfl⟩, rest⟩ := run
    obtain ⟨distinct, fresh, order, frame⟩ := ih rest
    have first : ∀ creator, graph.outputIndex.read input.1 = some creator → creator < input.2 := by
      intro creator found
      rw [found] at ordered
      simpa using ordered
    refine ⟨?_, ?_, ?_, ?_⟩
    · rw [List.map_cons, List.nodup_cons]
      refine ⟨fun mem => ?_, distinct⟩
      obtain ⟨other, hother, same⟩ := List.mem_map.mp mem
      exact fresh other hother (by simp [same])
    · intro other mem
      rcases List.mem_cons.mp mem with rfl | mem
      · exact new
      · exact fun old => fresh other mem (List.mem_cons_of_mem _ old)
    · intro other mem
      rcases List.mem_cons.mp mem with rfl | mem
      · exact first
      · exact order other mem
    · have spent := congrArg (fun g : DependencyGraph =>
        { g with spentOutputs := graph.spentOutputs }) frame
      exact spent

theorem checkLoop_ok {l : List (OutPoint × Nat)} (graph : DependencyGraph)
    (distinct : (l.map Prod.fst).Nodup) (fresh : ∀ input ∈ l, input.1 ∉ graph.spentOutputs)
    (order : ∀ input ∈ l, ∀ creator, graph.outputIndex.read input.1 = some creator →
      creator < input.2) : ∃ graph', l.foldlM checkInput graph = .ok graph' := by
  induction l generalizing graph with
  | nil => exact ⟨graph, rfl⟩
  | cons input l ih =>
    rw [List.map_cons, List.nodup_cons] at distinct
    have ordered : ¬ ((graph.outputIndex.read input.1).any fun creator => input.2 ≤ creator) := by
      cases found : graph.outputIndex.read input.1 with
      | none => simp
      | some creator => simpa using order input (by simp) creator found
    have later : ∀ other ∈ l, other.1 ∉ input.1 :: graph.spentOutputs := by
      intro other mem
      rw [List.mem_cons, not_or]
      exact ⟨fun same => distinct.1 (same ▸ List.mem_map_of_mem mem),
        fresh other (List.mem_cons_of_mem _ mem)⟩
    obtain ⟨graph', rest⟩ := ih { graph with spentOutputs := input.1 :: graph.spentOutputs }
      distinct.2 later fun other mem => order other (List.mem_cons_of_mem _ mem)
    refine ⟨graph', ?_⟩
    rw [List.foldlM_cons]
    simp only [checkInput, failIf_of_not _ (fresh input (by simp)), failIf_of_not _ ordered,
      bind_ok, pure_except]
    exact rest

end Order

section Groups

omit [Primitives]

variable {graph : DependencyGraph}

theorem mem_readyGroup {processed : List Nat} {position : Nat} :
    position ∈ graph.readyGroup processed ↔ position < graph.nodeCount ∧ position ∉ processed ∧
      ∀ creator ∈ graph.getTransactionDependencies position, creator ∈ processed := by
  simp [readyGroup]

/-- As long as something is unprocessed, the first such position is ready. -/
theorem exists_ready (ordered : graph.Ordered) {processed : List Nat} {position : Nat}
    (inside : position < graph.nodeCount) (open' : position ∉ processed) :
    ∃ ready, ready ∈ graph.readyGroup processed := by
  induction position using Nat.strongRecOn with
  | ind position ih =>
    by_cases all : ∀ creator ∈ graph.getTransactionDependencies position, creator ∈ processed
    · exact ⟨position, mem_readyGroup.mpr ⟨inside, open', all⟩⟩
    · push Not at all
      obtain ⟨creator, depends, missing⟩ := all
      simp only [getTransactionDependencies, List.mem_map, List.mem_filter,
        decide_eq_true_eq] at depends
      obtain ⟨edge, ⟨mem, target⟩, rfl⟩ := depends
      have before := ordered edge mem
      rw [target] at before
      exact ih edge.1 before (by omega) missing

/-- A partial enumeration of the positions: none of them twice, and none beyond the last. -/
structure Enumerates (graph : DependencyGraph) (processed : List Nat) : Prop where
  distinct : processed.Nodup
  inside : ∀ position ∈ processed, position < graph.nodeCount

theorem Enumerates.nil (graph : DependencyGraph) : graph.Enumerates [] where
  distinct := List.nodup_nil
  inside := by simp

/-- The positions that are ready extend the enumeration. -/
theorem Enumerates.append {processed : List Nat} (enumerates : graph.Enumerates processed) :
    graph.Enumerates (processed ++ graph.readyGroup processed) where
  distinct := by
    rw [List.nodup_append]
    refine ⟨enumerates.distinct, List.nodup_range.filter _, ?_⟩
    intro position old other new same
    rw [same] at old
    exact (mem_readyGroup.mp new).2.1 old
  inside := by
    intro position mem
    cases List.mem_append.mp mem with
    | inl old => exact enumerates.inside position old
    | inr new => exact (mem_readyGroup.mp new).1

/-- An enumeration that is long enough is complete. -/
theorem Enumerates.perm {processed : List Nat} (enumerates : graph.Enumerates processed)
    (long : graph.nodeCount ≤ processed.length) :
    processed.Perm (List.range graph.nodeCount) := by
  have sub : processed.Subperm (List.range graph.nodeCount) :=
    List.subperm_of_subset enumerates.distinct fun position mem =>
      List.mem_range.mpr (enumerates.inside position mem)
  exact sub.perm_of_length_le (by rwa [List.length_range])

/-- As long as the loop goes on, a pass over an ordered graph finds something to process. -/
theorem readyGroup_ne_nil (ordered : graph.Ordered) {processed : List Nat}
    (short : processed.length < graph.nodeCount) : graph.readyGroup processed ≠ [] := by
  have left : ∃ position < graph.nodeCount, position ∉ processed := by
    by_contra all
    push Not at all
    have covered : (List.range graph.nodeCount).Subperm processed :=
      List.subperm_of_subset List.nodup_range fun position mem =>
        all position (List.mem_range.mp mem)
    have long := covered.length_le
    rw [List.length_range] at long
    omega
  obtain ⟨position, bound, missing⟩ := left
  obtain ⟨ready, found⟩ := exists_ready ordered bound missing
  exact List.ne_nil_of_mem found

/-- The grouping loop completes a partial enumeration of the positions. -/
theorem groupLoop_perm (ordered : graph.Ordered) (passes : Nat) {processed : List Nat}
    (enumerates : graph.Enumerates processed)
    (enough : graph.nodeCount ≤ processed.length + passes) :
    (processed ++ (graph.groupLoop passes processed).flatten).Perm
      (List.range graph.nodeCount) := by
  induction passes generalizing processed with
  | zero =>
    rw [groupLoop, List.flatten_nil, List.append_nil]
    exact enumerates.perm enough
  | succ passes ih =>
    rw [groupLoop]
    by_cases done : graph.nodeCount ≤ processed.length
    · rw [if_pos done, List.flatten_nil, List.append_nil]
      exact enumerates.perm done
    · rw [if_neg done]
      have inhabited := readyGroup_ne_nil ordered (Nat.lt_of_not_le done)
      have grows := List.length_pos_iff.mpr inhabited
      have rest := ih enumerates.append (by
        rw [List.length_append]
        omega)
      simp only [List.isEmpty_iff, inhabited, if_false, List.flatten_cons]
      rwa [List.append_assoc] at rest

/-- Every position stands in exactly one group. -/
theorem groups_perm (ordered : graph.Ordered) :
    graph.getParallelExecutionGroups.flatten.Perm (List.range graph.nodeCount) := by
  have all := groupLoop_perm ordered graph.nodeCount (.nil graph) (Nat.le_add_left _ _)
  rwa [List.nil_append] at all

end Groups

end DependencyGraph

end StryiChain
