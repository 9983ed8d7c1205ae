import StryiChain.Core.Block
import StryiChain.Misc.Merkle

/-!
# Merkle proofs (`merkletree.rs`)

The proofs of membership, and the tree of the source as an instance of the general one. A digest of
blake3 binds what it was computed from only as long as the strings that are really hashed do not
collide: those of the tree are the leaves and the pairs of its levels, those of a proof are the
claimed leaf and the pairs along the path.
-/

namespace StryiChain

section Proofs

variable [Primitives]

/-- `MerkleProof` (`merkletree.rs:40-46`). -/
structure MerkleProof where
  siblingHashes : List MerkleHash
  leafIndex : Nat
  deriving DecidableEq

namespace MerkleTree

/-- The loop of `generate_proof` over the levels below the root (`merkletree.rs:122-139`). The
`unwrap` of the last node would panic on an empty level, which no tree has. -/
def siblings : List (List MerkleHash) → Nat → Option (List MerkleHash)
  | [], _ => some []
  | level :: rest, index => do
      let siblingIndex := if index % 2 = 0 then index + 1 else index - 1
      let sibling ← (level[siblingIndex]?).or level.getLast?
      return sibling :: (← siblings rest (index / 2))

/-- `MerkleTree::generate_proof` (`merkletree.rs:113-145`). -/
def generateProof (tree : MerkleTree) (leafIndex : Nat) : Option MerkleProof :=
  match tree.levels with
  | [] => none
  | leaves :: above => do
      if leaves.length ≤ leafIndex then
        none
      else
        let siblingHashes ← siblings (leaves :: above).dropLast leafIndex
        return { siblingHashes, leafIndex }

end MerkleTree

namespace MerkleProof

open MerkleTree

/-- One step of the loop of `verify` over the digest and its position. -/
def fold (state : MerkleHash × Nat) (siblingHash : MerkleHash) : MerkleHash × Nat :=
  let (computedHash, index) := state
  (if index % 2 = 0 then combineHashes computedHash siblingHash
    else combineHashes siblingHash computedHash, index / 2)

/-- `MerkleProof::verify` (`merkletree.rs:182-201`). -/
def verify (proof : MerkleProof) (leafData : List UInt8) (expectedRoot : MerkleHash) : Bool :=
  let leaf : MerkleHash := ⟨Primitives.blake3 leafData⟩
  decide ((proof.siblingHashes.foldl fold (leaf, proof.leafIndex)).1 = expectedRoot)

end MerkleProof

namespace MerkleTree

/-- The bytes that `combine_hashes` hashes. -/
def nodeBytes (p : MerkleHash × MerkleHash) : List UInt8 := p.1.bytes ++ p.2.bytes

/-- The byte strings that `MerkleTree::new` hashes. -/
def hashed (leavesData : List (List UInt8)) : List (List UInt8) :=
  leavesData ++ (new leavesData).levels.flatMap fun level =>
    if 1 < level.length then (Merkle.pairs level).map nodeBytes else []

/-- The digests of the leaves. -/
def leafHashes (leavesData : List (List UInt8)) : List MerkleHash :=
  leavesData.map fun data => ⟨Primitives.blake3 data⟩

section Levels

variable {level leaves : List MerkleHash} {p : MerkleHash × MerkleHash} {d : MerkleHash}
  {passes index : Nat}

theorem nextLevel_eq (level : List MerkleHash) :
    nextLevel level = Merkle.next combineHashes level := by
  induction level using nextLevel.induct with
  | case1 left right rest ih =>
    rw [nextLevel, ih, Merkle.next, Merkle.next, Merkle.pairs, List.map_cons]
  | case2 last => rfl
  | case3 => rfl

/-- The next level is shorter, and not empty. -/
theorem length_next_le (several : 1 < level.length) (enough : level.length ≤ passes + 1) :
    (Merkle.next combineHashes level).length ≤ passes ∧ Merkle.next combineHashes level ≠ [] := by
  rw [← List.length_pos_iff, Merkle.length_next]
  omega

theorem buildLevels_succ (several : 1 < level.length) :
    buildLevels (passes + 1) level =
      level :: buildLevels passes (Merkle.next combineHashes level) := by
  rw [buildLevels, if_pos several, nextLevel_eq]

theorem buildLevels_of_le (single : level.length ≤ 1) : buildLevels passes level = [level] := by
  cases passes with
  | zero => rfl
  | succ passes => rw [buildLevels, if_neg (by omega)]

theorem exists_buildLevels_eq (passes : Nat) (level : List MerkleHash) :
    ∃ above, buildLevels passes level = level :: above := by
  cases passes with
  | zero => exact ⟨[], rfl⟩
  | succ passes =>
    rw [buildLevels]
    split
    · exact ⟨_, rfl⟩
    · exact ⟨[], rfl⟩

theorem head_mem_buildLevels (passes : Nat) (level : List MerkleHash) :
    level ∈ buildLevels passes level := by
  obtain ⟨above, built⟩ := exists_buildLevels_eq passes level
  rw [built]
  exact List.mem_cons_self

/-- The loop stores a level above each one it has stored. -/
theorem next_mem_buildLevels (enough : leaves.length ≤ passes)
    (stored : level ∈ buildLevels passes leaves) (several : 1 < level.length) :
    Merkle.next combineHashes level ∈ buildLevels passes leaves := by
  induction passes generalizing leaves with
  | zero =>
    rw [buildLevels, List.mem_singleton] at stored
    rw [stored] at several
    omega
  | succ passes ih =>
    by_cases more : 1 < leaves.length
    · rw [buildLevels_succ more, List.mem_cons] at stored ⊢
      rcases stored with rfl | above
      · exact .inr (head_mem_buildLevels _ _)
      · exact .inr (ih (length_next_le more enough).1 above)
    · rw [buildLevels_of_le (by omega), List.mem_singleton] at stored
      rw [stored] at several
      exact absurd several more

theorem mem_buildLevels (enough : leaves.length ≤ passes)
    (reached : Merkle.Level combineHashes leaves level) : level ∈ buildLevels passes leaves := by
  induction reached with
  | leaves => exact head_mem_buildLevels _ _
  | next _ several ih => exact next_mem_buildLevels enough ih several

/-- The loop ends in a level of one node. -/
theorem exists_root (ne : leaves ≠ []) (enough : leaves.length ≤ passes) :
    ∃ root, (buildLevels passes leaves).getLast? = some [root] ∧
      Merkle.Level combineHashes leaves [root] := by
  induction passes generalizing leaves with
  | zero => exact absurd (List.length_eq_zero_iff.mp (by omega)) ne
  | succ passes ih =>
    by_cases several : 1 < leaves.length
    · obtain ⟨shorter, inhabited⟩ := length_next_le several enough
      obtain ⟨root, last, reached⟩ := ih inhabited shorter
      refine ⟨root, ?_, reached.of_next several⟩
      rw [buildLevels_succ several, List.getLast?_cons, last]
      rfl
    · obtain ⟨root, rfl⟩ : ∃ root, leaves = [root] := by
        rw [← List.length_eq_one_iff]
        have := List.length_pos_iff.mpr ne
        omega
      rw [buildLevels_of_le (le_refl 1)]
      exact ⟨root, rfl, .leaves⟩

/-- The gathered siblings lead from a node to the root, by induction on the levels above it. -/
theorem exists_siblings (enough : level.length ≤ passes) (at_index : level[index]? = some d) :
    ∃ hashes, siblings (buildLevels passes level).dropLast index = some hashes ∧
      (buildLevels passes level).getLast? = some [Merkle.climb combineHashes d index hashes] := by
  induction passes generalizing level index d with
  | zero =>
    have inside := (List.getElem?_eq_some_iff.mp at_index).1
    omega
  | succ passes ih =>
    have inside := (List.getElem?_eq_some_iff.mp at_index).1
    by_cases several : 1 < level.length
    · have last := List.getLast?_eq_some_getLast
        (List.ne_nil_of_length_pos (by omega : 0 < level.length))
      obtain ⟨sibling, beside⟩ : ∃ sibling,
          (level[if index % 2 = 0 then index + 1 else index - 1]?).or level.getLast? =
            some sibling := by
        rw [last]
        cases level[if index % 2 = 0 then index + 1 else index - 1]? with
        | none => exact ⟨_, rfl⟩
        | some sibling => exact ⟨sibling, rfl⟩
      obtain ⟨hashes, gathered, ends⟩ :=
        ih (length_next_le several enough).1 (Merkle.getElem?_next at_index beside)
      refine ⟨sibling :: hashes, ?_, ?_⟩
      · have more : buildLevels passes (Merkle.next combineHashes level) ≠ [] :=
          List.ne_nil_of_mem (head_mem_buildLevels _ _)
        rw [buildLevels_succ several, List.dropLast_cons_of_ne_nil more, siblings, beside]
        simp only [Option.bind_eq_bind, Option.bind_some, gathered]
        rfl
      · rw [buildLevels_succ several, List.getLast?_cons, ends]
        rfl
    · obtain ⟨root, rfl⟩ : ∃ root, level = [root] := by
        rw [← List.length_eq_one_iff]
        omega
      obtain rfl : index = 0 := by simpa using inside
      rw [buildLevels_of_le (le_refl 1)]
      exact ⟨[], rfl, by rw [Merkle.climb, ← Option.some.inj at_index]; rfl⟩

end Levels

variable {leavesData : List (List UInt8)} {data x : List UInt8} {s : Set (List UInt8)}
  {p : MerkleHash × MerkleHash} {root : MerkleHash} {i : Nat}

theorem levels_of_ne_nil (ne : leavesData ≠ []) : (new leavesData).levels =
    buildLevels (leafHashes leavesData).length (leafHashes leavesData) := by
  rw [new, if_neg (by rwa [List.isEmpty_iff, List.map_eq_nil_iff])]
  rfl

theorem root_of_ne_nil (ne : leavesData ≠ []) : (new leavesData).root =
    (buildLevels (leafHashes leavesData).length (leafHashes leavesData)).getLast?.bind List.head? := by
  rw [new, if_neg (by rwa [List.isEmpty_iff, List.map_eq_nil_iff])]
  rfl

/-- The root is the upper end of the general tree. -/
theorem level_of_root (found : (new leavesData).root = some root) :
    leavesData ≠ [] ∧ Merkle.Level combineHashes (leafHashes leavesData) [root] := by
  by_cases empty : leavesData = []
  · rw [empty] at found
    cases found
  · have ne : leafHashes leavesData ≠ [] := fun none => empty (List.map_eq_nil_iff.mp none)
    obtain ⟨top, last, reached⟩ := exists_root ne (le_refl _)
    rw [root_of_ne_nil empty, last] at found
    rw [← Option.some.inj found]
    exact ⟨empty, reached⟩

theorem leaf_mem_hashed (mem : data ∈ leavesData) : data ∈ hashed leavesData :=
  List.mem_append_left _ mem

/-- The pairs of the general tree are hashed by the loop. -/
theorem nodeBytes_mem_hashed (combined : Merkle.Combined combineHashes (leafHashes leavesData) p) :
    nodeBytes p ∈ hashed leavesData := by
  obtain ⟨level, reached, several, mem⟩ := combined
  refine List.mem_append_right _ (List.mem_flatMap.mpr ⟨level, ?_, ?_⟩)
  · by_cases empty : leavesData = []
    · -- without leaves there is no level of two nodes
      subst empty
      have none := @mem_buildLevels _ _ _ 0 (le_refl _) reached
      rw [buildLevels, List.mem_singleton] at none
      rw [none] at several
      exact absurd several (by simp [leafHashes])
    · rw [levels_of_ne_nil empty]
      exact mem_buildLevels (le_refl _) reached
  · rw [if_pos several]
    exact List.mem_map_of_mem mem

/-- A root is the digest of a string that was hashed. -/
theorem exists_root_hashed (ne : leavesData ≠ []) :
    ∃ x ∈ hashed leavesData, (new leavesData).root = some ⟨Primitives.blake3 x⟩ := by
  have inhabited : leafHashes leavesData ≠ [] := fun none => ne (List.map_eq_nil_iff.mp none)
  obtain ⟨root, last, reached⟩ := exists_root inhabited (le_refl _)
  rw [root_of_ne_nil ne, last]
  rcases reached.mem_cases (List.mem_singleton_self _) with leaf | ⟨p, combined, rfl⟩
  · obtain ⟨x, mem, rfl⟩ := List.mem_map.mp leaf
    exact ⟨x, leaf_mem_hashed mem, rfl⟩
  · exact ⟨nodeBytes p, nodeBytes_mem_hashed combined, rfl⟩

omit [Primitives] in
theorem length_nodeBytes (p : MerkleHash × MerkleHash) : (nodeBytes p).length = 64 := by
  rw [nodeBytes, List.length_append, Hash.length_bytes, Hash.length_bytes]
  rfl

omit [Primitives] in
theorem nodeBytes_injective : Function.Injective nodeBytes := by
  intro p q same
  obtain ⟨left, right⟩ := List.append_inj same (by rw [Hash.length_bytes, Hash.length_bytes])
  exact Prod.ext (Hash.bytes_injective left) (Hash.bytes_injective right)

/-- Nodes bind their children where the digests do not collide. -/
theorem injOn_combineHashes (free : Set.InjOn Primitives.blake3 s) :
    Set.InjOn (fun p : MerkleHash × MerkleHash => combineHashes p.1 p.2) {p | nodeBytes p ∈ s} := by
  intro p inside q inside' same
  have digests : Primitives.blake3 (nodeBytes p) = Primitives.blake3 (nodeBytes q) :=
    congrArg Hash.data same
  exact nodeBytes_injective (free inside inside' digests)

/-- A leaf that is not as long as two digests is no node. -/
theorem leaf_ne_node (free : Set.InjOn Primitives.blake3 s) (inside : data ∈ s)
    (inside' : nodeBytes p ∈ s) (length : data.length ≠ 64) :
    (⟨Primitives.blake3 data⟩ : MerkleHash) ≠ combineHashes p.1 p.2 := by
  intro same
  have digests : Primitives.blake3 data = Primitives.blake3 (nodeBytes p) :=
    congrArg Hash.data same
  rw [free inside inside' digests, length_nodeBytes] at length
  exact length rfl

end MerkleTree

namespace MerkleProof

open MerkleTree

variable {leavesData : List (List UInt8)} {data : List UInt8} {root : MerkleHash} {i : Nat}

/-- What `generate_proof` returns for a tree that was built from leaves. -/
theorem generateProof_eq (ne : leavesData ≠ []) : (new leavesData).generateProof i =
    if leavesData.length ≤ i then none
    else (siblings (buildLevels (leafHashes leavesData).length (leafHashes leavesData)).dropLast
      i).map fun siblingHashes => { siblingHashes, leafIndex := i } := by
  obtain ⟨above, built⟩ :=
    exists_buildLevels_eq (leafHashes leavesData).length (leafHashes leavesData)
  have length : (leafHashes leavesData).length = leavesData.length := List.length_map _
  rw [generateProof, levels_of_ne_nil ne, built]
  dsimp only
  rw [length]
  split
  · rfl
  · cases siblings (leafHashes leavesData :: above).dropLast i with
    | none => rfl
    | some hashes => rfl

theorem generateProof_of_le (outside : leavesData.length ≤ i) :
    (new leavesData).generateProof i = none := by
  by_cases empty : leavesData = []
  · rw [empty]
    rfl
  · rw [generateProof_eq empty, if_pos outside]

/-- The byte strings that `verify` hashes. -/
def hashed (proof : MerkleProof) (leafData : List UInt8) : List (List UInt8) :=
  leafData :: (Merkle.path combineHashes ⟨Primitives.blake3 leafData⟩ proof.leafIndex
    proof.siblingHashes).map nodeBytes

theorem foldl_fold (digest : MerkleHash) (index : Nat) (siblingHashes : List MerkleHash) :
    (siblingHashes.foldl fold (digest, index)).1 =
      Merkle.climb combineHashes digest index siblingHashes := by
  induction siblingHashes generalizing digest index with
  | nil => rfl
  | cons sibling rest ih =>
    rw [List.foldl_cons, Merkle.climb, ← ih]
    rfl

theorem verify_iff {proof : MerkleProof} :
    proof.verify data root = true ↔
      Merkle.climb combineHashes ⟨Primitives.blake3 data⟩ proof.leafIndex proof.siblingHashes =
        root := by
  rw [verify, decide_eq_true_iff, foldl_fold]

/-- Every leaf has a proof. -/
theorem exists_proof (at_i : leavesData[i]? = some data) :
    ∃ root proof, (new leavesData).root = some root ∧
      (new leavesData).generateProof i = some proof ∧ proof.verify data root = true := by
  have ne : leavesData ≠ [] := List.ne_nil_of_mem (List.mem_of_getElem? at_i)
  have inside := (List.getElem?_eq_some_iff.mp at_i).1
  have leaf : (leafHashes leavesData)[i]? = some ⟨Primitives.blake3 data⟩ := by
    rw [leafHashes, List.getElem?_map, at_i, Option.map_some]
  obtain ⟨hashes, gathered, last⟩ := exists_siblings (le_refl (leafHashes leavesData).length) leaf
  refine ⟨_, ⟨hashes, i⟩, by rw [root_of_ne_nil ne, last]; rfl, ?_, verify_iff.mpr rfl⟩
  rw [generateProof_eq ne, if_neg (by omega), gathered, Option.map_some]

/-- A path that ends in the root starts in a leaf. -/
theorem mem_of_verify {proof : MerkleProof} (found : (new leavesData).root = some root)
    (sizes : ∀ x ∈ leavesData, x.length ≠ 64) (size : data.length ≠ 64)
    (free : Set.InjOn Primitives.blake3 {x | x ∈ MerkleTree.hashed leavesData ∨ x ∈ proof.hashed data})
    (accepted : proof.verify data root = true) : data ∈ leavesData := by
  rw [verify_iff] at accepted
  obtain ⟨-, reached⟩ := level_of_root found
  have own : data ∈ proof.hashed data := List.mem_cons_self
  have onPath : ∀ p ∈ Merkle.path combineHashes ⟨Primitives.blake3 data⟩ proof.leafIndex
      proof.siblingHashes, nodeBytes p ∈ proof.hashed data :=
    fun p mem => List.mem_cons_of_mem _ (List.mem_map_of_mem mem)
  have leaf : (⟨Primitives.blake3 data⟩ : MerkleHash) ∈ leafHashes leavesData := by
    refine Merkle.mem_leaves_of_climb ((injOn_combineHashes free).mono ?_) ?_ ?_ reached accepted
    · intro p used
      exact used.imp nodeBytes_mem_hashed (onPath p)
    · intro digest mem p inside
      obtain ⟨x, stored, rfl⟩ := List.mem_map.mp mem
      exact leaf_ne_node free (.inl (leaf_mem_hashed stored)) (.inr (onPath p inside))
        (sizes x stored)
    · intro p combined
      exact leaf_ne_node free (.inr own) (.inl (nodeBytes_mem_hashed combined)) size
  obtain ⟨x, stored, same⟩ := List.mem_map.mp leaf
  have digests : Primitives.blake3 x = Primitives.blake3 data := congrArg Hash.data same
  rw [← free (.inl (leaf_mem_hashed stored)) (.inr own) digests]
  exact stored

end MerkleProof

open MerkleTree in
/-- Merkle proofs: every leaf of a tree has a proof that verifies against the root, there is none for
an index out of range, and whatever proof verifies, its data is a leaf, unless two of the strings
hashed by the tree and by the verification collide. -/
theorem merkle_proofs (leavesData : List (List UInt8)) :
    (∀ i data, leavesData[i]? = some data → ∃ root proof, (new leavesData).root = some root ∧
      (new leavesData).generateProof i = some proof ∧ proof.verify data root = true) ∧
    (∀ (proof : MerkleProof) (data : List UInt8) (root : MerkleHash),
      (new leavesData).root = some root → (∀ x ∈ leavesData, x.length ≠ 64) → data.length ≠ 64 →
      Set.InjOn Primitives.blake3 {x | x ∈ hashed leavesData ∨ x ∈ proof.hashed data} →
      proof.verify data root = true → data ∈ leavesData) ∧
    ∀ i, leavesData.length ≤ i → (new leavesData).generateProof i = none :=
  ⟨fun _ _ at_i => MerkleProof.exists_proof at_i,
    fun _ _ _ found sizes size free accepted =>
      MerkleProof.mem_of_verify found sizes size free accepted,
    fun _ outside => MerkleProof.generateProof_of_le outside⟩

end Proofs

open Sample MerkleTree in
/-- Three leaves, the last of which is padded. -/
theorem merkle_proofs_sample : ∃ root proof, (new [[1], [2], [3]]).root = some root ∧
    (new [[1], [2], [3]]).generateProof 2 = some proof ∧ proof.verify [3] root = true ∧
    [3] ∈ ([[1], [2], [3]] : List (List UInt8)) ∧ (new [[1], [2], [3]]).generateProof 3 = none := by
  obtain ⟨complete, sound, outside⟩ := merkle_proofs [[1], [2], [3]]
  obtain ⟨root, proof, found, generated, accepted⟩ := complete 2 [3] rfl
  have distinct : ((new [[1], [2], [3]]).generateProof 2).any (fun proof =>
      decide (∀ x ∈ hashed [[1], [2], [3]] ++ proof.hashed [3],
        ∀ y ∈ hashed [[1], [2], [3]] ++ proof.hashed [3],
          Primitives.blake3 x = Primitives.blake3 y → x = y)) = true := by decide +kernel
  rw [generated, Option.any_some, decide_eq_true_iff] at distinct
  have free : Set.InjOn Primitives.blake3
      {x | x ∈ hashed [[1], [2], [3]] ∨ x ∈ proof.hashed [3]} :=
    fun x mem y mem' => distinct x (List.mem_append.mpr mem) y (List.mem_append.mpr mem')
  exact ⟨root, proof, found, generated, accepted,
    sound proof [3] root found (by decide) (by decide) free accepted, outside 3 (by decide)⟩

end StryiChain
