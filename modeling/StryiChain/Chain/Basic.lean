import StryiChain.Misc.Branching
import StryiChain.Storage.Lawful

/-!
# Chains of blocks

A chain is a list of blocks from genesis upwards, each at its own height and linked to the block
below. `Represents` says that the tables of a storage hold exactly such a chain as canonical,
with the work index, the undo records and the chain state that belong to it.
-/

namespace StryiChain

variable [Primitives]

/-- The cumulative work of a list of blocks. -/
def chainWork (w : List Block) : Nat := (w.map Block.work).sum

/-- A block that may stand above genesis. -/
def Block.Normal (b : Block) : Prop := b.header.isGenesis = false ∧ b.header.hashThreshold ≠ 0

/-- The height and hash by which a block is referred to. -/
def Block.point (b : Block) : UInt64 × BlockHash := (b.header.height, b.blockHash)

/-- A list of blocks from genesis upwards. -/
structure IsChain (w : List Block) : Prop where
  genesis : ∃ g, w[0]? = some g ∧ g.header.isGenesis = true ∧ verifyGenesisWorkShape g = .ok ()
  normal : ∀ {i : Nat} {b : Block}, w[i]? = some b → 0 < i → b.Normal
  height : ∀ {i : Nat} {b : Block}, w[i]? = some b → b.header.height.toNat = i
  linked : ∀ {i : Nat} {a b : Block}, w[i]? = some a → w[i + 1]? = some b →
    b.header.previousBlockHash = a.blockHash
  distinct : (w.map Block.blockHash).Nodup

/-- A block that stands directly above a chain. -/
structure Links (w : List Block) (b : Block) : Prop where
  linked : ∃ tip, w.getLast? = some tip ∧ b.header.previousBlockHash = tip.blockHash
  normal : b.Normal
  height : b.header.height.toNat = w.length

section Work

omit [Primitives]

@[simp] theorem chainWork_nil : chainWork [] = 0 := rfl

@[simp] theorem chainWork_append (w bs : List Block) :
    chainWork (w ++ bs) = chainWork w + chainWork bs := by simp [chainWork]

@[simp] theorem chainWork_cons (b : Block) (bs : List Block) :
    chainWork (b :: bs) = b.work + chainWork bs := by simp [chainWork]

theorem chainWork_take_le (w : List Block) (n : Nat) : chainWork (w.take n) ≤ chainWork w := by
  rw [← List.take_append_drop n w, chainWork_append, List.take_append_drop]
  exact Nat.le_add_right _ _

/-- The work of a chain that fits the heights fits a `U512` with room to spare. -/
theorem chainWork_le (w : List Block) : chainWork w ≤ w.length * 2 ^ 256 := by
  induction w with
  | nil => simp
  | cons b w ih =>
    have one := b.work_le
    rw [chainWork_cons, List.length_cons, Nat.succ_mul]
    omega

theorem chainWork_add_lt {w : List Block} (fits : w.length ≤ 2 ^ 64) (b : Block) :
    chainWork w + b.work < 2 ^ 512 := by
  calc chainWork w + b.work
      ≤ w.length * 2 ^ 256 + 2 ^ 256 := Nat.add_le_add (chainWork_le w) b.work_le
    _ = (w.length + 1) * 2 ^ 256 := (Nat.succ_mul _ _).symm
    _ < 2 ^ 256 * 2 ^ 256 := Nat.mul_lt_mul_of_pos_right (by omega) (Nat.two_pow_pos 256)
    _ = 2 ^ 512 := by rw [show (512 : Nat) = 256 + 256 from rfl, Nat.pow_add]

end Work

namespace IsChain

variable {w : List Block}

theorem ne_nil (chain : IsChain w) : w ≠ [] := by
  obtain ⟨g, first, -⟩ := chain.genesis
  rintro rfl
  simp at first

theorem length_pos (chain : IsChain w) : 0 < w.length :=
  List.length_pos_iff.mpr chain.ne_nil

/-- Positions are determined by hashes. -/
theorem position (chain : IsChain w) {i j : Nat} {a b : Block} (ha : w[i]? = some a)
    (hb : w[j]? = some b) (same : a.blockHash = b.blockHash) : i = j := by
  have inside : i < (w.map Block.blockHash).length := by
    rw [List.length_map]
    exact (List.getElem?_eq_some_iff.mp ha).1
  refine (List.getElem?_inj inside chain.distinct).mp ?_
  rw [List.getElem?_map, List.getElem?_map, ha, hb, Option.map_some, Option.map_some, same]

theorem eq_of_hash (chain : IsChain w) {a b : Block} (ha : a ∈ w) (hb : b ∈ w)
    (same : a.blockHash = b.blockHash) : a = b := by
  obtain ⟨i, hi⟩ := List.mem_iff_getElem?.mp ha
  obtain ⟨j, hj⟩ := List.mem_iff_getElem?.mp hb
  obtain rfl := chain.position hi hj same
  rw [hi, Option.some.injEq] at hj
  exact hj

/-- The lower part of a chain is a chain. -/
theorem left {p q : List Block} (chain : IsChain (p ++ q)) (ne : p ≠ []) : IsChain p := by
  have lift : ∀ {i : Nat} {b : Block}, p[i]? = some b → (p ++ q)[i]? = some b := by
    intro i b h
    rw [List.getElem?_append_left (List.getElem?_eq_some_iff.mp h).1, h]
  obtain ⟨g, first, marked⟩ := chain.genesis
  rw [List.getElem?_append_left (List.length_pos_iff.mpr ne)] at first
  refine ⟨⟨g, first, marked⟩, fun h => chain.normal (lift h), fun h => chain.height (lift h),
    fun ha hb => chain.linked (lift ha) (lift hb), ?_⟩
  have distinct := chain.distinct
  rw [List.map_append] at distinct
  exact distinct.of_append_left

theorem take {n : Nat} (chain : IsChain w) (pos : 0 < n) : IsChain (w.take n) := by
  have whole : IsChain (w.take n ++ w.drop n) := by rwa [List.take_append_drop]
  refine whole.left fun empty => ?_
  rcases List.take_eq_nil_iff.mp empty with zero | nil
  · omega
  · exact chain.ne_nil nil

/-- A block that follows the tip makes a longer chain. -/
theorem concat (chain : IsChain w) {tip b : Block} (last : w.getLast? = some tip)
    (normal : b.Normal) (linked : b.header.previousBlockHash = tip.blockHash)
    (height : b.header.height.toNat = w.length)
    (new : b.blockHash ∉ w.map Block.blockHash) : IsChain (w ++ [b]) := by
  obtain ⟨g, first, marked⟩ := chain.genesis
  refine ⟨⟨g, ?_, marked⟩, ?_, ?_, ?_, ?_⟩
  · rw [List.getElem?_append_left chain.length_pos, first]
  · intro i a h pos
    obtain ⟨-, old⟩ | ⟨-, rfl⟩ := getElem?_concat_cases h
    · exact chain.normal old pos
    · exact normal
  · intro i a h
    obtain ⟨-, old⟩ | ⟨rfl, rfl⟩ := getElem?_concat_cases h
    · exact chain.height old
    · exact height
  · intro i a a' ha ha'
    obtain ⟨inside, old⟩ | ⟨top, rfl⟩ := getElem?_concat_cases ha'
    · rw [List.getElem?_append_left (by omega)] at ha
      exact chain.linked ha old
    · rw [List.getElem?_append_left (by omega)] at ha
      rw [List.getLast?_eq_getElem?, ← top, Nat.add_sub_cancel, ha, Option.some.injEq] at last
      rw [last]
      exact linked
  · rw [List.map_append, List.nodup_append]
    refine ⟨chain.distinct, by simp, ?_⟩
    intro hash mem hash' mem'
    rw [List.map_singleton, List.mem_singleton] at mem'
    subst mem'
    exact fun same => new (same ▸ mem)

theorem links (chain : IsChain w) {b : Block} (links : Links w b)
    (new : b.blockHash ∉ w.map Block.blockHash) : IsChain (w ++ [b]) := by
  obtain ⟨tip, last, parent⟩ := links.linked
  exact chain.concat last links.normal parent links.height new

/-- The block above a lower part of the chain, and the top of that part. -/
theorem below {p q : List Block} {b : Block} (chain : IsChain (p ++ b :: q)) (ne : p ≠ []) :
    ∃ a, p.getLast? = some a ∧ b.header.previousBlockHash = a.blockHash ∧
      a.header.height.toNat + 1 = b.header.height.toNat := by
  have pos := List.length_pos_iff.mpr ne
  have at_b : (p ++ b :: q)[p.length]? = some b := by simp
  obtain ⟨a, last⟩ : ∃ a, p.getLast? = some a := by
    rw [← Option.isSome_iff_exists, List.getLast?_isSome]
    exact ne
  have at_a : (p ++ b :: q)[p.length - 1]? = some a := getElem?_append_last last
  have next : p.length - 1 + 1 = p.length := by omega
  refine ⟨a, last, chain.linked at_a (by rw [next, at_b]), ?_⟩
  rw [chain.height at_a, chain.height at_b, next]

/-- A block has another hash than the blocks below it. -/
theorem hash_ne {p q : List Block} {a b : Block} (chain : IsChain (p ++ b :: q)) (mem : a ∈ p) :
    a.blockHash ≠ b.blockHash := by
  have distinct := chain.distinct
  rw [List.map_append, List.nodup_append] at distinct
  exact distinct.2.2 a.blockHash (List.mem_map_of_mem mem) b.blockHash (by simp)

theorem height_eq_length {p q : List Block} {b : Block} (chain : IsChain (p ++ b :: q)) :
    b.header.height.toNat = p.length := chain.height (by simp)

end IsChain

end StryiChain
