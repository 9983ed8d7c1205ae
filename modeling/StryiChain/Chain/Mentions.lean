import StryiChain.Chain.Spending

/-!
# What a transition does to one outpoint

An admitted block creates an outpoint, spends it, or does not mention it. Once the blocks of a
branch are attached, the last one that mentions the outpoint decides whether it is unspent. Blocks
that are rewound are undone from the top, so the first one decides.
-/

namespace StryiChain

variable [Primitives]

/-- How a block mentions an outpoint. -/
inductive Mention where
  | created
  | spent
  deriving DecidableEq

def mention (o : OutPoint) (b : Block) : Option Mention :=
  if o ∈ createdBy b.data.transactions then
    some .created
  else if o ∈ paymentInputsOf b.data.transactions then
    some .spent
  else
    none

def firstMention (o : OutPoint) (bs : List Block) : Option Mention := bs.findSome? (mention o)

def lastMention (o : OutPoint) (bs : List Block) : Option Mention :=
  bs.reverse.findSome? (mention o)

/-- The outpoint is not unspent after a transition from the UTXO set `m`. -/
inductive Lost (m : Coins) (detached attached : List Block) (o : OutPoint) : Prop
  | spent (last : lastMention o attached = some .spent)
  | detached (unmentioned : lastMention o attached = none)
      (first : firstMention o detached = some .created)
  | absent (unmentioned : lastMention o attached = none)
      (untouched : firstMention o detached = none) (before : m o = none)

variable {rules : ConsensusConsts} {m : Coins} {b : Block} {o : OutPoint} {p q bs : List Block}

theorem firstMention_cons (o : OutPoint) (b : Block) (bs : List Block) :
    firstMention o (b :: bs) = (mention o b).or (firstMention o bs) := by
  rw [firstMention, List.findSome?_cons]
  cases mention o b <;> rfl

theorem lastMention_concat (o : OutPoint) (bs : List Block) (b : Block) :
    lastMention o (bs ++ [b]) = (mention o b).or (lastMention o bs) := by
  rw [lastMention, List.reverse_append, List.reverse_singleton, List.singleton_append]
  exact firstMention_cons o b bs.reverse

/-- The outpoints that an admitted block leaves behind. -/
theorem Accepted.mem_created (accepted : Accepted rules m b) :
    o ∈ b.created.keys ↔ o ∈ createdBy b.data.transactions := by
  rw [(scan_block accepted.external).2, Table.mem_keys_iff, createdBy, ← List.map_flatMap]
  rw [← Option.ne_none_iff_exists', Table.read_insertAll, Ne, putAll_eq_none]
  simp

/-- An outpoint after an admitted block. -/
theorem Accepted.apply_ne_none (accepted : Accepted rules m b) (m' : Coins) :
    Coins.apply b m' o ≠ none ↔
      mention o b = some .created ∨ mention o b = none ∧ m' o ≠ none := by
  by_cases created : o ∈ createdBy b.data.transactions
  · have present : Coins.apply b m' o ≠ none :=
      Coins.apply_created_ne_none (accepted.mem_created.mpr created)
    simp [mention, created, present]
  · have outside : o ∉ b.created.toPairs.map Prod.fst := by
      rw [Table.toPairs_keys, accepted.mem_created]
      exact created
    rw [Coins.apply, putAll_of_notMem outside, (scan_block accepted.external).1]
    by_cases spent : o ∈ paymentInputsOf b.data.transactions
    · simp [mention, created, spent, eraseAll_of_mem]
    · simp [mention, created, spent, eraseAll_of_notMem]

/-- An outpoint after an admitted block has been rewound. -/
theorem Accepted.rewind_ne_none (accepted : Accepted rules m b) (m' : Coins) :
    Coins.rewind (Coins.undo b m) m' o ≠ none ↔
      mention o b = some .spent ∨ mention o b = none ∧ m' o ≠ none := by
  have restored := Coins.mem_undo_spent_keys accepted.applicable o
  rw [(scan_block accepted.external).1] at restored
  have removed : o ∈ (Coins.undo b m).createdOutpoints ↔ o ∈ createdBy b.data.transactions :=
    accepted.mem_created
  rw [Coins.rewind, Ne, putAll_eq_none, restored]
  simp only [eraseAll, removed]
  by_cases spent : o ∈ paymentInputsOf b.data.transactions
  · have created : o ∉ createdBy b.data.transactions := accepted.external o spent
    simp [mention, spent, created]
  · by_cases created : o ∈ createdBy b.data.transactions
    · simp [mention, spent, created]
    · simp [mention, spent, created]

/-- An outpoint after the blocks of a branch. -/
theorem applyAll_ne_none (admissible : Admissible rules (p ++ bs)) (ne : p ≠ []) :
    Coins.applyAll bs m o ≠ none ↔
      lastMention o bs = some .created ∨ lastMention o bs = none ∧ m o ≠ none := by
  induction bs using List.reverseRecOn with
  | nil => simp [lastMention]
  | append_singleton bs b ih =>
    rw [← List.append_assoc] at admissible
    have admitted := admissible (p ++ bs) [] b rfl (by simp [ne])
    rw [Coins.applyAll_append, Coins.applyAll_cons, Coins.applyAll_nil,
      admitted.accepted.apply_ne_none, ih admissible.left, lastMention_concat]
    cases mention o b with
    | none => simp
    | some mention => simp

/-- An outpoint after the top of a chain has been rewound. -/
theorem unwind_ne_none (admissible : Admissible rules (p ++ q)) (ne : p ≠ []) :
    Coins.unwind p q m o ≠ none ↔
      firstMention o q = some .spent ∨ firstMention o q = none ∧ m o ≠ none := by
  induction q generalizing p with
  | nil => simp [firstMention, Coins.unwind]
  | cons b q ih =>
    have admitted := admissible p q b rfl ne
    rw [List.append_cons] at admissible
    rw [Coins.unwind, admitted.accepted.rewind_ne_none, ih admissible (by simp),
      firstMention_cons]
    cases mention o b with
    | none => simp
    | some mention => simp

/-- The outpoints that a transition leaves without an entry. -/
theorem lost_iff (before : Admissible rules (p ++ q)) (after : Admissible rules (p ++ bs))
    (ne : p ≠ []) : Coins.applyAll bs (Coins.unwind p q m) o = none ↔ Lost m q bs o := by
  rw [← not_iff_not, ← Ne, applyAll_ne_none after ne, unwind_ne_none before ne]
  constructor
  · intro present lost
    cases lost with
    | spent last => simp [last] at present
    | detached unmentioned first => simp [unmentioned, first] at present
    | absent unmentioned untouched before => simp [unmentioned, untouched, before] at present
  · intro kept
    cases last : lastMention o bs with
    | some mention =>
      cases mention with
      | created => exact .inl rfl
      | spent => exact absurd (.spent last) kept
    | none =>
      refine .inr ⟨rfl, ?_⟩
      cases first : firstMention o q with
      | some mention =>
        cases mention with
        | created => exact absurd (.detached last first) kept
        | spent => exact .inl rfl
      | none => exact .inr ⟨rfl, fun absent => kept (.absent last first absent)⟩

end StryiChain
