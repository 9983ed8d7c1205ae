import Mathlib.Algebra.BigOperators.Group.List.Basic
import Mathlib.Algebra.GroupWithZero.Nat
import Mathlib.Data.List.Perm.Subperm

/-!
# Largest-first selection

Elements are taken from the front of a list until the selection is enough. From a list in
descending order this takes the largest ones, and no other selection of as many elements weighs
more.
-/

namespace StryiChain

variable {α : Type}

/-- Elements join the selection until it is enough or the list ends. -/
def takeUntil (enough : List α → Bool) : List α → List α → List α
  | taken, [] => taken
  | taken, a :: rest =>
      if enough (taken ++ [a]) then taken ++ [a] else takeUntil enough (taken ++ [a]) rest

section Selection

variable {enough : List α → Bool} {taken rest : List α}

/-- The selection grows by the front of the list: up to the first element with which it is enough,
or by all of it when it never is. -/
theorem takeUntil_spec (enough : List α → Bool) (taken rest : List α) :
    ∃ more, takeUntil enough taken rest = taken ++ more ∧ more <+: rest ∧
      (more ≠ [] ∧ enough (taken ++ more) = true ∨
        more = rest ∧ ∀ p, p ≠ [] → p <+: rest → enough (taken ++ p) = false) := by
  induction rest generalizing taken with
  | nil =>
    refine ⟨[], (List.append_nil taken).symm, List.prefix_rfl, .inr ⟨rfl, fun p ne front => ?_⟩⟩
    exact absurd (List.prefix_nil.mp front) ne
  | cons a rest ih =>
    rw [takeUntil]
    by_cases reached : enough (taken ++ [a]) = true
    · rw [if_pos reached]
      exact ⟨[a], rfl, ⟨rest, rfl⟩, .inl ⟨List.cons_ne_nil _ _, reached⟩⟩
    · rw [if_neg reached]
      obtain ⟨more, result, front, outcome⟩ := ih (taken ++ [a])
      rw [List.append_assoc, List.singleton_append] at result outcome
      refine ⟨a :: more, result, List.cons_prefix_cons.mpr ⟨rfl, front⟩, ?_⟩
      rcases outcome with ⟨-, done⟩ | ⟨all, never⟩
      · exact .inl ⟨List.cons_ne_nil _ _, done⟩
      · refine .inr ⟨by rw [all], fun p ne start => ?_⟩
        -- a front of the list is its first element, or goes on in the rest
        obtain ⟨b, p, rfl⟩ := List.exists_cons_of_ne_nil ne
        obtain ⟨rfl, later⟩ := List.cons_prefix_cons.mp start
        by_cases last : p = []
        · rw [last]
          exact Bool.eq_false_iff.mpr reached
        · have still := never p last later
          rwa [List.append_assoc, List.singleton_append] at still

end Selection

section Weights

variable {weight : α → Nat} {l l' s : List α}

/-- One more element of a descending list weighs no more than what stands before the list. -/
theorem sum_take_succ_le {a : α} (least : ∀ b ∈ l, weight b ≤ weight a) (n : Nat) :
    ((l.take (n + 1)).map weight).sum ≤ weight a + ((l.take n).map weight).sum := by
  rw [List.take_add_one, List.map_append, List.sum_append, Nat.add_comm (weight a)]
  refine Nat.add_le_add_left ?_ _
  cases at_n : l[n]? with
  | none => exact Nat.zero_le _
  | some b => simpa using least b (List.mem_of_getElem? at_n)

/-- The front of a descending list outweighs every selection of as many elements. -/
theorem sum_le_sum_take (sorted : l.Pairwise fun a b => weight b ≤ weight a)
    (sub : s.Sublist l) : (s.map weight).sum ≤ ((l.take s.length).map weight).sum := by
  induction sub with
  | slnil => exact Nat.le_refl _
  | @cons s l a sub ih =>
    obtain ⟨least, sorted⟩ := List.pairwise_cons.mp sorted
    refine Nat.le_trans (ih sorted) ?_
    cases s.length with
    | zero => exact Nat.zero_le _
    | succ n =>
      rw [List.take_succ_cons, List.map_cons, List.sum_cons]
      exact sum_take_succ_le least n
  | @cons_cons s l a sub ih =>
    rw [List.length_cons, List.take_succ_cons, List.map_cons, List.map_cons, List.sum_cons,
      List.sum_cons]
    exact Nat.add_le_add_left (ih (List.pairwise_cons.mp sorted).2) _

/-- The same for a selection from a list in any order. -/
theorem sum_le_sum_take_of_perm (sorted : l.Pairwise fun a b => weight b ≤ weight a)
    (perm : l'.Perm l) (sub : s.Sublist l') :
    (s.map weight).sum ≤ ((l.take s.length).map weight).sum := by
  obtain ⟨s', same, sub'⟩ := sub.subperm.trans perm.subperm
  rw [← (same.map weight).sum_eq, ← same.length_eq]
  exact sum_le_sum_take sorted sub'

/-- Leaving out elements of some least weight takes away at least that weight for each. -/
theorem sum_add_mul_le_of_sublist {least : Nat} (each : ∀ a ∈ l, least ≤ weight a)
    (sub : s.Sublist l) :
    (s.map weight).sum + (l.length - s.length) * least ≤ (l.map weight).sum := by
  induction sub with
  | slnil => simp
  | @cons s l a sub ih =>
    have rest := ih fun b mem => each b (List.mem_cons_of_mem a mem)
    have first := each a List.mem_cons_self
    have shorter := sub.length_le
    rw [List.length_cons, List.map_cons, List.sum_cons, Nat.succ_sub shorter, Nat.succ_mul]
    omega
  | @cons_cons s l a sub ih =>
    have rest := ih fun b mem => each b (List.mem_cons_of_mem a mem)
    rw [List.length_cons, List.length_cons, Nat.add_sub_add_right, List.map_cons, List.map_cons,
      List.sum_cons, List.sum_cons]
    omega

end Weights

end StryiChain
