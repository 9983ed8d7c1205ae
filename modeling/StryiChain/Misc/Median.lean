import Mathlib.Data.List.Sort
import Mathlib.Order.Defs.LinearOrder

/-!
# Upper medians

The element in the middle of a sorted list, by a key. What it is compared with counts: a bound is
below the median when at most half of the list is below the bound. A median can therefore only
grow when an element not below it enters the list and others leave, as long as the list does not
get shorter.
-/

namespace StryiChain

variable {α κ : Type} [LinearOrder κ] {key : α → κ}

/-- The element at a position of a sorted list is at least a bound exactly when no more elements
than that are below the bound. -/
theorem le_getElem?_iff {s : List α} (sorted : s.Pairwise fun a b => key a ≤ key b) {k : Nat}
    {m : α} (at_k : s[k]? = some m) (x : κ) :
    x ≤ key m ↔ s.countP (fun a => key a < x) ≤ k := by
  induction s generalizing k with
  | nil => simp at at_k
  | cons a s ih =>
    rw [List.pairwise_cons] at sorted
    obtain ⟨least, sorted⟩ := sorted
    by_cases below : key a < x
    · -- the first element is below the bound, and so is not the one at the position
      rw [List.countP_cons_of_pos (by simpa using below)]
      cases k with
      | zero =>
        rw [List.getElem?_cons_zero, Option.some.injEq] at at_k
        rw [← at_k]
        constructor
        · intro above
          exact absurd below (not_lt.mpr above)
        · intro none
          omega
      | succ k =>
        rw [List.getElem?_cons_succ] at at_k
        rw [ih sorted at_k]
        omega
    · -- nothing is below the bound
      have bound : ∀ b ∈ a :: s, x ≤ key b := by
        intro b mem
        rcases List.mem_cons.mp mem with same | later
        · rw [same]
          exact not_lt.mp below
        · exact (not_lt.mp below).trans (least b later)
      have none : (a :: s).countP (fun a => key a < x) = 0 := by
        rw [List.countP_eq_zero]
        intro b mem
        simpa using bound b mem
      rw [none]
      exact ⟨fun _ => Nat.zero_le k, fun _ => bound m (List.mem_of_getElem? at_k)⟩

/-- The element at position `length / 2` of a list sorted by the key. -/
def IsUpperMedian (key : α → κ) (l : List α) (m : α) : Prop :=
  ∃ s : List α, s.Perm l ∧ (s.Pairwise fun a b => key a ≤ key b) ∧ s[l.length / 2]? = some m

namespace IsUpperMedian

variable {l kept : List α} {a m m' : α}

theorem le_iff (median : IsUpperMedian key l m) (x : κ) :
    x ≤ key m ↔ l.countP (fun a => key a < x) ≤ l.length / 2 := by
  obtain ⟨s, perm, sorted, at_half⟩ := median
  rw [le_getElem?_iff sorted at_half, perm.countP_eq]

/-- The order in which a list is given does not matter. -/
theorem perm {l' : List α} (median : IsUpperMedian key l m) (same : l.Perm l') :
    IsUpperMedian key l' m := by
  obtain ⟨s, perm, sorted, at_half⟩ := median
  exact ⟨s, perm.trans same, sorted, same.length_eq ▸ at_half⟩

theorem unique (median : IsUpperMedian key l m) (median' : IsUpperMedian key l m') :
    key m = key m' :=
  le_antisymm ((median'.le_iff _).mpr ((median.le_iff _).mp le_rfl))
    ((median.le_iff _).mpr ((median'.le_iff _).mp le_rfl))

/-- An element not below the median enters, others leave, and the list does not get shorter. -/
theorem mono (median : IsUpperMedian key l m) (median' : IsUpperMedian key (a :: kept) m')
    (sub : kept.Sublist l) (long : l.length ≤ (a :: kept).length) (later : key m ≤ key a) :
    key m ≤ key m' := by
  have above : ¬ (decide (key a < key m) = true) := by simpa using later
  rw [median'.le_iff]
  calc (a :: kept).countP (fun b => key b < key m)
      = kept.countP (fun b => key b < key m) := List.countP_cons_of_neg above
    _ ≤ l.countP (fun b => key b < key m) := sub.countP_le
    _ ≤ l.length / 2 := (median.le_iff _).mp le_rfl
    _ ≤ (a :: kept).length / 2 := Nat.div_le_div_right long

end IsUpperMedian

end StryiChain
