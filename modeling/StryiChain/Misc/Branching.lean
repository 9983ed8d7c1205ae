import Mathlib.Data.List.Infix

/-!
# Lists that branch

Two lists with their longest common prefix, and where a third list that leaves the first one can
join the second.
-/

namespace StryiChain

variable {α : Type}

/-- The last element of a first part stands just before what follows it. -/
theorem getElem?_append_last {p q : List α} {a : α} (last : p.getLast? = some a) :
    (p ++ q)[p.length - 1]? = some a := by
  rw [List.getLast?_eq_getElem?] at last
  have inside := (List.getElem?_eq_some_iff.mp last).1
  rw [List.getElem?_append_left inside, last]

/-- A position of a list with one more element is one of the list or the last one. -/
theorem getElem?_concat_cases {l : List α} {a b : α} {i : Nat}
    (found : (l ++ [b])[i]? = some a) :
    (i < l.length ∧ l[i]? = some a) ∨ (i = l.length ∧ a = b) := by
  rcases Nat.lt_or_ge i l.length with inside | outside
  · rw [List.getElem?_append_left inside] at found
    exact .inl ⟨inside, found⟩
  · have bound := (List.getElem?_eq_some_iff.mp found).1
    rw [List.length_append, List.length_singleton] at bound
    have here : i = l.length := by omega
    rw [here, List.getElem?_concat_length, Option.some.injEq] at found
    exact .inr ⟨here, found.symm⟩

/-- One more element is read at the end only. -/
theorem getElem?_concat_of_ne {l : List α} {a : α} {i : Nat} (ne : i ≠ l.length) :
    (l ++ [a])[i]? = l[i]? := by
  rcases Nat.lt_or_ge i l.length with inside | outside
  · rw [List.getElem?_append_left inside]
  · rw [List.getElem?_eq_none outside, List.getElem?_eq_none]
    simp only [List.length_append, List.length_singleton]
    omega

theorem length_pos_of_last {p : List α} {a : α} (last : p.getLast? = some a) : 0 < p.length := by
  rw [List.getLast?_eq_getElem?] at last
  exact Nat.lt_of_le_of_lt (Nat.zero_le _) (List.getElem?_eq_some_iff.mp last).1

theorem getLast?_append_concat (p q : List α) (a : α) : (p ++ (q ++ [a])).getLast? = some a := by
  rw [← List.append_assoc, List.getLast?_concat]

/-- The longest common prefix of two lists. -/
def commonPrefix [DecidableEq α] : List α → List α → List α
  | a :: l, b :: l' => if a = b then a :: commonPrefix l l' else []
  | _, _ => []

/-- Two lists that share a first part and go on differently. -/
structure Forked (l l' p q r : List α) : Prop where
  left : l = p ++ q
  right : l' = p ++ r
  apart : ∀ a, q.head? = some a → r.head? ≠ some a

theorem forked_commonPrefix [DecidableEq α] (l l' : List α) :
    Forked l l' (commonPrefix l l') (l.drop (commonPrefix l l').length)
      (l'.drop (commonPrefix l l').length) := by
  induction l generalizing l' with
  | nil => exact ⟨rfl, rfl, by simp⟩
  | cons a l ih =>
    cases l' with
    | nil => exact ⟨rfl, rfl, by simp⟩
    | cons b l' =>
      unfold commonPrefix
      split
      · rename_i same
        subst same
        obtain ⟨left, right, apart⟩ := ih l'
        exact ⟨congrArg (a :: ·) left, congrArg (a :: ·) right, apart⟩
      · rename_i differ
        refine ⟨rfl, rfl, fun c first second => differ ?_⟩
        simp only [List.length_nil, List.drop_zero, List.head?_cons, Option.some.injEq]
          at first second
        rw [first, second]

variable {l l' p q r p' q' bs front : List α}

/-- What both lists go on with is empty. -/
theorem Forked.eq_nil (forked : Forked l l' p q r) (left : front <+: q) (right : front <+: r) :
    front = [] := by
  cases front with
  | nil => rfl
  | cons a front =>
    obtain ⟨q', rfl⟩ := left
    obtain ⟨r', rfl⟩ := right
    exact absurd rfl (forked.apart a rfl)

/-- A list that leaves the first one and follows the second one leaves where they part. -/
theorem Forked.joins (forked : Forked l l' p q r) (split : l = p' ++ q')
    (branch : p' ++ bs = p ++ front) (along : front <+: r)
    (apart : ∀ b ∈ bs, b ∉ l) : p' = p ∧ bs = front := by
  have lower : p' <+: l := split ▸ List.prefix_append p' q'
  have upper : p <+: l := forked.left ▸ List.prefix_append p q
  rcases List.prefix_or_prefix_of_prefix lower upper with below | above
  · obtain ⟨s, rfl⟩ := below
    rw [List.append_assoc, List.append_cancel_left_eq] at branch
    cases s with
    | nil => exact ⟨(List.append_nil p').symm, branch⟩
    | cons a s =>
      exfalso
      apply apart a
      · rw [branch]
        simp
      · rw [forked.left]
        simp
  · obtain ⟨s, rfl⟩ := above
    rw [List.append_assoc, List.append_cancel_left_eq] at branch
    have rest : q = s ++ q' := by
      have whole := forked.left.symm.trans split
      rwa [List.append_assoc, List.append_cancel_left_eq] at whole
    have none : s = [] := by
      apply forked.eq_nil
      · exact rest ▸ List.prefix_append s q'
      · exact (branch ▸ List.prefix_append s bs : s <+: front).trans along
    subst none
    exact ⟨List.append_nil p, branch⟩

end StryiChain
