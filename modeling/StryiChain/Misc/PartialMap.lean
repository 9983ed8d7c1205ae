import Mathlib.Algebra.BigOperators.Group.Finset.Basic
import Mathlib.Algebra.BigOperators.Group.Finset.Piecewise
import Mathlib.Algebra.BigOperators.Group.List.Basic
import Mathlib.Algebra.GroupWithZero.Nat
import Mathlib.Algebra.Order.BigOperators.Group.Finset
import Mathlib.Data.List.Nodup
import Mathlib.Data.List.Perm.Basic
import Mathlib.Data.Set.Finite.Lattice

/-!
# Partial maps

A table is read through its lookup function `K → Option V`. Writing a list of bindings is
`putAll`, deleting a list of keys is `eraseAll`, and `Submap` says that one table holds nothing
that the other does not hold. An update that consumes some keys and creates others is
`putAll created (eraseAll consumed m)`; `restore_eq` and `restore_submap` say how far the
inverse update recovers the table before it, and `sum_update_le` bounds a valuation of the
table after it.
-/

namespace StryiChain

variable {K V : Type} [DecidableEq K]

/-- Writes the bindings of the list in order, the last binding of a key winning. -/
def putAll (l : List (K × V)) (m : K → Option V) : K → Option V :=
  l.foldl (fun m e => Function.update m e.1 (some e.2)) m

/-- Deletes every key of the list. -/
def eraseAll (l : List K) (m : K → Option V) : K → Option V :=
  fun k => if k ∈ l then none else m k

/-- Every binding of `m` is a binding of `m'`. -/
def Submap (m m' : K → Option V) : Prop :=
  ∀ k v, m k = some v → m' k = some v

omit [DecidableEq K] in
/-- A list is what its positions hold, in order. -/
theorem filterMap_range_getElem? (l : List V) :
    (List.range l.length).filterMap (fun i => l[i]?) = l := by
  suffices ∀ n, n ≤ l.length → (List.range n).filterMap (fun i => l[i]?) = l.take n by
    rw [this _ (Nat.le_refl _), List.take_length]
  intro n bound
  induction n with
  | zero => rfl
  | succ n ih =>
    rw [List.range_succ, List.filterMap_append, ih (by omega), List.take_add_one]
    cases at_n : l[n]? <;> simp [at_n]

@[simp] theorem putAll_nil (m : K → Option V) : putAll [] m = m := rfl

theorem putAll_cons (e : K × V) (l : List (K × V)) (m : K → Option V) :
    putAll (e :: l) m = putAll l (Function.update m e.1 (some e.2)) := rfl

theorem putAll_append (l l' : List (K × V)) (m : K → Option V) :
    putAll (l ++ l') m = putAll l' (putAll l m) := List.foldl_append

theorem putAll_of_notMem {l : List (K × V)} {k : K} (h : k ∉ l.map Prod.fst)
    (m : K → Option V) : putAll l m k = m k := by
  induction l generalizing m with
  | nil => rfl
  | cons e l ih =>
    simp only [List.map_cons, List.mem_cons, not_or] at h
    rw [putAll_cons, ih h.2, Function.update_of_ne h.1]

theorem putAll_of_mem {l : List (K × V)} (distinct : (l.map Prod.fst).Nodup) {k : K} {v : V}
    (h : (k, v) ∈ l) (m : K → Option V) : putAll l m k = some v := by
  induction l generalizing m with
  | nil => cases h
  | cons e l ih =>
    rw [List.map_cons, List.nodup_cons] at distinct
    rw [putAll_cons]
    rcases List.mem_cons.mp h with rfl | h
    · rw [putAll_of_notMem distinct.1, Function.update_self]
    · exact ih distinct.2 h _

/-- Only the bindings of the list and the previous value at the key decide a lookup. -/
theorem putAll_congr {l : List (K × V)} {m m' : K → Option V} {k : K} (h : m k = m' k) :
    putAll l m k = putAll l m' k := by
  induction l generalizing m m' with
  | nil => exact h
  | cons e l ih =>
    rw [putAll_cons, putAll_cons]
    apply ih
    by_cases hk : k = e.1
    · subst hk
      simp
    · simp [Function.update_of_ne hk, h]

/-- A key of the list is decided by the list alone. -/
theorem putAll_of_key {l : List (K × V)} {k : K} (h : k ∈ l.map Prod.fst)
    (m m' : K → Option V) : putAll l m k = putAll l m' k := by
  induction l generalizing m m' with
  | nil => cases h
  | cons e l ih =>
    rw [putAll_cons, putAll_cons]
    by_cases later : k ∈ l.map Prod.fst
    · exact ih later _ _
    · have here : k = e.1 := (List.mem_cons.mp h).resolve_right later
      apply putAll_congr
      rw [here, Function.update_self, Function.update_self]

theorem putAll_eq_none {l : List (K × V)} {m : K → Option V} {k : K} :
    putAll l m k = none ↔ k ∉ l.map Prod.fst ∧ m k = none := by
  induction l generalizing m with
  | nil => simp
  | cons e l ih =>
    rw [putAll_cons, ih]
    by_cases hk : k = e.1
    · subst hk
      simp
    · simp [hk]

/-- A looked-up binding is one of the list, or was there before under a key not in the list. -/
theorem putAll_eq_some {l : List (K × V)} {m : K → Option V} {k : K} {v : V}
    (h : putAll l m k = some v) : (k, v) ∈ l ∨ (k ∉ l.map Prod.fst ∧ m k = some v) := by
  induction l generalizing m with
  | nil => exact .inr ⟨by simp, h⟩
  | cons e l ih =>
    rw [putAll_cons] at h
    rcases ih h with mem | ⟨notMem, old⟩
    · exact .inl (List.mem_cons_of_mem _ mem)
    · by_cases hk : k = e.1
      · subst hk
        rw [Function.update_self, Option.some.injEq] at old
        subst old
        exact .inl (by simp)
      · rw [Function.update_of_ne hk] at old
        exact .inr ⟨by simp [hk] at notMem ⊢; exact notMem, old⟩

/-- Writing into a map that shadows another one. -/
theorem putAll_or (l : List (K × V)) (m m' : K → Option V) (k : K) :
    (putAll l m k).or (m' k) = putAll l (fun k => (m k).or (m' k)) k := by
  induction l generalizing m with
  | nil => rfl
  | cons e l ih =>
    rw [putAll_cons, putAll_cons, ih]
    refine congrFun (congrArg (putAll l) ?_) k
    funext k
    by_cases h : k = e.1
    · subst h
      simp
    · simp [h]

/-- The order in which distinct keys are written does not matter. -/
theorem putAll_perm {l l' : List (K × V)} (perm : l.Perm l')
    (distinct : (l.map Prod.fst).Nodup) (m : K → Option V) : putAll l m = putAll l' m := by
  have distinct' : (l'.map Prod.fst).Nodup := (perm.map Prod.fst).nodup_iff.mp distinct
  funext k
  by_cases mem : k ∈ l.map Prod.fst
  · obtain ⟨⟨k', v⟩, member, rfl⟩ := List.mem_map.mp mem
    rw [putAll_of_mem distinct member, putAll_of_mem distinct' (perm.mem_iff.mp member)]
  · have mem' : k ∉ l'.map Prod.fst := fun h => mem ((perm.map Prod.fst).mem_iff.mpr h)
    rw [putAll_of_notMem mem, putAll_of_notMem mem']

@[simp] theorem eraseAll_nil (m : K → Option V) : eraseAll [] m = m := by
  funext k
  simp [eraseAll]

theorem eraseAll_of_mem {l : List K} {k : K} (h : k ∈ l) (m : K → Option V) :
    eraseAll l m k = none := if_pos h

theorem eraseAll_of_notMem {l : List K} {k : K} (h : k ∉ l) (m : K → Option V) :
    eraseAll l m k = m k := if_neg h

/-- Binding many keys to one value. -/
theorem putAll_map_const (l : List K) (v : V) (m : K → Option V) (k : K) :
    putAll (l.map fun k => (k, v)) m k = if k ∈ l then some v else m k := by
  induction l generalizing m with
  | nil => simp
  | cons k' l ih =>
    rw [List.map_cons, putAll_cons, ih]
    by_cases same : k = k'
    · subst same
      simp
    · simp [same]

/-- Deleting looks at the keys as a set. -/
theorem eraseAll_congr {l l' : List K} (h : ∀ k, k ∈ l ↔ k ∈ l') (m : K → Option V) :
    eraseAll l m = eraseAll l' m := by
  funext k
  simp [eraseAll, h k]

theorem eraseAll_cons (k : K) (l : List K) (m : K → Option V) :
    eraseAll (k :: l) m = eraseAll l (Function.update m k none) := by
  funext k'
  by_cases h : k' = k
  · subst h
    simp [eraseAll]
  · simp [eraseAll, h]

omit [DecidableEq K] in
theorem Submap.refl (m : K → Option V) : Submap m m := fun _ _ h => h

/-- The same update keeps one table below the other. -/
theorem Submap.update {m m' : K → Option V} (h : Submap m m') (gone : List K)
    (new : List (K × V)) : Submap (putAll new (eraseAll gone m)) (putAll new (eraseAll gone m')) := by
  intro k v hk
  by_cases mem : k ∈ new.map Prod.fst
  · induction new using List.reverseRecOn with
    | nil => simp at mem
    | append_singleton new e ih =>
      rw [putAll_append] at hk ⊢
      by_cases he : k = e.1
      · subst he
        simpa [putAll] using hk
      · simp only [putAll, List.foldl_cons, List.foldl_nil, Function.update_of_ne he] at hk ⊢
        refine ih hk ?_
        simpa [he] using mem
  · rw [putAll_of_notMem mem] at hk ⊢
    by_cases gone : k ∈ gone
    · simp [eraseAll_of_mem gone] at hk
    · rw [eraseAll_of_notMem gone] at hk ⊢
      exact h k v hk

section Restore

variable {m m' : K → Option V} {gone : List K} {new spent : List (K × V)}

/-- Undoing an update: deleting what it wrote and writing back what it deleted gives the table
before it, provided that it overwrote nothing that it had not deleted itself. -/
theorem restore_eq (spentKeys : ∀ k, k ∈ spent.map Prod.fst ↔ k ∈ gone)
    (distinct : (spent.map Prod.fst).Nodup) (spentValues : ∀ e ∈ spent, m e.1 = some e.2)
    (fresh : ∀ k ∈ new.map Prod.fst, m k = none ∨ k ∈ gone) :
    putAll spent (eraseAll (new.map Prod.fst) (putAll new (eraseAll gone m))) = m := by
  funext k
  by_cases mem : k ∈ spent.map Prod.fst
  · obtain ⟨⟨k', v⟩, member, rfl⟩ := List.mem_map.mp mem
    rw [putAll_of_mem distinct member, spentValues _ member]
  · rw [putAll_of_notMem mem]
    rw [spentKeys] at mem
    by_cases created : k ∈ new.map Prod.fst
    · rw [eraseAll_of_mem created]
      exact ((fresh k created).resolve_right mem).symm
    · rw [eraseAll_of_notMem created, putAll_of_notMem created, eraseAll_of_notMem mem]

/-- Undoing an update in a table below the updated one stays below the table before it, whatever
the update overwrote. -/
theorem restore_submap (spentKeys : ∀ k, k ∈ spent.map Prod.fst ↔ k ∈ gone)
    (spentValues : ∀ e ∈ spent, m e.1 = some e.2)
    (below : Submap m' (putAll new (eraseAll gone m))) :
    Submap (putAll spent (eraseAll (new.map Prod.fst) m')) m := by
  intro k v hk
  rcases putAll_eq_some hk with mem | ⟨notSpent, old⟩
  · exact spentValues _ mem
  · by_cases created : k ∈ new.map Prod.fst
    · simp [eraseAll_of_mem created] at old
    · rw [eraseAll_of_notMem created] at old
      have kept := below k v old
      rw [spentKeys] at notSpent
      rwa [putAll_of_notMem created, eraseAll_of_notMem notSpent] at kept

end Restore

section Sum

variable (value : V → Nat)

/-- The value held at a key, zero where nothing is held. -/
def valueAt (m : K → Option V) (k : K) : Nat := ((m k).map value).getD 0

omit [DecidableEq K] in
theorem Submap.valueAt_le {m m' : K → Option V} (h : Submap m m') (k : K) :
    valueAt value m k ≤ valueAt value m' k := by
  unfold valueAt
  cases hk : m k with
  | none => simp
  | some v => simp [h k v hk]

theorem valueAt_update_le (gone : List K) (new : List (K × V)) (m : K → Option V) (keys : Finset K) :
    ∑ k ∈ keys, valueAt value (putAll new (eraseAll gone m)) k ≤
      (new.map fun e => value e.2).sum + ∑ k ∈ keys \ gone.toFinset, valueAt value m k := by
  induction new using List.reverseRecOn with
  | nil =>
    simp only [putAll_nil, List.map_nil, List.sum_nil, Nat.zero_add]
    rw [← Finset.sum_inter_add_sum_sdiff keys gone.toFinset (valueAt value (eraseAll gone m))]
    have kept : ∀ k ∈ keys \ gone.toFinset,
        valueAt value (eraseAll gone m) k = valueAt value m k := by
      intro k hk
      rw [Finset.mem_sdiff, List.mem_toFinset] at hk
      simp [valueAt, eraseAll_of_notMem hk.2]
    have deleted : ∀ k ∈ keys ∩ gone.toFinset, valueAt value (eraseAll gone m) k = 0 := by
      intro k hk
      rw [Finset.mem_inter, List.mem_toFinset] at hk
      simp [valueAt, eraseAll_of_mem hk.2]
    rw [Finset.sum_congr rfl kept, Finset.sum_eq_zero deleted, Nat.zero_add]
  | append_singleton new e ih =>
    have one : ∀ k, valueAt value (putAll (new ++ [e]) (eraseAll gone m)) k ≤
        (if k = e.1 then value e.2 else 0) + valueAt value (putAll new (eraseAll gone m)) k := by
      intro k
      rw [putAll_append]
      by_cases hk : k = e.1
      · subst hk
        simp [putAll, valueAt]
      · simp [putAll, valueAt, Function.update_of_ne hk]
    have written : ∑ k ∈ keys, (if k = e.1 then value e.2 else 0) ≤ value e.2 := by
      rw [Finset.sum_ite_eq']
      split <;> simp
    calc ∑ k ∈ keys, valueAt value (putAll (new ++ [e]) (eraseAll gone m)) k
        ≤ ∑ k ∈ keys, ((if k = e.1 then value e.2 else 0) +
            valueAt value (putAll new (eraseAll gone m)) k) := Finset.sum_le_sum fun k _ => one k
      _ = ∑ k ∈ keys, (if k = e.1 then value e.2 else 0) +
            ∑ k ∈ keys, valueAt value (putAll new (eraseAll gone m)) k := Finset.sum_add_distrib
      _ ≤ value e.2 + ((new.map fun e => value e.2).sum +
            ∑ k ∈ keys \ gone.toFinset, valueAt value m k) := Nat.add_le_add written ih
      _ = _ := by
        rw [List.map_append, List.sum_append]
        simp only [List.map_cons, List.map_nil, List.sum_cons, List.sum_nil]
        omega

/-- An update that writes at most `extra` more than it deletes raises every bound on the value of
a table by at most `extra`. -/
theorem sum_update_le {m : K → Option V} (gone : List K) (new : List (K × V)) {bound : Nat}
    (extra : Nat) (distinct : gone.Nodup) (bounded : ∀ keys : Finset K, ∑ k ∈ keys, valueAt value m k ≤ bound)
    (balance : (new.map fun e => value e.2).sum ≤ extra + (gone.map (valueAt value m)).sum)
    (keys : Finset K) :
    ∑ k ∈ keys, valueAt value (putAll new (eraseAll gone m)) k ≤ bound + extra := by
  have split : ∑ k ∈ keys \ gone.toFinset, valueAt value m k + (gone.map (valueAt value m)).sum =
      ∑ k ∈ (keys \ gone.toFinset) ∪ gone.toFinset, valueAt value m k := by
    rw [Finset.sum_union Finset.sdiff_disjoint, List.sum_toFinset _ distinct]
  have total := bounded ((keys \ gone.toFinset) ∪ gone.toFinset)
  have updated := valueAt_update_le value gone new m keys
  omega

end Sum

section Finite

/-- An update of a finite table is finite. -/
theorem finite_update {m : K → Option V} (finite : {k | m k ≠ none}.Finite) (gone : List K)
    (new : List (K × V)) : {k | putAll new (eraseAll gone m) k ≠ none}.Finite := by
  refine ((new.map Prod.fst).finite_toSet.union finite).subset fun k present => ?_
  by_cases written : k ∈ new.map Prod.fst
  · exact .inl written
  · right
    rw [Set.mem_ofPred_eq, putAll_of_notMem written] at present
    intro absent
    apply present
    by_cases erased : k ∈ gone
    · rw [eraseAll_of_mem erased]
    · rw [eraseAll_of_notMem erased, absent]

omit [DecidableEq K] in
theorem Submap.finite {m m' : K → Option V} (h : Submap m m')
    (finite : {k | m' k ≠ none}.Finite) : {k | m k ≠ none}.Finite := by
  refine finite.subset fun k present => ?_
  obtain ⟨v, found⟩ := Option.ne_none_iff_exists'.mp present
  simp [h k v found]

end Finite

end StryiChain
