import Mathlib.Algebra.GroupWithZero.Nat
import Mathlib.Algebra.Order.BigOperators.Group.List
import Mathlib.Data.List.AList
import StryiChain.Misc.PartialMap

/-!
# Tables

A hash map of the source is an association list without repeated keys, and is read through its
lookup function. The order of the entries stands for the iteration order of the hash map.
-/

namespace StryiChain

/-- A finite table. -/
abbrev Table (K V : Type) := AList (fun _ : K => V)

namespace Table

variable {K V : Type} [DecidableEq K]

/-- The lookup function of a table. -/
def read (t : Table K V) : K → Option V := fun k => AList.lookup k t

/-- The bindings of a table in iteration order. -/
def toPairs (t : Table K V) : List (K × V) := t.entries.map fun e => (e.1, e.2)

/-- `extend`: inserts the bindings of a list in order. -/
def insertAll (l : List (K × V)) (t : Table K V) : Table K V :=
  l.foldl (fun t e => AList.insert e.1 e.2 t) t

/-- Removes the keys of a list in order. -/
def removeAll (l : List K) (t : Table K V) : Table K V :=
  l.foldl (fun t k => AList.erase k t) t

@[simp] theorem read_empty (k : K) : read (∅ : Table K V) k = none := AList.lookup_empty k

theorem read_insert (t : Table K V) (k : K) (v : V) :
    read (AList.insert k v t) = Function.update (read t) k (some v) := by
  funext k'
  by_cases h : k' = k
  · subst h
    simp [read]
  · simp [read, Function.update_of_ne h, AList.lookup_insert_ne h]

theorem read_erase (t : Table K V) (k : K) :
    read (AList.erase k t) = Function.update (read t) k none := by
  funext k'
  by_cases h : k' = k
  · subst h
    simp [read]
  · simp [read, Function.update_of_ne h, AList.lookup_erase_ne h]

theorem read_insertAll (l : List (K × V)) (t : Table K V) :
    read (insertAll l t) = putAll l (read t) := by
  induction l generalizing t with
  | nil => rfl
  | cons e l ih =>
    rw [putAll_cons, ← read_insert, ← ih]
    rfl

/-- A table that is filled with bindings of distinct keys holds these. -/
theorem read_insertAll_empty {l : List (K × V)} (distinct : (l.map Prod.fst).Nodup) (k : K)
    (v : V) : read (insertAll l ∅) k = some v ↔ (k, v) ∈ l := by
  rw [read_insertAll]
  constructor
  · intro bound
    rcases putAll_eq_some bound with mem | ⟨-, old⟩
    · exact mem
    · rw [read_empty] at old
      cases old
  · intro mem
    exact putAll_of_mem distinct mem _

theorem read_removeAll (l : List K) (t : Table K V) :
    read (removeAll l t) = eraseAll l (read t) := by
  induction l generalizing t with
  | nil => simp [removeAll]
  | cons k l ih =>
    rw [eraseAll_cons, ← read_erase, ← ih]
    rfl

theorem mem_toPairs {t : Table K V} {k : K} {v : V} : (k, v) ∈ t.toPairs ↔ t.read k = some v := by
  rw [toPairs, List.mem_map, read, ← Option.mem_def, AList.mem_lookup_iff]
  constructor
  · rintro ⟨⟨k', v'⟩, mem, equal⟩
    simp only [Prod.mk.injEq] at equal
    obtain ⟨rfl, rfl⟩ := equal
    exact mem
  · intro mem
    exact ⟨_, mem, rfl⟩

omit [DecidableEq K] in
theorem toPairs_keys (t : Table K V) : t.toPairs.map Prod.fst = t.keys := by
  simp [toPairs, AList.keys, List.keys, Function.comp_def]

omit [DecidableEq K] in
theorem nodup_toPairs_keys (t : Table K V) : (t.toPairs.map Prod.fst).Nodup := by
  rw [toPairs_keys]
  exact t.keys_nodup

/-- Selected entries of two tables list no key twice, when the second table binds no key that is
selected from the first. -/
theorem nodup_keys_append {t t' : Table K V} {p q : K × V → Bool}
    (apart : ∀ entry, p entry = true → t'.read entry.1 = none) :
    ((t.toPairs.filter p ++ t'.toPairs.filter q).map Prod.fst).Nodup := by
  rw [List.map_append, List.nodup_append']
  refine ⟨t.nodup_toPairs_keys.sublist (List.filter_sublist.map _),
    t'.nodup_toPairs_keys.sublist (List.filter_sublist.map _), ?_⟩
  intro k selected bound
  obtain ⟨entry, mem, rfl⟩ := List.mem_map.mp selected
  obtain ⟨other, mem', same⟩ := List.mem_map.mp bound
  have present : t'.read other.1 = some other.2 := mem_toPairs.mp (List.mem_filter.mp mem').1
  rw [same, apart entry (List.mem_filter.mp mem).2] at present
  cases present

theorem mem_keys_iff {t : Table K V} {k : K} : k ∈ t.keys ↔ ∃ v, t.read k = some v := by
  rw [← AList.mem_keys, ← AList.lookup_isSome, Option.isSome_iff_exists]
  rfl

/-- A table that binds nothing lists nothing. -/
theorem toPairs_of_blank {t : Table K V} (blank : ∀ k, t.read k = none) : t.toPairs = [] := by
  rw [List.eq_nil_iff_forall_not_mem]
  intro entry mem
  have bound := mem_toPairs.mp mem
  rw [blank] at bound
  cases bound

/-- A table with one binding lists this one. -/
theorem toPairs_of_single {t : Table K V} {k : K} {v : V}
    (only : ∀ k' v', t.read k' = some v' ↔ k' = k ∧ v' = v) : t.toPairs = [(k, v)] := by
  rw [← List.perm_singleton]
  apply (List.perm_ext_iff_of_nodup t.nodup_toPairs_keys.of_map (List.nodup_singleton _)).mpr
  intro entry
  rw [mem_toPairs, only, List.mem_singleton, Prod.ext_iff]

omit [DecidableEq K] in
theorem toPairs_eq_nil {t : Table K V} : t.toPairs = [] ↔ t = ∅ := by
  constructor
  · intro h
    apply AList.ext
    simpa [toPairs] using h
  · rintro rfl
    rfl

/-- `is_empty`, as a decision that evaluates. -/
instance (t : Table K V) : Decidable (t = ∅) :=
  match h : t.toPairs with
  | [] => isTrue (toPairs_eq_nil.mp h)
  | _ :: _ => isFalse fun empty => by
      rw [toPairs_eq_nil.mpr empty] at h
      cases h

/-- Writing all bindings of a table over nothing gives back its lookup function. -/
theorem putAll_toPairs (t : Table K V) (m : K → Option V) (k : K) :
    putAll t.toPairs m k = (t.read k).or (m k) := by
  cases h : t.read k with
  | none =>
    refine putAll_of_notMem ?_ m
    rw [toPairs_keys]
    intro mem
    obtain ⟨v, hv⟩ := mem_keys_iff.mp mem
    rw [h] at hv
    cases hv
  | some v => exact putAll_of_mem t.nodup_toPairs_keys (mem_toPairs.mpr h) m

/-- A view that shadows a map, after some keys of the map have been deleted, differs from it by the
deleted keys that the view does not bind and the bindings of the view that the map does not
have. -/
theorem putAll_difference (own : Table K V) {removed gone : List K} {written : List (K × V)}
    (m : K → Option V) (distinct : (written.map Prod.fst).Nodup)
    (hgone : ∀ k, k ∈ gone ↔ k ∈ removed ∧ own.read k = none ∧ m k ≠ none)
    (hwritten : ∀ k v, (k, v) ∈ written ↔ own.read k = some v ∧ m k ≠ some v) (k : K) :
    putAll written (eraseAll gone m) k = (own.read k).or (eraseAll removed m k) := by
  cases bound : own.read k with
  | some v =>
    rw [Option.some_or]
    by_cases differs : m k = some v
    · -- a binding that the map has is neither written nor deleted
      have unwritten : k ∉ written.map Prod.fst := by
        intro mem
        obtain ⟨⟨_, w⟩, entry, rfl⟩ := List.mem_map.mp mem
        have changed := (hwritten _ w).mp entry
        rw [bound, Option.some.injEq] at changed
        exact changed.2 (changed.1 ▸ differs)
      have kept : k ∉ gone := by
        intro mem
        have unbound := ((hgone k).mp mem).2.1
        rw [bound] at unbound
        cases unbound
      rw [putAll_of_notMem unwritten, eraseAll_of_notMem kept, differs]
    · exact putAll_of_mem distinct ((hwritten k v).mpr ⟨bound, differs⟩) _
  | none =>
    rw [Option.none_or]
    have unwritten : k ∉ written.map Prod.fst := by
      intro mem
      obtain ⟨⟨_, w⟩, entry, rfl⟩ := List.mem_map.mp mem
      have changed := ((hwritten _ w).mp entry).1
      rw [bound] at changed
      cases changed
    rw [putAll_of_notMem unwritten]
    unfold eraseAll
    by_cases absent : m k = none
    · simp [absent]
    · have same : k ∈ gone ↔ k ∈ removed :=
        (hgone k).trans ⟨fun h => h.1, fun h => ⟨h, bound, absent⟩⟩
      simp [same]

/-- Inserting bindings adds at most their total to a valuation of a table. -/
theorem sum_insertAll_le (f : K × V → Nat) (l : List (K × V)) (t : Table K V) :
    ((insertAll l t).toPairs.map f).sum ≤ (l.map f).sum + (t.toPairs.map f).sum := by
  induction l generalizing t with
  | nil => simp [insertAll]
  | cons e l ih =>
    have one : ((toPairs (AList.insert e.1 e.2 t)).map f).sum ≤ f e + (t.toPairs.map f).sum := by
      rw [toPairs, AList.entries_insert, List.map_cons, List.map_cons, List.sum_cons]
      refine Nat.add_le_add_left (List.Sublist.sum_le_sum ?_ fun _ _ => Nat.zero_le _) _
      exact ((List.kerase_sublist _ _).map _).map _
    have rest := ih (AList.insert e.1 e.2 t)
    rw [List.map_cons, List.sum_cons]
    exact rest.trans (by omega)

end Table

end StryiChain
