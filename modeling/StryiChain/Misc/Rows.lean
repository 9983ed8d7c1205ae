import Mathlib.Data.List.Sort
import StryiChain.Misc.MachineInt
import StryiChain.Misc.Table

/-!
# Rows of an ordered byte store

A family of a byte store binds byte strings to byte strings and lists them in the order of their
keys. It holds a map when every key of the map has an encoding of its own, and the rows are exactly
the encodings of what the map binds.
-/

namespace StryiChain

section Optional

variable {A B : Type} {R : A → B → Prop} {a : A} {o : Option A} {o' : Option B}

theorem rel_none (related : Option.Rel R none o') : o' = none := by
  cases related
  rfl

theorem rel_some (related : Option.Rel R (some a) o') : ∃ b, o' = some b ∧ R a b := by
  cases related with
  | some related => exact ⟨_, rfl, related⟩

theorem map_of_rel {f : A → B} (related : Option.Rel (fun a b => f a = b) o o') : o.map f = o' := by
  cases related with
  | none => rfl
  | some same => rw [← same, Option.map_some]

end Optional

/-- A family of rows. -/
abbrev Rows := Table (List UInt8) (List UInt8)

namespace Rows

/-- The rows in the order of their keys, as an iterator visits them. -/
def inOrder (rows : Rows) : List (List UInt8 × List UInt8) :=
  rows.toPairs.mergeSort fun a b => decide (a.1 ≤ b.1)

variable {K V : Type} {key : K → List UInt8} {writes : V → List UInt8 → Prop} {rows : Rows}
  {m : K → Option V} {k : K} {v : V} {bytes : List UInt8}

/-- The rows are those of a map, whose values may be written in several ways. -/
structure Holds (key : K → List UInt8) (writes : V → List UInt8 → Prop) (rows : Rows)
    (m : K → Option V) : Prop where
  row : ∀ k, Option.Rel writes (m k) (rows.read (key k))
  keyed : ∀ bytes value, rows.read bytes = some value → ∃ k, key k = bytes

theorem holds_empty (key : K → List UInt8) (writes : V → List UInt8 → Prop) :
    Holds key writes (∅ : Rows) fun _ => none where
  row k := by
    rw [Table.read_empty]
    exact .none
  keyed bytes value found := by
    rw [Table.read_empty] at found
    cases found

namespace Holds

theorem read_none (holds : Holds key writes rows m) (absent : m k = none) :
    rows.read (key k) = none := rel_none (absent ▸ holds.row k)

theorem read_some (holds : Holds key writes rows m) (bound : m k = some v) :
    ∃ bytes, rows.read (key k) = some bytes ∧ writes v bytes := rel_some (bound ▸ holds.row k)

/-- A row is the encoding of a binding. -/
theorem of_read (holds : Holds key writes rows m) {name : List UInt8}
    (found : rows.read name = some bytes) : ∃ k v, key k = name ∧ m k = some v ∧ writes v bytes := by
  obtain ⟨k, rfl⟩ := holds.keyed name bytes found
  have row := holds.row k
  rw [found] at row
  cases h : m k with
  | none =>
    rw [h] at row
    cases row
  | some v =>
    rw [h] at row
    cases row with
    | some written => exact ⟨k, v, rfl, h, written⟩

/-- The rows hold another map, when they may be read as its values too. -/
theorem congr {P : V → V → Prop} {m' : K → Option V} (holds : Holds key writes rows m)
    (same : ∀ k, Option.Rel P (m k) (m' k))
    (rewritten : ∀ {v v' bytes}, P v v' → writes v bytes → writes v' bytes) :
    Holds key writes rows m' where
  row k := by
    have related := same k
    cases bound : m k with
    | none =>
      rw [bound] at related
      rw [rel_none related, holds.read_none bound]
      exact .none
    | some v =>
      rw [bound] at related
      obtain ⟨v', bound', related⟩ := rel_some related
      obtain ⟨bytes, found, written⟩ := holds.read_some bound
      rw [bound', found]
      exact .some (rewritten related written)
  keyed := holds.keyed

/-- There are no rows when the map binds nothing. -/
theorem blank_iff (holds : Holds key writes rows m) :
    (∀ name, rows.read name = none) ↔ ∀ k, m k = none := by
  constructor
  · intro blank k
    cases bound : m k with
    | none => rfl
    | some v =>
      obtain ⟨bytes, found, -⟩ := holds.read_some bound
      rw [blank] at found
      cases found
  · intro unbound name
    cases found : rows.read name with
    | none => rfl
    | some bytes =>
      obtain ⟨k, v, -, bound, -⟩ := holds.of_read found
      rw [unbound] at bound
      cases bound

variable [DecidableEq K]

/-- Writing a row binds its key. -/
theorem insert (holds : Holds key writes rows m) (distinct : Function.Injective key) (k : K)
    (written : writes v bytes) :
    Holds key writes (AList.insert (key k) bytes rows) (Function.update m k (some v)) where
  row k' := by
    rw [Table.read_insert]
    by_cases same : k' = k
    · subst same
      rw [Function.update_self, Function.update_self]
      exact .some written
    · rw [Function.update_of_ne same, Function.update_of_ne (distinct.ne same)]
      exact holds.row k'
  keyed name value found := by
    rw [Table.read_insert] at found
    by_cases same : name = key k
    · exact ⟨k, same.symm⟩
    · rw [Function.update_of_ne same] at found
      exact holds.keyed name value found

/-- Deleting a row unbinds its key. -/
theorem erase (holds : Holds key writes rows m) (distinct : Function.Injective key) (k : K) :
    Holds key writes (AList.erase (key k) rows) (Function.update m k none) where
  row k' := by
    rw [Table.read_erase]
    by_cases same : k' = k
    · subst same
      rw [Function.update_self, Function.update_self]
      exact .none
    · rw [Function.update_of_ne same, Function.update_of_ne (distinct.ne same)]
      exact holds.row k'
  keyed name value found := by
    rw [Table.read_erase] at found
    by_cases same : name = key k
    · exact ⟨k, same.symm⟩
    · rw [Function.update_of_ne same] at found
      exact holds.keyed name value found

/-- Writing rows one after another. -/
theorem insertAll {l : List (K × V)} (holds : Holds key writes rows m)
    (distinct : Function.Injective key) (encode : V → List UInt8)
    (written : ∀ entry ∈ l, writes entry.2 (encode entry.2)) :
    Holds key writes (l.foldl (fun rows entry => AList.insert (key entry.1) (encode entry.2) rows)
      rows) (putAll l m) := by
  induction l generalizing rows m with
  | nil => exact holds
  | cons entry l ih =>
    rw [List.foldl_cons, putAll_cons]
    apply ih (holds.insert distinct entry.1 (written entry List.mem_cons_self))
    intro other mem
    exact written other (List.mem_cons_of_mem _ mem)

end Holds

section Order

variable {l : List (List UInt8 × List UInt8)}

theorem mem_inOrder {entry : List UInt8 × List UInt8} :
    entry ∈ rows.inOrder ↔ rows.read entry.1 = some entry.2 := by
  rw [inOrder, List.mem_mergeSort]
  exact Table.mem_toPairs

theorem pairwise_inOrder (rows : Rows) : rows.inOrder.Pairwise fun a b => a.1 ≤ b.1 := by
  have total : ∀ a b : List UInt8 × List UInt8, (decide (a.1 ≤ b.1) || decide (b.1 ≤ a.1)) = true := by
    intro a b
    rw [Bool.or_eq_true, decide_eq_true_eq, decide_eq_true_eq]
    exact List.le_total a.1 b.1
  have trans : ∀ a b c : List UInt8 × List UInt8, decide (a.1 ≤ b.1) = true →
      decide (b.1 ≤ c.1) = true → decide (a.1 ≤ c.1) = true := by
    intro a b c
    simp only [decide_eq_true_eq]
    exact List.le_trans
  exact (List.pairwise_mergeSort trans total rows.toPairs).imp of_decide_eq_true

theorem inOrder_eq_nil : rows.inOrder = [] ↔ ∀ name, rows.read name = none := by
  rw [List.eq_nil_iff_forall_not_mem]
  constructor
  · intro none name
    cases found : rows.read name with
    | none => rfl
    | some value => exact absurd (mem_inOrder.mpr found) (none (name, value))
  · intro blank entry mem
    have found := mem_inOrder.mp mem
    rw [blank] at found
    cases found

/-- The last row has the greatest key. -/
theorem le_getLast {entry : List UInt8 × List UInt8} (last : rows.inOrder.getLast? = some entry)
    {name value : List UInt8} (found : rows.read name = some value) : name ≤ entry.1 := by
  obtain ⟨front, split⟩ := List.getLast?_eq_some_iff.mp last
  have ordered := rows.pairwise_inOrder
  rw [split, List.pairwise_append] at ordered
  have mem : (name, value) ∈ rows.inOrder := mem_inOrder.mpr found
  rw [split, List.mem_append, List.mem_singleton] at mem
  rcases mem with before | same
  · exact ordered.2.2 (name, value) before entry (List.mem_singleton.mpr rfl)
  · rw [← same]
    exact List.le_refl name

/-- A list in the order of its keys that has exactly the rows is what an iterator visits. -/
theorem inOrder_eq (sorted : l.Pairwise fun a b => a.1 < b.1)
    (exact : ∀ entry, entry ∈ l ↔ rows.read entry.1 = some entry.2) : rows.inOrder = l := by
  have ordered := rows.pairwise_inOrder
  have distinct : l.Nodup := by
    apply sorted.imp
    intro a b less same
    rw [same] at less
    exact List.lt_irrefl b.1 less
  have perm : rows.inOrder.Perm l := by
    apply (List.mergeSort_perm _ _).trans
    apply (List.perm_ext_iff_of_nodup rows.nodup_toPairs_keys.of_map distinct).mpr
    intro entry
    rw [exact, ← Table.mem_toPairs]
  refine perm.eq_of_pairwise ?_ ordered (sorted.imp fun less => ?_)
  · intro a b mem mem' le le'
    have key : a.1 = b.1 := List.le_antisymm le le'
    have row := mem_inOrder.mp mem
    rw [key, (exact b).mp mem', Option.some.injEq] at row
    exact Prod.ext key row.symm
  · exact List.le_of_lt less

/-- Strings of one length are compared by the first difference. -/
theorem append_lt_append {a b c d : List UInt8} (length : a.length = b.length) (less : a < b) :
    a ++ c < b ++ d := by
  induction a generalizing b with
  | nil =>
    cases b with
    | nil => exact absurd less (List.lt_irrefl [])
    | cons y b => cases length
  | cons x a ih =>
    cases b with
    | nil => cases length
    | cons y b =>
      rw [List.cons_lt_cons_iff] at less
      rw [List.cons_append, List.cons_append, List.cons_lt_cons_iff]
      rcases less with first | ⟨same, rest⟩
      · exact .inl first
      · exact .inr ⟨same, ih (Nat.succ.inj length) rest⟩

theorem beBytes_succ (n x : Nat) :
    beBytes (n + 1) x = beBytes n (x / 256) ++ [UInt8.ofNat (x % 256)] := by
  rw [beBytes, leBytes, List.reverse_cons, beBytes]

/-- The order of big-endian numbers is the order of their bytes. -/
theorem beBytes_lt_beBytes {n x y : Nat} (less : x < y) (fits : y < 256 ^ n) :
    beBytes n x < beBytes n y := by
  induction n generalizing x y with
  | zero => omega
  | succ n ih =>
    rw [beBytes_succ, beBytes_succ]
    rw [Nat.pow_succ] at fits
    by_cases high : x / 256 < y / 256
    · exact append_lt_append (by simp) (ih high (Nat.div_lt_of_lt_mul (by omega)))
    · have same : x / 256 = y / 256 := by omega
      rw [same]
      apply List.append_left_lt
      rw [List.cons_lt_cons_iff, UInt8.lt_iff_toNat_lt,
        UInt8.toNat_ofNat_of_lt' (Nat.mod_lt x (by decide)),
        UInt8.toNat_ofNat_of_lt' (Nat.mod_lt y (by decide))]
      exact .inl (show x % 256 < y % 256 by omega)

end Order

end Rows

end StryiChain
