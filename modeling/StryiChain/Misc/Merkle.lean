import Mathlib.Data.List.Nodup
import Mathlib.Data.Set.Function

/-!
# Merkle trees

The tree over a list of digests in which neighbours are combined and an odd last node is combined
with itself, for any function that combines two digests. Nothing is assumed about that function
beyond the pairs it is really applied to: it is injective on them, and none of its results is a
leaf. Then the root names the leaves, as long as no leaf is repeated, and a path that ends in the
root starts in a leaf.
-/

namespace StryiChain.Merkle

variable {D : Type} {node : D → D → D}

/-- The nodes of a level that are combined. -/
def pairs : List D → List (D × D)
  | left :: right :: rest => (left, right) :: pairs rest
  | [last] => [(last, last)]
  | [] => []

/-- The level above. -/
def next (node : D → D → D) (level : List D) : List D := (pairs level).map fun p => node p.1 p.2

/-- The levels of the tree over the leaves. -/
inductive Level (node : D → D → D) (leaves : List D) : List D → Prop
  | leaves : Level node leaves leaves
  | next {level : List D} : Level node leaves level → 1 < level.length →
      Level node leaves (next node level)

/-- The pairs that are combined when the tree is built. -/
def Combined (node : D → D → D) (leaves : List D) (p : D × D) : Prop :=
  ∃ level, Level node leaves level ∧ 1 < level.length ∧ p ∈ pairs level

section Pairs

variable {level level' : List D} {p : D × D} {d : D}

theorem getElem?_pairs (level : List D) (k : Nat) :
    (pairs level)[k]? = (level[2 * k]?).map fun left => (left, (level[2 * k + 1]?).getD left) := by
  induction level using pairs.induct generalizing k with
  | case1 left right rest ih =>
    cases k with
    | zero => rfl
    | succ k =>
      rw [pairs, List.getElem?_cons_succ, ih]
      rfl
  | case2 last =>
    cases k with
    | zero => rfl
    | succ k => simp [pairs, Nat.mul_add]
  | case3 => simp [pairs]

theorem length_pairs (level : List D) : (pairs level).length = (level.length + 1) / 2 := by
  induction level using pairs.induct with
  | case1 left right rest ih =>
    rw [pairs, List.length_cons, ih, List.length_cons, List.length_cons]
    omega
  | case2 last => simp [pairs]
  | case3 => simp [pairs]

@[simp] theorem length_next (node : D → D → D) (level : List D) :
    (next node level).length = (level.length + 1) / 2 := by
  rw [next, List.length_map, length_pairs]

theorem mem_of_mem_pairs (mem : p ∈ pairs level) : p.1 ∈ level ∧ p.2 ∈ level := by
  obtain ⟨k, at_k⟩ := List.mem_iff_getElem?.mp mem
  rw [getElem?_pairs, Option.map_eq_some_iff] at at_k
  obtain ⟨left, at_left, rfl⟩ := at_k
  refine ⟨List.mem_of_getElem? at_left, ?_⟩
  cases at_right : level[2 * k + 1]? with
  | none => exact List.mem_of_getElem? at_left
  | some right => exact List.mem_of_getElem? at_right

/-- The left nodes of a level come in its order. -/
theorem lefts_sublist (level : List D) : ((pairs level).map Prod.fst).Sublist level := by
  induction level using pairs.induct with
  | case1 left right rest ih => exact .cons_cons left (.cons right ih)
  | case2 last => exact .refl _
  | case3 => exact .refl _

/-- Without repetitions a level cannot end in its own padding. -/
theorem pairs_injective (distinct : level.Nodup) (distinct' : level'.Nodup)
    (same : pairs level = pairs level') : level = level' := by
  induction level using pairs.induct generalizing level' with
  | case1 left right rest ih =>
    match level', distinct', same with
    | left' :: right' :: rest', distinct', same =>
      rw [pairs, pairs, List.cons.injEq, Prod.mk.injEq] at same
      obtain ⟨⟨rfl, rfl⟩, same⟩ := same
      rw [ih distinct.of_cons.of_cons distinct'.of_cons.of_cons same]
    | [last'], _, same =>
      rw [pairs, pairs, List.cons.injEq, Prod.mk.injEq] at same
      obtain ⟨⟨rfl, rfl⟩, -⟩ := same
      exact absurd List.mem_cons_self (List.nodup_cons.mp distinct).1
  | case2 last =>
    match level', distinct', same with
    | left' :: right' :: rest', distinct', same =>
      rw [pairs, pairs, List.cons.injEq, Prod.mk.injEq] at same
      obtain ⟨⟨rfl, rfl⟩, -⟩ := same
      exact absurd List.mem_cons_self (List.nodup_cons.mp distinct').1
    | [last'], _, same =>
      rw [pairs, pairs, List.cons.injEq, Prod.mk.injEq] at same
      rw [same.1.1]
  | case3 =>
    cases level' with
    | nil => rfl
    | cons first rest =>
      have length := congrArg List.length same
      rw [length_pairs, length_pairs, List.length_cons, List.length_nil] at length
      omega

/-- Two lists with the same image under a function that is injective on them. -/
theorem eq_of_map_eq {α β : Type} {f : α → β} {s : Set α} (inj : Set.InjOn f s) {l l' : List α}
    (sub : ∀ x ∈ l, x ∈ s) (sub' : ∀ x ∈ l', x ∈ s) (same : l.map f = l'.map f) : l = l' := by
  induction l generalizing l' with
  | nil => exact (List.map_eq_nil_iff.mp same.symm).symm
  | cons x l ih =>
    cases l' with
    | nil => cases same
    | cons x' l' =>
      rw [List.map_cons, List.map_cons, List.cons.injEq] at same
      rw [List.forall_mem_cons] at sub sub'
      rw [inj sub.1 sub'.1 same.1, ih sub.2 sub'.2 same.2]

/-- A level without repetitions is followed by one. -/
theorem nodup_next (inj : Set.InjOn (fun p : D × D => node p.1 p.2) {p | p ∈ pairs level})
    (distinct : level.Nodup) : (next node level).Nodup :=
  ((distinct.sublist (lefts_sublist level)).of_map _).map_on
    fun _ mem _ mem' same => inj mem mem' same

/-- The node above a position combines the node there with its neighbour, on the side that the
parity of the position tells. -/
theorem getElem?_next {index : Nat} {sibling : D} (at_index : level[index]? = some d)
    (beside : (level[if index % 2 = 0 then index + 1 else index - 1]?).or level.getLast? =
      some sibling) :
    (next node level)[index / 2]? =
      some (if index % 2 = 0 then node d sibling else node sibling d) := by
  have inside := (List.getElem?_eq_some_iff.mp at_index).1
  rw [next, List.getElem?_map, getElem?_pairs]
  rcases Nat.mod_two_eq_zero_or_one index with even | odd
  · have double : 2 * (index / 2) = index := by omega
    rw [if_pos even] at beside ⊢
    rw [double, at_index]
    cases at_right : level[index + 1]? with
    | some right =>
      rw [at_right, Option.some_or, Option.some.injEq] at beside
      rw [beside]
      rfl
    | none =>
      -- the last node is its own neighbour
      have last : index = level.length - 1 := by
        rw [List.getElem?_eq_none_iff] at at_right
        omega
      rw [at_right, Option.none_or, List.getLast?_eq_getElem?, ← last, at_index,
        Option.some.injEq] at beside
      rw [beside]
      rfl
  · have double : 2 * (index / 2) = index - 1 := by omega
    have before : level[index - 1]? = some level[index - 1] := List.getElem?_eq_getElem (by omega)
    rw [if_neg (by omega)] at beside ⊢
    rw [before, Option.some_or, Option.some.injEq] at beside
    rw [double, before, Nat.sub_add_cancel (by omega), at_index, beside]
    rfl

end Pairs

section Tree

variable {leaves leaves' level : List D} {p : D × D} {d root : D}

/-- The tree over the second level is the tree without its leaves. -/
theorem Level.of_next (reached : Level node (Merkle.next node leaves) level)
    (several : 1 < leaves.length) : Level node leaves level := by
  induction reached with
  | leaves => exact .next .leaves several
  | next _ more ih => exact ih.next more

/-- A node of the tree is a leaf or a pair combined. -/
theorem Level.mem_cases (reached : Level node leaves level) (mem : d ∈ level) :
    d ∈ leaves ∨ ∃ p, Combined node leaves p ∧ d = node p.1 p.2 := by
  cases reached with
  | leaves => exact .inl mem
  | @next below reached several =>
    obtain ⟨p, inside, rfl⟩ := List.mem_map.mp mem
    exact .inr ⟨p, ⟨below, reached, several, inside⟩, rfl⟩

theorem Level.nodup (reached : Level node leaves level)
    (inj : Set.InjOn (fun p : D × D => node p.1 p.2) {p | Combined node leaves p})
    (distinct : leaves.Nodup) : level.Nodup := by
  induction reached with
  | leaves => exact distinct
  | @next below reached several ih =>
    have used : {p | p ∈ pairs below} ⊆ {p | Combined node leaves p} :=
      fun _ mem => ⟨below, reached, several, mem⟩
    exact nodup_next (inj.mono used) ih

/-- Two trees that share a level are one within the other. -/
theorem Level.common
    (inj : Set.InjOn (fun p : D × D => node p.1 p.2)
      {p | Combined node leaves p ∨ Combined node leaves' p})
    (distinct : leaves.Nodup) (distinct' : leaves'.Nodup) (reached : Level node leaves level)
    (reached' : Level node leaves' level) :
    Level node leaves' leaves ∨ Level node leaves leaves' := by
  induction reached with
  | leaves => exact .inl reached'
  | @next below reached several ih =>
    -- the levels below are equal, unless the other tree starts here
    generalize same : Merkle.next node below = level at reached'
    cases reached' with
    | leaves => exact .inr (same ▸ reached.next several)
    | @next below' reached' several' =>
      have samePairs : pairs below = pairs below' :=
        eq_of_map_eq inj (fun _ mem => .inl ⟨below, reached, several, mem⟩)
          (fun _ mem => .inr ⟨below', reached', several', mem⟩) same
      have nodup := reached.nodup (inj.mono fun _ => .inl) distinct
      have nodup' := reached'.nodup (inj.mono fun _ => .inr) distinct'
      rw [← pairs_injective nodup nodup' samePairs] at reached'
      exact ih reached'

/-- The leaves of a tree are not a level above other leaves. -/
theorem Level.eq_leaves (apart : ∀ d ∈ level, ∀ p, Combined node leaves p → d ≠ node p.1 p.2)
    (ne : level ≠ []) (reached : Level node leaves level) : level = leaves := by
  cases reached with
  | leaves => rfl
  | @next below reached several =>
    obtain ⟨d, mem⟩ := List.exists_mem_of_ne_nil _ ne
    obtain ⟨p, inside, rfl⟩ := List.mem_map.mp mem
    exact absurd rfl (apart _ mem p ⟨below, reached, several, inside⟩)

/-- The root names the leaves. -/
theorem leaves_eq_of_root
    (inj : Set.InjOn (fun p : D × D => node p.1 p.2)
      {p | Combined node leaves p ∨ Combined node leaves' p})
    (apart : ∀ d, d ∈ leaves ∨ d ∈ leaves' →
      ∀ p, Combined node leaves p ∨ Combined node leaves' p → d ≠ node p.1 p.2)
    (distinct : leaves.Nodup) (distinct' : leaves'.Nodup) (ne : leaves ≠ []) (ne' : leaves' ≠ [])
    (reached : Level node leaves [root]) (reached' : Level node leaves' [root]) :
    leaves = leaves' := by
  rcases reached.common inj distinct distinct' reached' with within | within
  · exact within.eq_leaves (fun d mem p used => apart d (.inl mem) p (.inr used)) ne
  · exact (within.eq_leaves (fun d mem p used => apart d (.inr mem) p (.inl used)) ne').symm

end Tree

section Path

/-- The digest recomputed along a path: the parity of the position tells the side. -/
def climb (node : D → D → D) : D → Nat → List D → D
  | digest, _, [] => digest
  | digest, index, sibling :: rest =>
      climb node (if index % 2 = 0 then node digest sibling else node sibling digest)
        (index / 2) rest

/-- The pairs that are combined along a path. -/
def path (node : D → D → D) : D → Nat → List D → List (D × D)
  | _, _, [] => []
  | digest, index, sibling :: rest =>
      let p := if index % 2 = 0 then (digest, sibling) else (sibling, digest)
      p :: path node (node p.1 p.2) (index / 2) rest

variable {leaves siblings : List D} {d root : D} {index : Nat}

theorem climb_cons (node : D → D → D) (d : D) (index : Nat) (sibling : D) (rest : List D) :
    ∃ p : D × D, (d = p.1 ∨ d = p.2) ∧
      climb node d index (sibling :: rest) = climb node (node p.1 p.2) (index / 2) rest ∧
      path node d index (sibling :: rest) = p :: path node (node p.1 p.2) (index / 2) rest := by
  rcases Nat.mod_two_eq_zero_or_one index with even | odd
  · exact ⟨(d, sibling), .inl rfl, by rw [climb, if_pos even], by rw [path, if_pos even]⟩
  · have odd' : ¬ index % 2 = 0 := by omega
    exact ⟨(sibling, d), .inr rfl, by rw [climb, if_neg odd'], by rw [path, if_neg odd']⟩

/-- A path that ends in a node of the tree starts in one, by induction on the path from its upper
end: it can neither pass the leaves nor leave the tree. -/
theorem exists_level_of_climb
    (inj : Set.InjOn (fun p : D × D => node p.1 p.2)
      {p | Combined node leaves p ∨ p ∈ path node d index siblings})
    (apart : ∀ leaf ∈ leaves, ∀ p ∈ path node d index siblings, leaf ≠ node p.1 p.2)
    (reached : ∃ level, Level node leaves level ∧ climb node d index siblings ∈ level) :
    ∃ level, Level node leaves level ∧ d ∈ level := by
  induction siblings generalizing d index with
  | nil => exact reached
  | cons sibling rest ih =>
    obtain ⟨p, side, climbs, paths⟩ := climb_cons node d index sibling rest
    rw [climbs] at reached
    rw [paths] at inj apart
    have above := ih (inj.mono fun q mem => mem.imp_right (List.mem_cons_of_mem p))
      (fun leaf mem q inside => apart leaf mem q (List.mem_cons_of_mem p inside)) reached
    obtain ⟨level, levelReached, inside⟩ := above
    cases levelReached with
    | leaves => exact absurd rfl (apart _ inside p List.mem_cons_self)
    | @next below belowReached several =>
      obtain ⟨q, combined, same⟩ := List.mem_map.mp inside
      have equal : q = p :=
        inj (.inl ⟨below, belowReached, several, combined⟩) (.inr List.mem_cons_self) same
      have both := mem_of_mem_pairs (equal ▸ combined)
      refine ⟨below, belowReached, ?_⟩
      rcases side with left | right
      · exact left ▸ both.1
      · exact right ▸ both.2

/-- A path that ends in the root starts in a leaf. -/
theorem mem_leaves_of_climb
    (inj : Set.InjOn (fun p : D × D => node p.1 p.2)
      {p | Combined node leaves p ∨ p ∈ path node d index siblings})
    (apart : ∀ leaf ∈ leaves, ∀ p ∈ path node d index siblings, leaf ≠ node p.1 p.2)
    (start : ∀ p, Combined node leaves p → d ≠ node p.1 p.2)
    (reached : Level node leaves [root]) (climbs : climb node d index siblings = root) :
    d ∈ leaves := by
  obtain ⟨level, levelReached, inside⟩ :=
    exists_level_of_climb inj apart ⟨[root], reached, climbs ▸ List.mem_singleton_self _⟩
  rcases levelReached.mem_cases inside with leaf | ⟨p, combined, same⟩
  · exact leaf
  · exact absurd same (start p combined)

end Path

end StryiChain.Merkle
