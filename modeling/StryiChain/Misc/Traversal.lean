import Mathlib.Algebra.GroupWithZero.Nat
import Mathlib.Algebra.Order.BigOperators.Group.List
import Mathlib.Algebra.Order.Group.Nat
import Mathlib.Data.List.Perm.Subperm
import Mathlib.Logic.Relation
import Mathlib.Tactic.Common

/-!
# Traversals of a finite graph

A graph is given by the successors of a node, in the order in which they are visited. The loops
below are the breadth-first walk with a queue, the depth-first collection with a stack and the
recursive depth-first search that lists a node after everything below it. Each runs on fuel; the
bound that the lemmas ask for is the number of nodes or of edges.
-/

namespace StryiChain

open Relation

variable {α : Type} [DecidableEq α]

/-- A breadth-first walk: what has been discovered, in order, and what is still to be expanded. -/
structure Walk (α : Type) where
  visited : List α
  queue : List α

namespace Walk

/-- One edge of the walk. -/
def discover (w : Walk α) (a : α) : Walk α :=
  if a ∈ w.visited then w else ⟨w.visited ++ [a], w.queue ++ [a]⟩

/-- The loop of the walk. -/
def run (next : α → List α) : Nat → Walk α → Walk α
  | 0, w => w
  | fuel + 1, w =>
      match w.queue with
      | [] => w
      | a :: rest => run next fuel ((next a).foldl discover ⟨w.visited, rest⟩)

/-- Following a list of edges discovers their new targets, each once. -/
theorem foldl_discover (l : List α) (w : Walk α) :
    ∃ new, l.foldl discover w = ⟨w.visited ++ new, w.queue ++ new⟩ ∧ new.Nodup ∧
      ∀ a, a ∈ new ↔ a ∈ l ∧ a ∉ w.visited := by
  induction l generalizing w with
  | nil => exact ⟨[], by simp⟩
  | cons b l ih =>
    rw [List.foldl_cons]
    by_cases old : b ∈ w.visited
    · obtain ⟨new, result, distinct, mem⟩ := ih w
      refine ⟨new, by rw [discover, if_pos old, result], distinct, fun a => ?_⟩
      rw [mem, List.mem_cons]
      constructor
      · rintro ⟨here, fresh⟩
        exact ⟨.inr here, fresh⟩
      · rintro ⟨rfl | here, fresh⟩
        · exact absurd old fresh
        · exact ⟨here, fresh⟩
    · obtain ⟨new, result, distinct, mem⟩ := ih ⟨w.visited ++ [b], w.queue ++ [b]⟩
      refine ⟨b :: new, by rw [discover, if_neg old, result]; simp, ?_, fun a => ?_⟩
      · rw [List.nodup_cons, mem]
        exact ⟨fun h => h.2 (by simp), distinct⟩
      · simp only [List.mem_cons, mem, List.mem_append, List.not_mem_nil, or_false, not_or]
        constructor
        · rintro (rfl | ⟨here, fresh, -⟩)
          · exact ⟨.inl rfl, old⟩
          · exact ⟨.inr here, fresh⟩
        · rintro ⟨rfl | here, fresh⟩
          · exact .inl rfl
          · by_cases same : a = b
            · exact .inl same
            · exact .inr ⟨here, fresh, same⟩

variable {next : α → List α} {nodes : List α} {start : α} {w : Walk α}

/-- What the loop keeps: everything discovered is below the start, and what is below it and not
discovered yet lies behind the queue. -/
structure Inv (next : α → List α) (nodes : List α) (start : α) (w : Walk α) : Prop where
  distinct : w.visited.Nodup
  inside : ∀ a ∈ w.visited, a ∈ nodes
  below : ∀ a ∈ w.visited, TransGen (fun a b => b ∈ next a) start a
  known : ∀ a ∈ w.queue, a = start ∨ a ∈ w.visited
  expanded : ∀ a, a = start ∨ a ∈ w.visited → a ∈ w.queue ∨ ∀ b ∈ next a, b ∈ w.visited

omit [DecidableEq α] in
theorem Inv.init (next : α → List α) (nodes : List α) (start : α) :
    Inv next nodes start ⟨[], [start]⟩ where
  distinct := List.nodup_nil
  inside := by simp
  below := by simp
  known := by simp
  expanded := by simp

/-- One iteration keeps the invariant, and discovers as much as it adds to the queue. -/
theorem Inv.step {a : α} {rest : List α} (inv : Inv next nodes start w)
    (closed : ∀ a, ∀ b ∈ next a, b ∈ nodes) (head : w.queue = a :: rest) :
    ∃ new, (next a).foldl discover ⟨w.visited, rest⟩ = ⟨w.visited ++ new, rest ++ new⟩ ∧
      Inv next nodes start ⟨w.visited ++ new, rest ++ new⟩ := by
  obtain ⟨new, result, distinct, mem⟩ := foldl_discover (next a) ⟨w.visited, rest⟩
  have origin : TransGen (fun a b => b ∈ next a) start a ∨ a = start := by
    rcases inv.known a (by simp [head]) with rfl | here
    · exact .inr rfl
    · exact .inl (inv.below a here)
  refine ⟨new, result, ?_, ?_, ?_, ?_, ?_⟩
  · refine List.nodup_append.mpr ⟨inv.distinct, distinct, ?_⟩
    rintro b old _ fresh rfl
    exact ((mem b).mp fresh).2 old
  · intro b here
    rcases List.mem_append.mp here with old | fresh
    · exact inv.inside b old
    · exact closed a b ((mem b).mp fresh).1
  · intro b here
    rcases List.mem_append.mp here with old | fresh
    · exact inv.below b old
    · have edge := ((mem b).mp fresh).1
      rcases origin with path | rfl
      · exact path.tail edge
      · exact .single edge
  · intro b here
    rcases List.mem_append.mp here with old | fresh
    · rcases inv.known b (by simp [head, old]) with same | old
      · exact .inl same
      · exact .inr (List.mem_append_left _ old)
    · exact .inr (List.mem_append_right _ fresh)
  · intro b here
    by_cases same : b = a
    · -- the node that has just been taken from the queue
      subst same
      refine .inr fun c edge => List.mem_append.mpr ?_
      by_cases old : c ∈ w.visited
      · exact .inl old
      · exact .inr ((mem c).mpr ⟨edge, old⟩)
    · have before : b = start ∨ b ∈ w.visited ∨ b ∈ new := by simpa [List.mem_append] using here
      rcases before with first | old | fresh
      · rcases inv.expanded b (.inl first) with waiting | done
        · rw [head, List.mem_cons] at waiting
          exact .inl (List.mem_append_left _ (waiting.resolve_left same))
        · exact .inr fun c edge => List.mem_append_left _ (done c edge)
      · rcases inv.expanded b (.inr old) with waiting | done
        · rw [head, List.mem_cons] at waiting
          exact .inl (List.mem_append_left _ (waiting.resolve_left same))
        · exact .inr fun c edge => List.mem_append_left _ (done c edge)
      · exact .inl (List.mem_append_right _ fresh)

/-- With enough fuel the walk ends with an empty queue. -/
theorem Inv.run (closed : ∀ a, ∀ b ∈ next a, b ∈ nodes) (fuel : Nat)
    (inv : Inv next nodes start w)
    (enough : w.queue.length + nodes.length ≤ fuel + w.visited.length) :
    Inv next nodes start (run next fuel w) ∧ (run next fuel w).queue = [] := by
  induction fuel generalizing w with
  | zero =>
    refine ⟨inv, List.length_eq_zero_iff.mp ?_⟩
    have bound := (List.subperm_of_subset inv.distinct inv.inside).length_le
    dsimp only [Walk.run]
    omega
  | succ fuel ih =>
    unfold Walk.run
    split
    · rename_i empty
      exact ⟨inv, empty⟩
    · rename_i a rest head
      obtain ⟨new, result, inv'⟩ := inv.step closed head
      rw [result]
      refine ih inv' ?_
      have size : w.queue.length = rest.length + 1 := by simp [head]
      simp only [List.length_append]
      omega

/-- The walk discovers exactly what is below its start. -/
theorem mem_run_visited (closed : ∀ a, ∀ b ∈ next a, b ∈ nodes) (a : α) :
    a ∈ (run next (nodes.length + 1) ⟨[], [start]⟩).visited ↔
      TransGen (fun a b => b ∈ next a) start a := by
  obtain ⟨inv, empty⟩ := (Inv.init next nodes start).run closed (nodes.length + 1) (by simp; omega)
  constructor
  · exact inv.below a
  · intro path
    have done : ∀ c, c = start ∨ c ∈ (run next (nodes.length + 1) ⟨[], [start]⟩).visited →
        ∀ b ∈ next c, b ∈ (run next (nodes.length + 1) ⟨[], [start]⟩).visited := by
      intro c here
      rcases inv.expanded c here with waiting | done
      · rw [empty] at waiting
        cases waiting
      · exact done
    induction path with
    | single edge => exact done _ (.inl rfl) _ edge
    | tail _ edge ih => exact done _ (.inr ih) _ edge

end Walk

section Gather

/-- No element leads to two elements that lead to `h`. -/
def TreeAbove {α : Type} (R : α → α → Prop) (h : α) : Prop :=
  ∀ a c c', R a c → R a c' → ReflTransGen R c h → ReflTransGen R c' h → c = c'

omit [DecidableEq α] in
theorem TreeAbove.mono {R R' : α → α → Prop} {h : α} (tree : TreeAbove R h)
    (fewer : ∀ a b, R' a b → R a b) : TreeAbove R' h := by
  intro a c c' first second below below'
  exact tree a c c' (fewer a c first) (fewer a c' second) (ReflTransGen.mono fewer c h below)
    (ReflTransGen.mono fewer c' h below')

/-- Depth-first collection with a stack: a node is collected when it is first taken from the
stack, and its successors are pushed in order. The last node collected is first in the result. -/
def gather (next : α → List α) : Nat → List α → List α → List α
  | 0, _, found => found
  | _ + 1, [], found => found
  | fuel + 1, a :: stack, found =>
      if a ∈ found then gather next fuel stack found
      else gather next fuel ((next a).reverse ++ stack) (a :: found)

/-- The edges that leave the nodes not collected yet. -/
def openEdges (next : α → List α) (nodes found : List α) : Nat :=
  ((nodes.filter (· ∉ found)).map fun a => (next a).length).sum

variable {next : α → List α} {nodes : List α} {start : α}

/-- What the loop over the stack keeps. -/
structure GatherInv (next : α → List α) (nodes : List α) (start : α) (stack found : List α) :
    Prop where
  distinct : found.Nodup
  inside : ∀ a, a ∈ stack ∨ a ∈ found → a ∈ nodes
  below : ∀ a, a ∈ stack ∨ a ∈ found → ReflTransGen (fun a b => b ∈ next a) start a
  first : start ∈ stack ∨ start ∈ found
  expanded : ∀ a ∈ found, ∀ b ∈ next a, b ∈ stack ∨ b ∈ found

theorem openEdges_cons {found : List α} {a : α} (here : a ∈ nodes) (new : a ∉ found) :
    openEdges next nodes (a :: found) + (next a).length ≤ openEdges next nodes found := by
  have apart : (a :: nodes.filter (· ∉ a :: found)).Subperm (nodes.filter (· ∉ found)) := by
    rw [List.subperm_ext_iff]
    intro b mem
    rcases List.mem_cons.mp mem with rfl | mem
    · rw [List.count_cons_self, List.count_eq_zero_of_not_mem (by simp), Nat.zero_add]
      exact List.one_le_count_iff.mpr (List.mem_filter.mpr ⟨here, by simpa using new⟩)
    · have other : a ≠ b := by
        rintro rfl
        simp at mem
      have kept : b ∉ found := by
        have := (List.mem_filter.mp mem).2
        simp only [List.mem_cons, not_or, decide_eq_true_eq] at this
        exact this.2
      rw [List.count_cons_of_ne other, List.count_filter (by simpa using ⟨fun h => other h.symm, kept⟩),
        List.count_filter (by simpa using kept)]
  obtain ⟨l, perm, sub⟩ := apart
  have le := (sub.map fun a => (next a).length).sum_le_sum fun _ _ => Nat.zero_le _
  rw [(perm.map _).sum_eq, List.map_cons, List.sum_cons] at le
  unfold openEdges
  omega

omit [DecidableEq α] in
/-- A node that is collected already is dropped from the stack. -/
theorem GatherInv.skip {a : α} {stack found : List α}
    (inv : GatherInv next nodes start (a :: stack) found) (old : a ∈ found) :
    GatherInv next nodes start stack found := by
  have drop : ∀ b, b ∈ a :: stack ∨ b ∈ found → b ∈ stack ∨ b ∈ found := by
    intro b mem
    rcases mem with here | here
    · rcases List.mem_cons.mp here with rfl | here
      · exact .inr old
      · exact .inl here
    · exact .inr here
  refine ⟨inv.distinct, fun b mem => inv.inside b ?_, fun b mem => inv.below b ?_,
    drop _ inv.first, fun b mem c edge => drop c (inv.expanded b mem c edge)⟩
  · exact mem.imp_left (List.mem_cons_of_mem _)
  · exact mem.imp_left (List.mem_cons_of_mem _)

omit [DecidableEq α] in
/-- A new node is collected, and its successors go onto the stack. -/
theorem GatherInv.visit {a : α} {stack found : List α} (closed : ∀ a, ∀ b ∈ next a, b ∈ nodes)
    (inv : GatherInv next nodes start (a :: stack) found) (new : a ∉ found) :
    GatherInv next nodes start ((next a).reverse ++ stack) (a :: found) := by
  have origin := inv.below a (.inl List.mem_cons_self)
  refine ⟨List.nodup_cons.mpr ⟨new, inv.distinct⟩, fun b mem => ?_, fun b mem => ?_, ?_, ?_⟩
  · simp only [List.mem_append, List.mem_reverse, List.mem_cons] at mem
    rcases mem with (edge | here) | rfl | here
    · exact closed a b edge
    · exact inv.inside b (.inl (List.mem_cons_of_mem _ here))
    · exact inv.inside b (.inl List.mem_cons_self)
    · exact inv.inside b (.inr here)
  · simp only [List.mem_append, List.mem_reverse, List.mem_cons] at mem
    rcases mem with (edge | here) | rfl | here
    · exact origin.tail edge
    · exact inv.below b (.inl (List.mem_cons_of_mem _ here))
    · exact origin
    · exact inv.below b (.inr here)
  · simp only [List.mem_append, List.mem_cons]
    rcases inv.first with here | here
    · rcases List.mem_cons.mp here with rfl | here
      · exact .inr (.inl rfl)
      · exact .inl (.inr here)
    · exact .inr (.inr here)
  · intro b mem c edge
    simp only [List.mem_append, List.mem_reverse, List.mem_cons]
    rcases List.mem_cons.mp mem with rfl | mem
    · exact .inl (.inl edge)
    · rcases inv.expanded b mem c edge with here | here
      · rcases List.mem_cons.mp here with rfl | here
        · exact .inr (.inl rfl)
        · exact .inl (.inr here)
      · exact .inr (.inr here)

theorem GatherInv.run (closed : ∀ a, ∀ b ∈ next a, b ∈ nodes) (fuel : Nat)
    {stack found : List α} (inv : GatherInv next nodes start stack found)
    (enough : stack.length + openEdges next nodes found ≤ fuel) :
    GatherInv next nodes start [] (gather next fuel stack found) := by
  induction fuel generalizing stack found with
  | zero =>
    have empty : stack = [] := List.length_eq_zero_iff.mp (by omega)
    subst empty
    exact inv
  | succ fuel ih =>
    cases stack with
    | nil => exact inv
    | cons a stack =>
      rw [List.length_cons] at enough
      rw [gather]
      split
      · rename_i old
        exact ih (inv.skip old) (by omega)
      · rename_i new
        have fewer : openEdges next nodes (a :: found) + (next a).length ≤
            openEdges next nodes found :=
          openEdges_cons (inv.inside a (.inl List.mem_cons_self)) new
        refine ih (inv.visit closed new) ?_
        rw [List.length_append, List.length_reverse]
        omega

/-- The collection from a node of the graph keeps the invariant to its end. -/
theorem gather_inv (closed : ∀ a, ∀ b ∈ next a, b ∈ nodes) (here : start ∈ nodes) :
    GatherInv next nodes start [] (gather next (1 + openEdges next nodes []) [start] []) := by
  refine GatherInv.run closed _ ⟨List.nodup_nil, ?_, ?_, by simp, by simp⟩ (by simp)
  · intro a mem
    have same : a = start := by simpa using mem
    exact same ▸ here
  · intro a mem
    have same : a = start := by simpa using mem
    exact same ▸ .refl

/-- The collection contains its start and exactly what is below it. -/
theorem mem_gather (closed : ∀ a, ∀ b ∈ next a, b ∈ nodes) (here : start ∈ nodes) (a : α) :
    a ∈ gather next (1 + openEdges next nodes []) [start] [] ↔
      ReflTransGen (fun a b => b ∈ next a) start a := by
  have inv := gather_inv closed here
  constructor
  · intro mem
    exact inv.below a (.inr mem)
  · intro path
    induction path with
    | refl => exact inv.first.resolve_left List.not_mem_nil
    | tail _ edge ih => exact (inv.expanded _ ih _ edge).resolve_left List.not_mem_nil

/-- The order of the collection: every node but the start was pushed by one that is collected, and
no node is collected before a node that it is a successor of. -/
structure GatherOrder (next : α → List α) (start : α) (stack found : List α) : Prop where
  pushed : ∀ b, b ∈ stack ∨ b ∈ found → b = start ∨ ∃ a ∈ found, b ∈ next a
  ordered : found.Pairwise fun a b => b ∉ next a

omit [DecidableEq α] in
/-- Where a node is a successor of at most one, it waits for that one. -/
theorem GatherOrder.visit {a : α} {stack found : List α}
    (tree : TreeAbove (fun b a => b ∈ next a) start)
    (top : ∀ a, ReflTransGen (fun b a => b ∈ next a) a start → start ∉ next a)
    (inv : GatherInv next nodes start (a :: stack) found)
    (order : GatherOrder next start (a :: stack) found) (new : a ∉ found) :
    GatherOrder next start ((next a).reverse ++ stack) (a :: found) := by
  have below : ∀ b, b ∈ a :: stack ∨ b ∈ found → ReflTransGen (fun b a => b ∈ next a) b start :=
    fun b mem => (inv.below b mem).swap
  refine ⟨fun b mem => ?_, List.pairwise_cons.mpr ⟨fun b mem edge => ?_, order.ordered⟩⟩
  · have wider : (b = start ∨ ∃ a' ∈ found, b ∈ next a') →
        b = start ∨ ∃ a' ∈ a :: found, b ∈ next a' := by
      intro pushed
      exact pushed.imp_right fun ⟨a', mem, edge⟩ => ⟨a', List.mem_cons_of_mem _ mem, edge⟩
    simp only [List.mem_append, List.mem_reverse, List.mem_cons] at mem
    rcases mem with (edge | here) | rfl | here
    · exact .inr ⟨a, List.mem_cons_self, edge⟩
    · exact wider (order.pushed b (.inl (List.mem_cons_of_mem _ here)))
    · exact wider (order.pushed b (.inl List.mem_cons_self))
    · exact wider (order.pushed b (.inr here))
  · -- the node that has pushed `b` is the only one that leads to it
    have here := below a (.inl List.mem_cons_self)
    rcases order.pushed b (.inr mem) with rfl | ⟨a', mem', edge'⟩
    · exact top a here edge
    · exact new (tree b a a' edge edge' here (below a' (.inr mem')) ▸ mem')

/-- Below a start that nothing is reached from in two ways, every node is collected after the one
that it is a successor of. -/
theorem gather_ordered (closed : ∀ a, ∀ b ∈ next a, b ∈ nodes) (here : start ∈ nodes)
    (tree : TreeAbove (fun b a => b ∈ next a) start)
    (top : ∀ a, ReflTransGen (fun b a => b ∈ next a) a start → start ∉ next a) (fuel : Nat) :
    (gather next fuel [start] []).Pairwise fun a b => b ∉ next a := by
  have run : ∀ (fuel : Nat) (stack found : List α), GatherInv next nodes start stack found →
      GatherOrder next start stack found →
      (gather next fuel stack found).Pairwise fun a b => b ∉ next a := by
    intro fuel
    induction fuel with
    | zero => exact fun stack found _ order => order.ordered
    | succ fuel ih =>
      intro stack found inv order
      cases stack with
      | nil => exact order.ordered
      | cons a stack =>
        rw [gather]
        split
        · rename_i old
          refine ih stack found (inv.skip old) ⟨fun b mem => order.pushed b ?_, order.ordered⟩
          exact mem.imp_left (List.mem_cons_of_mem _)
        · rename_i new
          exact ih _ _ (inv.visit closed new) (order.visit tree top inv new)
  refine run fuel [start] [] ⟨List.nodup_nil, ?_, ?_, by simp, by simp⟩ ⟨?_, List.Pairwise.nil⟩
  · intro a mem
    have same : a = start := by simpa using mem
    exact same ▸ here
  · intro a mem
    have same : a = start := by simpa using mem
    exact same ▸ .refl
  · intro b mem
    exact .inl (by simpa using mem)

end Gather

section DepthFirst

/-- A depth-first search: the nodes entered and, in order, those that were left again. -/
structure Search (α : Type) where
  visited : List α
  finished : List α

/-- The search below a node that has not been entered yet. -/
def dfs (next : α → List α) : Nat → α → Search α → Search α
  | 0, _, s => s
  | fuel + 1, a, s =>
      let s := (next a).foldl (fun s b => if b ∈ s.visited then s else dfs next fuel b s)
        ⟨a :: s.visited, s.finished⟩
      ⟨s.visited, s.finished ++ [a]⟩

/-- The search from each node of a list that has not been entered before. -/
def dfsAll (next : α → List α) (fuel : Nat) (nodes : List α) (s : Search α) : Search α :=
  nodes.foldl (fun s a => if a ∈ s.visited then s else dfs next fuel a s) s

/-- The search `s'` continues `s` by entering new nodes of the graph, and leaving them again. -/
def Search.Continues (nodes : List α) (s s' : Search α) : Prop :=
  ∃ new, s'.finished = s.finished ++ new ∧ s'.visited.Perm (new ++ s.visited) ∧
    ∀ a ∈ new, a ∈ nodes

namespace Search

variable {next : α → List α} {nodes : List α} {s s' s'' : Search α}

omit [DecidableEq α] in
theorem Continues.refl (nodes : List α) (s : Search α) : Continues nodes s s :=
  ⟨[], by simp, by simp, by simp⟩

omit [DecidableEq α] in
theorem Continues.trans (one : Continues nodes s s') (two : Continues nodes s' s'') :
    Continues nodes s s'' := by
  obtain ⟨new, finished, visited, inside⟩ := one
  obtain ⟨new', finished', visited', inside'⟩ := two
  refine ⟨new ++ new', by rw [finished', finished, List.append_assoc], ?_, ?_⟩
  · refine visited'.trans ((visited.append_left new').trans ?_)
    rw [← List.append_assoc]
    exact List.perm_append_comm.append_right _
  · intro a mem
    rcases List.mem_append.mp mem with here | here
    · exact inside a here
    · exact inside' a here

omit [DecidableEq α] in
theorem Continues.mem_visited {a : α} (more : Continues nodes s s') (here : a ∈ s.visited) :
    a ∈ s'.visited := by
  obtain ⟨new, -, visited, -⟩ := more
  exact visited.mem_iff.mpr (List.mem_append_right _ here)

/-- A search that never enters a node twice. -/
structure Sound (nodes : List α) (s : Search α) : Prop where
  distinct : s.visited.Nodup
  inside : ∀ a ∈ s.visited, a ∈ nodes

omit [DecidableEq α] in
theorem Sound.enter {a : α} (sound : Sound nodes s) (here : a ∈ nodes) (new : a ∉ s.visited) :
    Sound nodes ⟨a :: s.visited, s.finished⟩ := by
  refine ⟨List.nodup_cons.mpr ⟨new, sound.distinct⟩, fun b mem => ?_⟩
  rcases List.mem_cons.mp mem with rfl | mem
  · exact here
  · exact sound.inside b mem

end Search

variable {next : α → List α} {nodes : List α}

open Search

/-- A loop of searches keeps what each search keeps. -/
theorem foldl_visit (visit : α → Search α → Search α) {l : List α}
    (one : ∀ s, Sound nodes s → ∀ a ∈ l, a ∉ s.visited →
      Continues nodes s (visit a s) ∧ Sound nodes (visit a s))
    {s : Search α} (sound : Sound nodes s) :
    Continues nodes s (l.foldl (fun s a => if a ∈ s.visited then s else visit a s) s) ∧
      Sound nodes (l.foldl (fun s a => if a ∈ s.visited then s else visit a s) s) := by
  induction l generalizing s with
  | nil => exact ⟨.refl nodes s, sound⟩
  | cons b l ih =>
    rw [List.foldl_cons]
    have rest : ∀ s, Sound nodes s → ∀ a ∈ l, a ∉ s.visited →
        Continues nodes s (visit a s) ∧ Sound nodes (visit a s) :=
      fun s sound a mem => one s sound a (List.mem_cons_of_mem _ mem)
    split
    · exact ih rest sound
    · rename_i new
      obtain ⟨more, sound'⟩ := one s sound b List.mem_cons_self new
      obtain ⟨more', sound''⟩ := ih rest sound'
      exact ⟨more.trans more', sound''⟩

/-- A search enters new nodes only, and leaves every node it has entered. -/
theorem dfs_continues (closed : ∀ a, ∀ b ∈ next a, b ∈ nodes) (fuel : Nat) {a : α} {s : Search α}
    (sound : Sound nodes s) (here : a ∈ nodes) (new : a ∉ s.visited) :
    Continues nodes s (dfs next fuel a s) ∧ Sound nodes (dfs next fuel a s) := by
  induction fuel generalizing a s with
  | zero => exact ⟨.refl nodes s, sound⟩
  | succ fuel ih =>
    obtain ⟨⟨below, finished, visited, inside⟩, sound'⟩ := foldl_visit _
      (fun s sound b edge new => ih sound (closed a b edge) new) (sound.enter here new)
    refine ⟨⟨below ++ [a], ?_, ?_, ?_⟩, ⟨sound'.distinct, sound'.inside⟩⟩
    · rw [dfs]
      simp only [finished, List.append_assoc]
    · rw [dfs]
      simpa using visited
    · intro b mem
      rcases List.mem_append.mp mem with mem | mem
      · exact inside b mem
      · rw [List.mem_singleton] at mem
        exact mem ▸ here

/-- The search below a node enters the node. -/
theorem mem_dfs_visited (closed : ∀ a, ∀ b ∈ next a, b ∈ nodes) (fuel : Nat) {a : α} {s : Search α}
    (sound : Sound nodes s) (here : a ∈ nodes) (new : a ∉ s.visited) :
    a ∈ (dfs next (fuel + 1) a s).visited := by
  have more := (foldl_visit (dfs next fuel)
    (fun s sound b edge new => dfs_continues closed fuel sound (closed a b edge) new)
    (sound.enter here new)).1
  rw [dfs]
  exact more.mem_visited List.mem_cons_self

/-- The search over all nodes leaves each of them exactly once. -/
theorem dfsAll_perm (closed : ∀ a, ∀ b ∈ next a, b ∈ nodes) (distinct : nodes.Nodup) (fuel : Nat) :
    (dfsAll next (fuel + 1) nodes ⟨[], []⟩).finished.Perm nodes := by
  have empty : Sound nodes (⟨[], []⟩ : Search α) := ⟨List.nodup_nil, by simp⟩
  have one : ∀ s, Sound nodes s → ∀ a ∈ nodes, a ∉ s.visited →
      Continues nodes s (dfs next (fuel + 1) a s) ∧ Sound nodes (dfs next (fuel + 1) a s) :=
    fun s sound a here new => dfs_continues closed (fuel + 1) sound here new
  obtain ⟨⟨new, finished, visited, inside⟩, sound⟩ := foldl_visit _ one empty
  have all : ∀ l : List α, (∀ a ∈ l, a ∈ nodes) → ∀ s, Sound nodes s →
      ∀ a ∈ l, a ∈ (dfsAll next (fuel + 1) l s).visited := by
    intro l
    induction l with
    | nil => simp
    | cons b l ih =>
      intro sub s sound a mem
      have here : b ∈ nodes := sub b List.mem_cons_self
      have rest : ∀ a ∈ l, a ∈ nodes := fun a mem => sub a (List.mem_cons_of_mem _ mem)
      rw [dfsAll, List.foldl_cons]
      rcases List.mem_cons.mp mem with rfl | mem
      · have later := fun s sound => (foldl_visit (l := l) _
          (fun s sound a mem new => one s sound a (rest a mem) new) (s := s) sound).1
        split
        · rename_i old
          exact (later s sound).mem_visited old
        · rename_i new
          exact (later _ (one s sound a here new).2).mem_visited
            (mem_dfs_visited closed fuel sound here new)
      · split
        · exact ih rest s sound a mem
        · rename_i new
          exact ih rest _ (one s sound b here new).2 a mem
  have listed : (dfsAll next (fuel + 1) nodes ⟨[], []⟩).finished.Perm
      (dfsAll next (fuel + 1) nodes ⟨[], []⟩).visited := by
    rw [dfsAll, finished]
    simpa using visited.symm
  refine listed.trans ((List.perm_ext_iff_of_nodup sound.distinct distinct).mpr fun a => ?_)
  exact ⟨sound.inside a, all nodes (fun _ mem => mem) _ empty a⟩

end DepthFirst

end StryiChain
