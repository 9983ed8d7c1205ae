import Mathlib.Tactic.Common

/-!
# Conditions along a run

A machine is a function from a state and an event to the next state, and a run is a list of
events. What holds in every state of a run is traced back to a condition on each event and the
state before it.
-/

namespace StryiChain

variable {σ ε : Type} {step : σ → ε → σ} {condition condition' : σ → ε → Prop} {s : σ}
  {events : List ε}

/-- A condition on every event of a run and the state before it. -/
def Throughout (step : σ → ε → σ) (condition : σ → ε → Prop) : σ → List ε → Prop
  | _, [] => True
  | s, event :: events => condition s event ∧ Throughout step condition (step s event) events

/-- The events of a run by their positions. -/
theorem throughout_iff : Throughout step condition s events ↔
    ∀ n event, events[n]? = some event → condition ((events.take n).foldl step s) event := by
  induction events generalizing s with
  | nil => simp [Throughout]
  | cons event events ih =>
    rw [Throughout, ih]
    constructor
    · intro along n e at_n
      cases n with
      | zero =>
        rw [List.getElem?_cons_zero, Option.some.injEq] at at_n
        exact at_n ▸ along.1
      | succ n => exact along.2 n e at_n
    · intro all
      exact ⟨all 0 event rfl, fun n e at_n => all (n + 1) e at_n⟩

/-- What every event keeps under the condition holds in every state of the run. -/
theorem Throughout.invariant {inv : σ → Prop} (along : Throughout step condition s events)
    (start : inv s) (keeps : ∀ s event, inv s → condition s event → inv (step s event)) (n : Nat) :
    inv ((events.take n).foldl step s) := by
  induction events generalizing s n with
  | nil => simpa using start
  | cons event events ih =>
    cases n with
    | zero => exact start
    | succ n => exact ih along.2 (keeps s event start along.1) n

/-- Along a run, an invariant turns one condition into another. -/
theorem Throughout.strengthen {inv : σ → Prop} (along : Throughout step condition s events)
    (start : inv s) (keeps : ∀ s event, inv s → condition s event → inv (step s event))
    (gives : ∀ s event, inv s → condition s event → condition' s event) :
    Throughout step condition' s events := by
  induction events generalizing s with
  | nil => trivial
  | cons event events ih =>
    exact ⟨gives s event start along.1, ih along.2 (keeps s event start along.1)⟩

/-- A property holds in every state of a run exactly when the condition holds along it: the
condition is necessary for the property at the next state, and enough for an invariant that
entails it. -/
theorem always_iff {strong weak : σ → Prop} {allowed : ε → Prop}
    (entails : ∀ s, strong s → weak s)
    (needed : ∀ s event, strong s → allowed event → weak (step s event) → condition s event)
    (enough : ∀ s event, strong s → allowed event → condition s event → strong (step s event))
    (start : strong s) (events : List ε) (ok : ∀ event ∈ events, allowed event) :
    (∀ n, weak ((events.take n).foldl step s)) ↔ Throughout step condition s events := by
  induction events generalizing s with
  | nil => simpa [Throughout] using entails s start
  | cons event events ih =>
    have here : allowed event := ok event List.mem_cons_self
    have later : ∀ e ∈ events, allowed e := fun e mem => ok e (List.mem_cons_of_mem _ mem)
    rw [Throughout]
    constructor
    · intro all
      have now : condition s event := needed s event start here (all 1)
      exact ⟨now, (ih (enough s event start here now) later).mp fun n => all (n + 1)⟩
    · intro along n
      cases n with
      | zero => exact entails s start
      | succ n => exact (ih (enough s event start here along.1) later).mpr along.2 n

end StryiChain
