import StryiChain.Misc.Fallible

/-!
# Computations that agree

Two computations that may fail agree when both fail with the same error, or both succeed with
results that are related. Agreement follows the statements of two programs side by side, so that a
simulation of single operations becomes one of whole programs.
-/

namespace StryiChain

universe u

variable {ε ε' α β γ δ σ τ : Type}

/-- The same error, or related results. -/
inductive Agree (R : α → β → Prop) : Except ε α → Except ε β → Prop
  | ok {a : α} {b : β} (related : R a b) : Agree R (.ok a) (.ok b)
  | error (e : ε) : Agree R (.error e) (.error e)

namespace Agree

variable {R R' : α → β → Prop} {Q : γ → δ → Prop} {x : Except ε α} {y : Except ε β}

theorem refl (x : Except ε α) : Agree Eq x x := by
  cases x with
  | ok a => exact .ok rfl
  | error e => exact .error e

theorem eq {x' : Except ε α} (agree : Agree Eq x x') : x = x' := by
  cases agree with
  | ok related => rw [related]
  | error e => rfl

theorem mono (agree : Agree R x y) (weaker : ∀ a b, R a b → R' a b) : Agree R' x y := by
  cases agree with
  | ok related => exact .ok (weaker _ _ related)
  | error e => exact .error e

/-- What the first computation establishes about its result may be used. -/
theorem strengthen (agree : Agree R x y) :
    Agree (fun a b => R a b ∧ x = .ok a ∧ y = .ok b) x y := by
  cases agree with
  | ok related => exact .ok ⟨related, rfl, rfl⟩
  | error e => exact .error e

theorem bind {f : α → Except ε γ} {g : β → Except ε δ} (first : Agree R x y)
    (rest : ∀ a b, R a b → Agree Q (f a) (g b)) : Agree Q (x >>= f) (y >>= g) := by
  cases first with
  | ok related => exact rest _ _ related
  | error e => exact .error e

/-- A statement that is the same in both programs. -/
theorem bind_same {x : Except ε α} {f : α → Except ε γ} {g : α → Except ε δ}
    (rest : ∀ a, x = .ok a → Agree Q (f a) (g a)) : Agree Q (x >>= f) (x >>= g) := by
  cases x with
  | ok a => exact rest a rfl
  | error e => exact .error e

/-- A statement whose results are equal. -/
theorem bind_eq {x x' : Except ε α} {f : α → Except ε γ} {g : α → Except ε δ} (same : x = x')
    (rest : ∀ a, x = .ok a → Agree Q (f a) (g a)) : Agree Q (x >>= f) (x' >>= g) :=
  same ▸ bind_same rest

theorem mapError {f : ε → ε'} (agree : Agree R x y) : Agree R (x.mapError f) (y.mapError f) := by
  cases agree with
  | ok related => exact .ok related
  | error e => exact .error (f e)

/-- The same loop over the same items. -/
theorem foldlM {R : σ → τ → Prop} {f : σ → α → Except ε σ} {g : τ → α → Except ε τ} {l : List α}
    (one : ∀ s t, R s t → ∀ a ∈ l, Agree R (f s a) (g t a)) {s : σ} {t : τ} (start : R s t) :
    Agree R (l.foldlM f s) (l.foldlM g t) := by
  induction l generalizing s t with
  | nil => exact .ok start
  | cons a l ih =>
    rw [List.foldlM_cons, List.foldlM_cons]
    apply bind (one s t start a List.mem_cons_self)
    intro s' t' related
    exact ih (fun s t related b mem => one s t related b (List.mem_cons_of_mem _ mem)) related

/-- When the first program succeeds, so does the second. -/
theorem ok_exists {a : α} (agree : Agree R (.ok a) y) : ∃ b, y = .ok b ∧ R a b := by
  cases agree with
  | ok related => exact ⟨_, rfl, related⟩

theorem error_iff {e : ε} (agree : Agree R x y) : x = .error e ↔ y = .error e := by
  cases agree with
  | ok related =>
    constructor
    · intro impossible
      cases impossible
    · intro impossible
      cases impossible
  | error e' =>
    constructor
    · intro same
      cases same
      rfl
    · intro same
      cases same
      rfl

end Agree

end StryiChain
