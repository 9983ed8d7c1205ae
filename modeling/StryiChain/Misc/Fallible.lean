import Mathlib.Tactic.Common

/-!
# Fallible computations

Rust's `Result` is `Except` here. An early `return Err(e)` is `failIf`, `ok_or` is `okOr` and
`map_err` is `Except.mapError`; the question mark is the bind of the monad. The lemmas below
invert a successful computation one statement at a time, so that no proof about a modelled
function has to unfold the monad. `foldlM_invariant` is the rule for loops that may fail.
-/

namespace StryiChain

universe u

variable {ε ε' α β σ : Type}

/-- `if p { return Err(e) }`. -/
def failIf (p : Prop) [Decidable p] (e : ε) : Except ε Unit :=
  if p then .error e else .ok ()

/-- `option.ok_or(e)?`. -/
def okOr (x : Option α) (e : ε) : Except ε α :=
  match x with
  | some a => .ok a
  | none => .error e

/-- An outcome that the environment may replace by a failure of its own. -/
def withFault (fault : Option ε) (x : Except ε α) : Except ε α :=
  match fault with
  | some e => .error e
  | none => x

/-- A loop that keeps the elements of a list that pass a fallible test. -/
def filterE (p : α → Except ε Bool) : List α → Except ε (List α)
  | [] => .ok []
  | a :: l => do
      let keep ← p a
      let rest ← filterE p l
      return if keep then a :: rest else rest

@[simp] theorem failIf_eq_ok (p : Prop) [Decidable p] (e : ε) (u : Unit) :
    failIf p e = .ok u ↔ ¬ p := by
  unfold failIf
  split <;> simp_all

@[simp] theorem failIf_of_not {p : Prop} [Decidable p] (e : ε) (h : ¬ p) :
    failIf p e = .ok () := if_neg h

@[simp] theorem okOr_some (a : α) (e : ε) : okOr (some a) e = .ok a := rfl

@[simp] theorem okOr_none (e : ε) : okOr (none : Option α) e = .error e := rfl

@[simp] theorem okOr_eq_ok (x : Option α) (e : ε) (a : α) : okOr x e = .ok a ↔ x = some a := by
  cases x <;> simp [okOr]

@[simp] theorem withFault_none (x : Except ε α) : withFault none x = x := rfl

@[simp] theorem withFault_eq_ok (fault : Option ε) (x : Except ε α) (a : α) :
    withFault fault x = .ok a ↔ fault = none ∧ x = .ok a := by
  cases fault <;> simp [withFault]

@[simp] theorem mapError_ok (f : ε → ε') (a : α) :
    (Except.ok a : Except ε α).mapError f = .ok a := rfl

@[simp] theorem mapError_error (f : ε → ε') (e : ε) :
    (Except.error e : Except ε α).mapError f = .error (f e) := rfl

@[simp] theorem mapError_eq_ok (f : ε → ε') (x : Except ε α) (a : α) :
    x.mapError f = .ok a ↔ x = .ok a := by
  cases x <;> simp [Except.mapError]

@[simp] theorem bind_ok (a : α) (f : α → Except ε β) : (Except.ok a >>= f) = f a := rfl

@[simp] theorem bind_error (e : ε) (f : α → Except ε β) :
    ((Except.error e : Except ε α) >>= f) = .error e := rfl

theorem bind_eq_ok {x : Except ε α} {f : α → Except ε β} {b : β} :
    (x >>= f) = .ok b ↔ ∃ a, x = .ok a ∧ f a = .ok b := by
  cases x <;> simp

theorem bind_eq_error {x : Except ε α} {f : α → Except ε β} {e : ε} :
    (x >>= f) = .error e ↔ x = .error e ∨ ∃ a, x = .ok a ∧ f a = .error e := by
  cases x <;> simp

@[simp] theorem pure_eq_ok (a b : α) : (pure a : Except ε α) = .ok b ↔ a = b := by
  constructor
  · intro h
    cases h
    rfl
  · rintro rfl
    rfl

@[simp] theorem pure_except (a : α) : (pure a : Except ε α) = .ok a := rfl

@[simp] theorem throw_except (e : ε) : (throw e : Except ε α) = .error e := rfl

theorem toOption_eq_some {x : Except ε α} {a : α} : x.toOption = some a ↔ x = .ok a := by
  cases x <;> simp [Except.toOption]

/-- A test that never fails filters as a plain one. -/
theorem filterE_eq_ok {p : α → Except ε Bool} {q : α → Bool} {l : List α}
    (test : ∀ a ∈ l, p a = .ok (q a)) : filterE p l = .ok (l.filter q) := by
  induction l with
  | nil => rfl
  | cons a l ih =>
    have rest := ih fun b hb => test b (List.mem_cons_of_mem _ hb)
    simp only [filterE, test a List.mem_cons_self, rest, bind_ok, pure_except]
    cases h : q a <;> simp [h]

/-- Every result of a traversal comes from one of its elements. -/
theorem mem_of_mapM_eq_ok {f : α → Except ε β} {l : List α} {l' : List β}
    (run : l.mapM f = .ok l') {b : β} (mem : b ∈ l') : ∃ a ∈ l, f a = .ok b := by
  induction l generalizing l' with
  | nil =>
    cases run
    cases mem
  | cons a l ih =>
    rw [List.mapM_cons, bind_eq_ok] at run
    obtain ⟨c, here, run⟩ := run
    obtain ⟨rest, later, run⟩ := bind_eq_ok.mp run
    cases run
    rcases List.mem_cons.mp mem with rfl | below
    · exact ⟨a, List.mem_cons_self, here⟩
    · obtain ⟨a', mem', found⟩ := ih later below
      exact ⟨a', List.mem_cons_of_mem a mem', found⟩

/-- A loop of checks passes when every check does. -/
theorem forM_eq_ok {f : α → Except ε Unit} {l : List α} :
    l.forM f = .ok () ↔ ∀ a ∈ l, f a = .ok () := by
  induction l with
  | nil => simp [List.forM]
  | cons a l ih =>
    change (f a >>= fun _ => l.forM f) = .ok () ↔ _
    rw [bind_eq_ok]
    constructor
    · rintro ⟨⟨⟩, first, rest⟩ b hb
      rcases List.mem_cons.mp hb with rfl | hb
      · exact first
      · exact ih.mp rest b hb
    · intro all
      exact ⟨(), all a (by simp), ih.mpr fun b hb => all b (List.mem_cons_of_mem _ hb)⟩

/-- A loop of checks with one error is one check. -/
theorem forM_failIf (l : List α) (p : α → Prop) [DecidablePred p] (e : ε) :
    (l.forM fun a => failIf (p a) e) = failIf (∃ a ∈ l, p a) e := by
  by_cases any : ∃ a ∈ l, p a
  · rw [failIf, if_pos any]
    obtain ⟨a, mem, bad⟩ := any
    induction l with
    | nil => cases mem
    | cons b l ih =>
      show (failIf (p b) e >>= fun _ => l.forM fun a => failIf (p a) e) = .error e
      by_cases here : p b
      · rw [failIf, if_pos here, bind_error]
      · rw [failIf_of_not e here, bind_ok]
        rcases List.mem_cons.mp mem with rfl | later
        · exact absurd bad here
        · exact ih later
  · rw [failIf_of_not e any]
    apply forM_eq_ok.mpr
    intro a mem
    exact failIf_of_not e fun bad => any ⟨a, mem, bad⟩

/-- A loop whose every iteration succeeds is a plain loop. -/
theorem foldlM_eq_foldl {f : σ → α → Except ε σ} {g : σ → α → σ} {l : List α}
    (one : ∀ s, ∀ a ∈ l, f s a = .ok (g s a)) (s : σ) : l.foldlM f s = .ok (l.foldl g s) := by
  induction l generalizing s with
  | nil => rfl
  | cons a l ih =>
    rw [List.foldlM_cons, one s a List.mem_cons_self, bind_ok, List.foldl_cons]
    exact ih (fun s b hb => one s b (List.mem_cons_of_mem _ hb)) _

/-- A loop with an iteration that always fails does not complete. -/
theorem foldlM_error {f : σ → α → Except ε σ} {l : List α} {a : α} (mem : a ∈ l)
    (bad : ∀ s, ∃ e, f s a = .error e) (s : σ) : ∃ e, l.foldlM f s = .error e := by
  induction l generalizing s with
  | nil => cases mem
  | cons b l ih =>
    rw [List.foldlM_cons]
    cases hb : f s b with
    | error e => exact ⟨e, rfl⟩
    | ok s' =>
      rcases List.mem_cons.mp mem with rfl | mem
      · obtain ⟨e, he⟩ := bad s
        rw [hb] at he
        cases he
      · exact ih mem s'

/-- The rule for a loop that may fail: what one iteration preserves, a completed loop preserves. -/
theorem foldlM_invariant {f : σ → α → Except ε σ} (motive : σ → Prop) {l : List α}
    (step : ∀ s, motive s → ∀ a ∈ l, ∀ s', f s a = .ok s' → motive s') {s s' : σ}
    (init : motive s) (run : l.foldlM f s = .ok s') : motive s' := by
  induction l generalizing s with
  | nil =>
    simp only [List.foldlM_nil, pure_eq_ok] at run
    exact run ▸ init
  | cons a l ih =>
    rw [List.foldlM_cons, bind_eq_ok] at run
    obtain ⟨next, one, rest⟩ := run
    refine ih ?_ (step s init a (by simp) next one) rest
    intro s hs b hb
    exact step s hs b (List.mem_cons_of_mem _ hb)

/-- A computation whose result passes a test has a result. -/
theorem exists_ok_of_any {ε α : Type} {x : Except ε α} {test : α → Bool}
    (passes : x.toOption.any test = true) : ∃ a, x = .ok a ∧ test a = true := by
  cases x with
  | ok a => exact ⟨a, rfl, passes⟩
  | error error => cases passes

section ErrorsIn

/-- Every error that the computation can return is of a given kind. -/
def ErrorsIn (p : ε → Prop) (x : Except ε α) : Prop := ∀ e, x = .error e → p e

variable {p : ε → Prop}

theorem ErrorsIn.ok (a : α) : ErrorsIn p (.ok a) := by
  intro e h
  cases h

theorem ErrorsIn.error {e : ε} (h : p e) : ErrorsIn p (.error e : Except ε α) := by
  intro e' same
  cases same
  exact h

theorem ErrorsIn.failIf {q : Prop} [Decidable q] {e : ε} (h : p e) :
    ErrorsIn p (StryiChain.failIf q e) := by
  unfold StryiChain.failIf
  split
  · exact .error h
  · exact .ok ()

theorem ErrorsIn.okOr {x : Option α} {e : ε} (h : p e) : ErrorsIn p (StryiChain.okOr x e) := by
  cases x with
  | none => exact .error h
  | some a => exact .ok a

theorem ErrorsIn.mapError {f : ε' → ε} {x : Except ε' α} (h : ∀ e, p (f e)) :
    ErrorsIn p (x.mapError f) := by
  cases x with
  | error e => exact .error (h e)
  | ok a => exact .ok a

theorem ErrorsIn.bind {x : Except ε α} {f : α → Except ε β} (first : ErrorsIn p x)
    (rest : ∀ a, x = .ok a → ErrorsIn p (f a)) : ErrorsIn p (x >>= f) := by
  intro e h
  rw [bind_eq_error] at h
  rcases h with failed | ⟨a, done, failed⟩
  · exact first e failed
  · exact rest a done e failed

theorem ErrorsIn.failIf_bind {q : Prop} [Decidable q] {e : ε} {f : Unit → Except ε β} (h : p e)
    (rest : ¬ q → ErrorsIn p (f ())) : ErrorsIn p (StryiChain.failIf q e >>= f) := by
  apply ErrorsIn.bind (.failIf h)
  intro _ passed
  exact rest ((failIf_eq_ok _ _ _).mp passed)

theorem ErrorsIn.okOr_bind {x : Option α} {e : ε} {f : α → Except ε β} (h : p e)
    (rest : ∀ a, x = some a → ErrorsIn p (f a)) : ErrorsIn p (StryiChain.okOr x e >>= f) := by
  apply ErrorsIn.bind (.okOr h)
  intro a found
  exact rest a ((okOr_eq_ok _ _ _).mp found)

theorem ErrorsIn.foldlM {f : σ → α → Except ε σ} {l : List α}
    (one : ∀ s, ∀ a ∈ l, ErrorsIn p (f s a)) (s : σ) : ErrorsIn p (l.foldlM f s) := by
  induction l generalizing s with
  | nil => exact .ok s
  | cons a l ih =>
    rw [List.foldlM_cons]
    apply ErrorsIn.bind (one s a List.mem_cons_self)
    intro s' _
    exact ih (fun s b hb => one s b (List.mem_cons_of_mem _ hb)) s'

theorem ErrorsIn.mapM {f : α → Except ε β} {l : List α} (one : ∀ a ∈ l, ErrorsIn p (f a)) :
    ErrorsIn p (l.mapM f) := by
  induction l with
  | nil => exact .ok []
  | cons a l ih =>
    rw [List.mapM_cons]
    apply ErrorsIn.bind (one a List.mem_cons_self)
    intro b _
    apply ErrorsIn.bind (ih fun c hc => one c (List.mem_cons_of_mem _ hc))
    intro bs _
    exact .ok (b :: bs)

theorem ErrorsIn.forM {f : α → Except ε Unit} {l : List α} (one : ∀ a ∈ l, ErrorsIn p (f a)) :
    ErrorsIn p (l.forM f) := by
  induction l with
  | nil => exact .ok ()
  | cons a l ih =>
    change ErrorsIn p (f a >>= fun _ => l.forM f)
    apply ErrorsIn.bind (one a List.mem_cons_self)
    intro _ _
    exact ih fun c hc => one c (List.mem_cons_of_mem _ hc)

end ErrorsIn

end StryiChain
