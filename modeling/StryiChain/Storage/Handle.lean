import StryiChain.Storage.Memory
import StryiChain.Storage.Transition

/-!
# The storage handle (`stryi_storage/src/lib.rs:55-65, 176-300`)

Threads share one handle: a call of `update` runs a transition in a transaction under the writer
lock and commits it, and any thread may find the storage broken. A backend may fail at every read,
write and commit, and a callback may panic. Threads interleave at the accesses to what they share;
a return of the error `Unhealthy` changes nothing and is no step.
-/

namespace StryiChain

/-- How a call ends: it drops nothing, it drops the writer lock, or a panic unwinds through the
lock. -/
inductive CallEnd where
  | plain
  | unlock
  | poison
  deriving DecidableEq

/-- Where a thread is in a call of the handle. -/
inductive ThreadState (DB : Type) where
  | idle
  /-- `update` has seen no failure and asks for the writer lock. -/
  | waiting (transition : ChainTransition)
  | locked (transition : ChainTransition)
  /-- `update` has seen no failure under the lock, and the callback runs. -/
  | running (transition : ChainTransition)
  | staged (transition : ChainTransition) (result : ChainTransitionResult) (pending : DB)
  /-- `update` has seen no failure after the callback. -/
  | committing (transition : ChainTransition) (result : ChainTransitionResult) (pending : DB)
  /-- `mark_failed` is called. -/
  | marking (done : CallEnd)
  /-- `mark_failed` was the first, and reads the failure handler. -/
  | fetching (done : CallEnd)
  | notifying (handler : Option Nat) (done : CallEnd)
  /-- `set_failure_handler` has left the lock of the handler with the registered one. -/
  | registered (handler : Nat)
  | leaving (done : CallEnd)

/-- `StorageInner` (`lib.rs:61-68`), the failure handlers by numbers, and what has happened: the
transitions that `update` has acknowledged with their results, the transition whose commit failed,
and the calls of failure handlers. -/
structure StorageInner (DB : Type) where
  db : DB
  writer : Option Nat
  poisoned : Bool
  failed : Bool
  failureHandler : Option Nat
  committed : List (ChainTransition × ChainTransitionResult)
  torn : Option ChainTransition
  calls : List Nat

/-- A handle and the threads that use it. -/
structure StorageHandle (DB : Type) where
  inner : StorageInner DB
  threads : Nat → ThreadState DB

/-- `is_failed` (`lib.rs:178-180`). -/
def StorageInner.isFailed {DB : Type} (inner : StorageInner DB) : Bool :=
  inner.failed || inner.poisoned

/-- The thread is between the locking and the dropping of the writer lock. -/
def ThreadState.holds {DB : Type} : ThreadState DB → Bool
  | .locked _ | .running _ | .staged .. | .committing .. => true
  | .marking done | .fetching done | .notifying _ done | .leaving done => done ≠ .plain
  | _ => false

/-- The thread has passed the last check of `update`. -/
def ThreadState.commits {DB : Type} : ThreadState DB → Bool
  | .committing .. => true
  | _ => false

/-- A handle that has just been opened. -/
def StorageHandle.opened {DB : Type} (db : DB) : StorageHandle DB :=
  ⟨⟨db, none, false, false, none, [], none, []⟩, fun _ => .idle⟩

section Handle

variable [Primitives] {DB : Type} [FullNodeStorage DB]

/-- A step of a thread. -/
inductive ThreadStep (thread : Nat) (inner : StorageInner DB) :
    ThreadState DB → StorageInner DB → ThreadState DB → Prop
  | update (transition : ChainTransition) (healthy : inner.isFailed = false) :
      ThreadStep thread inner .idle inner (.waiting transition)
  | lock (transition : ChainTransition) (free : inner.writer = none)
      (clean : inner.poisoned = false) :
      ThreadStep thread inner (.waiting transition) { inner with writer := some thread }
        (.locked transition)
  /-- The guard inside the error of `lock` lives until `mark_failed` has returned. -/
  | lockPoisoned (transition : ChainTransition) (free : inner.writer = none)
      (poisoned : inner.poisoned = true) :
      ThreadStep thread inner (.waiting transition) { inner with writer := some thread }
        (.marking .unlock)
  | start (transition : ChainTransition) (healthy : inner.isFailed = false) :
      ThreadStep thread inner (.locked transition) inner (.running transition)
  | refuse (transition : ChainTransition) (failed : inner.isFailed = true) :
      ThreadStep thread inner (.locked transition) inner (.leaving .unlock)
  | stage {transition : ChainTransition} {result : ChainTransitionResult} {pending : DB}
      (run : commitTransition inner.db transition = .ok (result, pending)) :
      ThreadStep thread inner (.running transition) inner (.staged transition result pending)
  | reject {transition : ChainTransition} {error : StorageError}
      (run : commitTransition inner.db transition = .error error)
      (harmless : error.isFatal = false) :
      ThreadStep thread inner (.running transition) inner (.leaving .unlock)
  /-- A failing read or write, unreadable data, or a failure that another thread has seen. -/
  | fault (transition : ChainTransition) :
      ThreadStep thread inner (.running transition) inner (.marking .unlock)
  | panic (transition : ChainTransition) :
      ThreadStep thread inner (.running transition) inner (.marking .poison)
  | proceed (transition : ChainTransition) (result : ChainTransitionResult) (pending : DB)
      (healthy : inner.isFailed = false) :
      ThreadStep thread inner (.staged transition result pending) inner
        (.committing transition result pending)
  | rollback (transition : ChainTransition) (result : ChainTransitionResult) (pending : DB)
      (failed : inner.isFailed = true) :
      ThreadStep thread inner (.staged transition result pending) inner (.leaving .unlock)
  | commit (transition : ChainTransition) (result : ChainTransitionResult) (pending : DB) :
      ThreadStep thread inner (.committing transition result pending)
        { inner with db := pending, committed := inner.committed ++ [(transition, result)] }
        (.leaving .unlock)
  /-- A commit that fails may have reached the database or not. -/
  | tear (transition : ChainTransition) (result : ChainTransitionResult) (pending db : DB)
      (either : db = inner.db ∨ db = pending) :
      ThreadStep thread inner (.committing transition result pending)
        { inner with db, torn := some transition } (.marking .unlock)
  /-- A reader, the consensus runtime or the event loop finds a failure. -/
  | markFailed : ThreadStep thread inner .idle inner (.marking .plain)
  | swap (done : CallEnd) (first : inner.failed = false) :
      ThreadStep thread inner (.marking done) { inner with failed := true } (.fetching done)
  | swapped (done : CallEnd) (failed : inner.failed = true) :
      ThreadStep thread inner (.marking done) inner (.leaving done)
  | fetch (done : CallEnd) :
      ThreadStep thread inner (.fetching done) inner (.notifying inner.failureHandler done)
  | notify (handler : Option Nat) (done : CallEnd) :
      ThreadStep thread inner (.notifying handler done)
        { inner with calls := inner.calls ++ handler.toList } (.leaving done)
  | setFailureHandler (handler : Nat) :
      ThreadStep thread inner .idle
        { inner with failureHandler := some (inner.failureHandler.getD handler) }
        (.registered (inner.failureHandler.getD handler))
  | fire (handler : Nat) (failed : inner.isFailed = true) :
      ThreadStep thread inner (.registered handler)
        { inner with calls := inner.calls ++ [handler] } .idle
  | quiet (handler : Nat) (healthy : inner.isFailed = false) :
      ThreadStep thread inner (.registered handler) inner .idle
  | leave : ThreadStep thread inner (.leaving .plain) inner .idle
  | unlock : ThreadStep thread inner (.leaving .unlock) { inner with writer := none } .idle
  | poison :
      ThreadStep thread inner (.leaving .poison) { inner with writer := none, poisoned := true }
        .idle

/-- A step of one of the threads. -/
def StorageHandle.Step (s s' : StorageHandle DB) : Prop :=
  ∃ thread inner next, ThreadStep thread s.inner (s.threads thread) inner next ∧
    s' = ⟨inner, Function.update s.threads thread next⟩

/-- The states that follow a state. -/
inductive StorageHandle.Later (s : StorageHandle DB) : StorageHandle DB → Prop
  | now : Later s s
  | step {s' s'' : StorageHandle DB} (later : Later s s') (step : s'.Step s'') : Later s s''

/-- The database after some acknowledged transitions, one after the other. -/
inductive Replays (db : DB) : List (ChainTransition × ChainTransitionResult) → DB → Prop
  | opened : Replays db [] db
  | committed {log : List (ChainTransition × ChainTransitionResult)} {db' db'' : DB}
      {transition : ChainTransition} {result : ChainTransitionResult} (before : Replays db log db')
      (run : commitTransition db' transition = .ok (result, db'')) :
      Replays db (log ++ [(transition, result)]) db''

section Steps

variable {thread : Nat} {inner inner' : StorageInner DB} {pc next : ThreadState DB}

/-- The writer lock changes hands with the thread. -/
theorem ThreadStep.writer_cases (step : ThreadStep thread inner pc inner' next) :
    (inner'.writer = inner.writer ∧ next.holds = pc.holds) ∨
      (inner.writer = none ∧ inner'.writer = some thread ∧ pc.holds = false ∧
        next.holds = true) ∨
      (inner'.writer = none ∧ pc.holds = true ∧ next.holds = false) := by
  cases step with
  | lock _ free _ => exact .inr (.inl ⟨free, rfl, rfl, rfl⟩)
  | lockPoisoned _ free _ => exact .inr (.inl ⟨free, rfl, rfl, rfl⟩)
  | unlock => exact .inr (.inr ⟨rfl, rfl, rfl⟩)
  | poison => exact .inr (.inr ⟨rfl, rfl, rfl⟩)
  | _ => exact .inl ⟨rfl, rfl⟩

/-- Only a thread that has passed the last check touches the database. -/
theorem ThreadStep.database (step : ThreadStep thread inner pc inner' next)
    (outside : pc.commits = false) :
    inner'.db = inner.db ∧ inner'.torn = inner.torn ∧ inner'.committed = inner.committed := by
  cases step with
  | commit => cases outside
  | tear => cases outside
  | _ => exact ⟨rfl, rfl, rfl⟩

/-- A failure is never forgotten. -/
theorem ThreadStep.failed (step : ThreadStep thread inner pc inner' next)
    (failed : inner.failed = true) : inner'.failed = true := by
  cases step with
  | swap => rfl
  | _ => exact failed

/-- After a failure no thread passes the last check. -/
theorem ThreadStep.commits_next (step : ThreadStep thread inner pc inner' next)
    (failed : inner.failed = true) : next.commits = false := by
  cases step with
  | proceed _ _ _ healthy =>
    rw [StorageInner.isFailed, failed] at healthy
    cases healthy
  | _ => rfl

omit [Primitives] [FullNodeStorage DB] in
theorem ThreadState.holds_of_commits (commits : pc.commits = true) : pc.holds = true := by
  cases pc with
  | committing => rfl
  | _ => cases commits

end Steps

section Coherence

/-- What a thread relies on. -/
def ThreadState.Relies (inner : StorageInner DB) : ThreadState DB → Prop
  | .running _ => inner.torn = none
  | .staged transition result pending | .committing transition result pending =>
      inner.torn = none ∧ commitTransition inner.db transition = .ok (result, pending)
  | .fetching _ | .notifying _ _ | .leaving .poison => inner.failed = true
  | _ => True

/-- The database is the result of the acknowledged transitions, or of these and of one more, whose
commit has failed. -/
def StorageInner.Recorded (db : DB) (inner : StorageInner DB) : Prop :=
  ∃ last, Replays db inner.committed last ∧
    ((inner.torn = none ∧ inner.db = last) ∨
      ∃ transition, inner.torn = some transition ∧
        (inner.db = last ∨ ∃ result, commitTransition last transition = .ok (result, inner.db)))

/-- The invariant of a handle. -/
structure StorageHandle.Coherent (db : DB) (s : StorageHandle DB) : Prop where
  holder : ∀ i, (s.threads i).holds = true ↔ s.inner.writer = some i
  relies : ∀ i, (s.threads i).Relies s.inner
  recorded : s.inner.Recorded db
  poisoned : s.inner.poisoned = true → s.inner.failed = true
  /-- The thread whose commit has failed marks the failure before it leaves the lock. -/
  halted : s.inner.torn ≠ none → s.inner.failed = true ∨ ∃ i, s.threads i = .marking .unlock

variable {db : DB} {s s' : StorageHandle DB} {thread i j : Nat} {inner : StorageInner DB}
  {next : ThreadState DB}

theorem StorageHandle.Coherent.unique (coherent : s.Coherent db)
    (holds : (s.threads i).holds = true) (holds' : (s.threads j).holds = true) : i = j := by
  have same := ((coherent.holder i).mp holds).symm.trans ((coherent.holder j).mp holds')
  exact Option.some.inj same

/-- A thread that has the lock and sees no failure finds a whole database. -/
theorem StorageHandle.Coherent.whole (coherent : s.Coherent db) {transition : ChainTransition}
    (locked : s.threads i = .locked transition) (healthy : s.inner.isFailed = false) :
    s.inner.torn = none := by
  by_contra torn
  rcases coherent.halted torn with failed | ⟨j, marking⟩
  · rw [StorageInner.isFailed, failed] at healthy
    cases healthy
  · have same : i = j := coherent.unique (by rw [locked]; rfl) (by rw [marking]; rfl)
    rw [← same, locked] at marking
    cases marking

/-- The step of another thread does not disturb a thread. -/
theorem StorageHandle.Coherent.relies_other (coherent : s.Coherent db)
    (step : ThreadStep thread s.inner (s.threads thread) inner next) (other : i ≠ thread) :
    (s.threads i).Relies inner := by
  have relies := coherent.relies i
  have kept : (s.threads i).holds = true → inner.db = s.inner.db ∧ inner.torn = s.inner.torn := by
    intro holds
    have outside : (s.threads thread).commits = false := by
      by_contra commits
      rw [Bool.not_eq_false] at commits
      exact other (coherent.unique holds (ThreadState.holds_of_commits commits))
    exact ⟨(step.database outside).1, (step.database outside).2.1⟩
  cases at_i : s.threads i with
  | running transition =>
    rw [at_i] at relies kept
    rw [ThreadState.Relies, (kept rfl).2]
    exact relies
  | staged transition result pending =>
    rw [at_i] at relies kept
    rw [ThreadState.Relies, (kept rfl).1, (kept rfl).2]
    exact relies
  | committing transition result pending =>
    rw [at_i] at relies kept
    rw [ThreadState.Relies, (kept rfl).1, (kept rfl).2]
    exact relies
  | fetching done =>
    rw [at_i] at relies
    exact step.failed relies
  | notifying handler done =>
    rw [at_i] at relies
    exact step.failed relies
  | leaving done =>
    rw [at_i] at relies
    cases done with
    | poison => exact step.failed relies
    | plain => trivial
    | unlock => trivial
  | _ => trivial

/-- The thread itself relies on what its step has established. -/
theorem StorageHandle.Coherent.relies_self (coherent : s.Coherent db)
    (step : ThreadStep thread s.inner (s.threads thread) inner next) : next.Relies inner := by
  have relies := coherent.relies thread
  generalize at_thread : s.threads thread = pc at step relies
  cases step with
  | start transition healthy => exact coherent.whole at_thread healthy
  | stage run => exact ⟨relies, run⟩
  | proceed => exact relies
  | swap => rfl
  | swapped done failed =>
    cases done with
    | poison => exact failed
    | plain => trivial
    | unlock => trivial
  | fetch => exact relies
  | notify handler done =>
    cases done with
    | poison => exact relies
    | plain => trivial
    | unlock => trivial
  | _ => trivial

theorem StorageHandle.Coherent.holder_step (coherent : s.Coherent db)
    (step : ThreadStep thread s.inner (s.threads thread) inner next) (i : Nat) :
    (Function.update s.threads thread next i).holds = true ↔ inner.writer = some i := by
  have before := coherent.holder i
  have mine := coherent.holder thread
  by_cases same : i = thread
  · subst same
    rw [Function.update_self]
    rcases step.writer_cases with ⟨writer, holds⟩ | ⟨_, writer, _, holds⟩ | ⟨writer, _, holds⟩
    · rw [writer, holds, before]
    · simp [writer, holds]
    · simp [writer, holds]
  · rw [Function.update_of_ne same, before]
    rcases step.writer_cases with ⟨writer, _⟩ | ⟨free, writer, _, _⟩ | ⟨writer, holds, _⟩
    · rw [writer]
    · simp [free, writer, Ne.symm same]
    · simp [writer, mine.mp holds, Ne.symm same]

theorem StorageHandle.Coherent.recorded_step (coherent : s.Coherent db)
    (step : ThreadStep thread s.inner (s.threads thread) inner next) : inner.Recorded db := by
  obtain ⟨last, replays, database⟩ := coherent.recorded
  have relies := coherent.relies thread
  generalize s.threads thread = pc at step relies
  cases step with
  | commit transition result pending =>
    obtain ⟨whole, run⟩ := relies
    rcases database with ⟨_, current⟩ | ⟨other, torn, _⟩
    · rw [current] at run
      exact ⟨pending, replays.committed run, .inl ⟨whole, rfl⟩⟩
    · rw [whole] at torn
      cases torn
  | tear transition result pending left either =>
    obtain ⟨whole, run⟩ := relies
    rcases database with ⟨_, current⟩ | ⟨other, torn, _⟩
    · rw [current] at run either
      refine ⟨last, replays, .inr ⟨transition, rfl, ?_⟩⟩
      rcases either with unchanged | written
      · exact .inl unchanged
      · exact .inr ⟨result, by rw [run, ← written]⟩
    · rw [whole] at torn
      cases torn
  | _ => exact ⟨last, replays, database⟩

theorem StorageHandle.Coherent.halted_step (coherent : s.Coherent db)
    (step : ThreadStep thread s.inner (s.threads thread) inner next) (torn : inner.torn ≠ none) :
    inner.failed = true ∨ ∃ i, Function.update s.threads thread next i = .marking .unlock := by
  have relies := coherent.relies thread
  by_cases commits : (s.threads thread).commits = true
  · generalize s.threads thread = pc at step commits relies
    cases step with
    | commit => exact absurd relies.1 torn
    | tear => exact .inr ⟨thread, Function.update_self _ _ _⟩
    | _ => cases commits
  · rw [Bool.not_eq_true] at commits
    rw [(step.database commits).2.1] at torn
    rcases coherent.halted torn with failed | ⟨i, marking⟩
    · exact .inl (step.failed failed)
    · by_cases same : i = thread
      · subst same
        rw [marking] at step
        cases step with
        | swap => exact .inl rfl
        | swapped _ failed => exact .inl failed
      · exact .inr ⟨i, by rw [Function.update_of_ne same, marking]⟩

theorem StorageHandle.Coherent.step (coherent : s.Coherent db) (step : s.Step s') :
    s'.Coherent db := by
  obtain ⟨thread, inner, next, step, rfl⟩ := step
  refine ⟨coherent.holder_step step, ?_, coherent.recorded_step step, ?_,
    coherent.halted_step step⟩
  · intro i
    show (Function.update s.threads thread next i).Relies inner
    by_cases same : i = thread
    · subst same
      rw [Function.update_self]
      exact coherent.relies_self step
    · rw [Function.update_of_ne same]
      exact coherent.relies_other step same
  · have before := coherent.poisoned
    have relies := coherent.relies thread
    intro poisoned
    generalize s.threads thread = pc at step relies
    cases step with
    | poison => exact relies
    | swap => rfl
    | _ => exact before poisoned

theorem StorageHandle.Coherent.opened (db : DB) : (StorageHandle.opened db).Coherent db where
  holder _ := by
    constructor <;> intro impossible <;> cases impossible
  relies _ := trivial
  recorded := ⟨db, .opened, .inl ⟨rfl, rfl⟩⟩
  poisoned impossible := by cases impossible
  halted torn := absurd rfl torn

theorem StorageHandle.Later.coherent (later : s.Later s') (coherent : s.Coherent db) :
    s'.Coherent db := by
  induction later with
  | now => exact coherent
  | step _ step ih => exact ih.step step

/-- What can have happened since a failure: nothing has been committed, or the thread that had
passed the last check has committed or failed to. -/
def StorageHandle.Since (s s' : StorageHandle DB) : Prop :=
  s'.inner.failed = true ∧
    ((s'.inner.db = s.inner.db ∧ s'.inner.committed = s.inner.committed ∧
        ∀ i, (s'.threads i).commits = true → s'.threads i = s.threads i) ∨
      (∀ i, (s'.threads i).commits = false) ∧ ∃ i transition result pending,
        s.threads i = .committing transition result pending ∧
          (s'.inner.committed = s.inner.committed ∨
            s'.inner.committed = s.inner.committed ++ [(transition, result)]))

theorem StorageHandle.Coherent.since_step {s'' : StorageHandle DB} (coherent : s'.Coherent db)
    (since : s.Since s') (step : s'.Step s'') : s.Since s'' := by
  obtain ⟨thread, inner, next, step, rfl⟩ := step
  obtain ⟨failed, since⟩ := since
  have idle := step.commits_next failed
  refine ⟨step.failed failed, ?_⟩
  rcases since with ⟨database, committed, commits⟩ | ⟨outside, i, transition, result, pending, at_i, log⟩
  · by_cases mine : (s'.threads thread).commits = true
    · -- the thread that has passed the last check
      refine .inr ⟨?_, ?_⟩
      · intro i
        show (Function.update s'.threads thread next i).commits = false
        by_cases same : i = thread
        · rw [same, Function.update_self]
          exact idle
        · rw [Function.update_of_ne same]
          by_contra other
          rw [Bool.not_eq_false] at other
          exact same (coherent.unique (ThreadState.holds_of_commits other)
            (ThreadState.holds_of_commits mine))
      · have kept := commits thread mine
        rw [← committed]
        generalize s'.threads thread = pc at step mine kept
        cases step with
        | commit transition result pending =>
          exact ⟨thread, transition, result, pending, kept.symm, .inr rfl⟩
        | tear transition result pending =>
          exact ⟨thread, transition, result, pending, kept.symm, .inl rfl⟩
        | _ => cases mine
    · rw [Bool.not_eq_true] at mine
      obtain ⟨sameDb, -, sameLog⟩ := step.database mine
      refine .inl ⟨sameDb.trans database, sameLog.trans committed, ?_⟩
      intro i
      show (Function.update s'.threads thread next i).commits = true →
        Function.update s'.threads thread next i = s.threads i
      intro other
      by_cases same : i = thread
      · rw [same, Function.update_self, idle] at other
        cases other
      · rw [Function.update_of_ne same] at other ⊢
        exact commits i other
  · refine .inr ⟨?_, i, transition, result, pending, at_i, ?_⟩
    · intro j
      show (Function.update s'.threads thread next j).commits = false
      by_cases same : j = thread
      · rw [same, Function.update_self]
        exact idle
      · rw [Function.update_of_ne same]
        exact outside j
    · show inner.committed = _ ∨ inner.committed = _
      rw [(step.database (outside thread)).2.2]
      exact log

theorem StorageHandle.Later.since (later : s.Later s') (coherent : s.Coherent db)
    (failed : s.inner.failed = true) : s.Since s' := by
  induction later with
  | now => exact ⟨failed, .inl ⟨rfl, rfl, fun _ _ => rfl⟩⟩
  | step later step ih => exact (later.coherent coherent).since_step ih step

/-- At most one thread is under the writer lock, the database is the result of the acknowledged
transitions in their order with the results they were acknowledged with (or a commit has failed),
and after a failure only a thread that had passed the last check changes it. -/
theorem StorageHandle.updates_serialize (reached : (StorageHandle.opened db).Later s) :
    (∀ i j, (s.threads i).holds = true → (s.threads j).holds = true → i = j) ∧
      s.inner.Recorded db ∧
      (s.inner.isFailed = true → ∀ s', s.Later s' →
        ((∀ i, (s.threads i).commits = false) →
          s'.inner.db = s.inner.db ∧ s'.inner.committed = s.inner.committed) ∧
        (s'.inner.committed = s.inner.committed ∨ ∃ i transition result pending,
          s.threads i = .committing transition result pending ∧
            s'.inner.committed = s.inner.committed ++ [(transition, result)])) := by
  have coherent : s.Coherent db := reached.coherent (.opened db)
  refine ⟨fun i j => coherent.unique, coherent.recorded, ?_⟩
  intro stopped s' later
  have failed : s.inner.failed = true := by
    rw [StorageInner.isFailed, Bool.or_eq_true] at stopped
    rcases stopped with failed | poisoned
    · exact failed
    · exact coherent.poisoned poisoned
  obtain ⟨-, since⟩ := later.since coherent failed
  rcases since with ⟨database, committed, _⟩ | ⟨_, i, transition, result, pending, at_i, log⟩
  · exact ⟨fun _ => ⟨database, committed⟩, .inl committed⟩
  · refine ⟨fun outside => ?_, ?_⟩
    · have none := outside i
      rw [at_i] at none
      cases none
    · rcases log with same | more
      · exact .inl same
      · exact .inr ⟨i, transition, result, pending, at_i, more⟩

end Coherence

end Handle

open Sample in
/-- One thread commits genesis, and another one finds a failure after the last check of the first:
whatever follows, at most this one transition is committed. -/
theorem updates_serialize_sample : ∃ s : StorageHandle MemoryView,
    s.inner.committed = [] ∧ s.inner.Recorded StorageWrite.initial ∧
      ∀ s', s.Later s' → s'.inner.committed = [] ∨ ∃ result, s'.inner.committed =
        [(.genesis genesis ⟨2, "sample", 1, 0⟩, result)] := by
  have commits : (commitTransition (StorageWrite.initial : MemoryView)
      (.genesis genesis ⟨2, "sample", 1, 0⟩)).toOption.any (fun _ => true) = true := by
    decide +kernel
  obtain ⟨⟨result, pending⟩, run, -⟩ := exists_ok_of_any commits
  have opened := StorageHandle.Later.now (s := StorageHandle.opened (StorageWrite.initial : MemoryView))
  have entered := opened.step
    ⟨0, _, _, .update (.genesis genesis ⟨2, "sample", 1, 0⟩) rfl, rfl⟩
  have locked := entered.step ⟨0, _, _, .lock _ rfl rfl, rfl⟩
  have started := locked.step ⟨0, _, _, .start _ rfl, rfl⟩
  have staged := started.step ⟨0, _, _, .stage run, rfl⟩
  have checked := staged.step ⟨0, _, _, .proceed _ result pending rfl, rfl⟩
  have marking := checked.step ⟨1, _, _, .markFailed, rfl⟩
  have failed := marking.step ⟨1, _, _, .swap .plain rfl, rfl⟩
  obtain ⟨-, recorded, after⟩ := StorageHandle.updates_serialize failed
  refine ⟨_, rfl, recorded, ?_⟩
  intro s' later
  rcases (after rfl s' later).2 with same | ⟨i, transition, result', pending', at_i, log⟩
  · exact .inl same
  · refine .inr ⟨result', ?_⟩
    by_cases first : i = 0
    · subst first
      cases at_i
      exact log
    · by_cases second : i = 1
      · subst second
        cases at_i
      · simp [Function.update_of_ne first, Function.update_of_ne second,
          StorageHandle.opened] at at_i

section Notification

variable [Primitives] {DB : Type} [FullNodeStorage DB]

/-- The thread is about to call the handler, or to look for one. -/
def ThreadState.tells (handler : Nat) : ThreadState DB → Prop
  | .fetching _ => True
  | .notifying found _ => found = some handler
  | .registered kept => kept = handler
  | _ => False

/-- The handler that the thread has read. -/
def ThreadState.names (handler : Nat) : ThreadState DB → Prop
  | .notifying found _ => found = some handler
  | .registered kept => kept = handler
  | _ => False

/-- The invariant of the failure handler. -/
structure StorageHandle.Informed (s : StorageHandle DB) : Prop where
  named : ∀ i handler, (s.threads i).names handler → s.inner.failureHandler = some handler
  called : ∀ handler ∈ s.inner.calls,
    s.inner.failed = true ∧ s.inner.failureHandler = some handler
  told : s.inner.failed = true → ∀ handler, s.inner.failureHandler = some handler →
    handler ∈ s.inner.calls ∨ ∃ i, (s.threads i).tells handler

variable {db : DB} {s s' : StorageHandle DB} {thread handler : Nat} {inner inner' : StorageInner DB}
  {pc next : ThreadState DB}

/-- The first handler stays. -/
theorem ThreadStep.handler_kept (step : ThreadStep thread inner pc inner' next)
    (kept : inner.failureHandler = some handler) : inner'.failureHandler = some handler := by
  cases step with
  | setFailureHandler other =>
    show some (inner.failureHandler.getD other) = some handler
    rw [kept, Option.getD_some]
  | _ => exact kept

theorem ThreadStep.names_next (step : ThreadStep thread inner pc inner' next)
    (before : ∀ handler, pc.names handler → inner.failureHandler = some handler)
    (names : next.names handler) : inner'.failureHandler = some handler := by
  cases step with
  | fetch => exact names
  | setFailureHandler other => exact congrArg some names
  | _ => cases names

/-- A failed storage tells its handler, or leaves this to a thread as before. -/
theorem ThreadStep.told (step : ThreadStep thread inner pc inner' next)
    (before : ∀ handler, pc.names handler → inner.failureHandler = some handler)
    (failed : inner'.failed = true) (kept : inner'.failureHandler = some handler) :
    next.tells handler ∨ handler ∈ inner'.calls ∨
      (¬ pc.tells handler ∧ inner.failed = true ∧ inner.failureHandler = some handler ∧
        inner'.calls = inner.calls) := by
  cases step with
  | swap => exact .inl trivial
  | fetch => exact .inl kept
  | notify found done =>
    cases found with
    | none =>
      have silent : ¬ (none : Option Nat) = some handler := by intro impossible; cases impossible
      exact .inr (.inr ⟨silent, failed, kept, List.append_nil _⟩)
    | some other =>
      have same : some other = some handler := (before other rfl).symm.trans kept
      exact .inr (.inl (by simp [Option.some.inj same]))
  | setFailureHandler other => exact .inl (Option.some.inj kept)
  | fire other _ =>
    have same : some other = some handler := (before other rfl).symm.trans kept
    exact .inr (.inl (by simp [Option.some.inj same]))
  | quiet other healthy =>
    rw [StorageInner.isFailed, failed] at healthy
    cases healthy
  | _ => exact .inr (.inr ⟨id, failed, kept, rfl⟩)

/-- A handler is called only after a failure, and it is the first one. -/
theorem ThreadStep.called (step : ThreadStep thread inner pc inner' next)
    (before : ∀ handler, pc.names handler → inner.failureHandler = some handler)
    (relies : pc.Relies inner) (poisoned : inner.poisoned = true → inner.failed = true)
    (calls : ∀ handler ∈ inner.calls,
      inner.failed = true ∧ inner.failureHandler = some handler)
    (mem : handler ∈ inner'.calls) :
    inner'.failed = true ∧ inner'.failureHandler = some handler := by
  have old : handler ∈ inner.calls → inner'.failed = true ∧ inner'.failureHandler = some handler :=
    fun mem => ⟨step.failed (calls handler mem).1, step.handler_kept (calls handler mem).2⟩
  cases step with
  | notify found done =>
    rcases List.mem_append.mp mem with mem | mem
    · exact old mem
    · exact ⟨relies, before handler (Option.mem_toList.mp mem)⟩
  | fire other failed =>
    rcases List.mem_append.mp mem with mem | mem
    · exact old mem
    · rw [StorageInner.isFailed, Bool.or_eq_true] at failed
      rw [List.mem_singleton.mp mem]
      exact ⟨failed.elim id poisoned, before other rfl⟩
  | _ => exact old mem

theorem StorageHandle.Informed.step (informed : s.Informed) (coherent : s.Coherent db)
    (step : s.Step s') : s'.Informed := by
  obtain ⟨thread, inner, next, step, rfl⟩ := step
  have before := informed.named thread
  refine ⟨?_, ?_, ?_⟩
  · intro i handler
    show (Function.update s.threads thread next i).names handler → _
    intro names
    by_cases same : i = thread
    · rw [same, Function.update_self] at names
      exact step.names_next before names
    · rw [Function.update_of_ne same] at names
      exact step.handler_kept (informed.named i handler names)
  · intro handler mem
    exact step.called before (coherent.relies thread) coherent.poisoned informed.called mem
  · intro failed handler kept
    show handler ∈ inner.calls ∨ ∃ i, (Function.update s.threads thread next i).tells handler
    rcases step.told before failed kept with tells | mem | ⟨silent, old, held, calls⟩
    · exact .inr ⟨thread, by rwa [Function.update_self]⟩
    · exact .inl mem
    · rcases informed.told old handler held with mem | ⟨i, tells⟩
      · exact .inl (calls ▸ mem)
      · have other : i ≠ thread := fun same => silent (same ▸ tells)
        exact .inr ⟨i, by rwa [Function.update_of_ne other]⟩

theorem StorageHandle.Later.informed (later : (StorageHandle.opened db).Later s) : s.Informed := by
  induction later with
  | now =>
    refine ⟨fun _ _ names => ?_, fun _ mem => ?_, fun failed => ?_⟩
    · cases names
    · cases mem
    · cases failed
  | step later step ih => exact ih.step (later.coherent (.opened db)) step

/-- A thread that does not wait for the lock can go on. -/
theorem ThreadState.proceeds (inner : StorageInner DB) (busy : pc ≠ .idle)
    (free : ∀ transition, pc = .waiting transition → inner.writer = none) :
    ∃ inner' next, ThreadStep thread inner pc inner' next := by
  cases pc with
  | idle => exact absurd rfl busy
  | waiting transition =>
    have unlocked := free transition rfl
    cases poisoned : inner.poisoned with
    | true => exact ⟨_, _, .lockPoisoned transition unlocked poisoned⟩
    | false => exact ⟨_, _, .lock transition unlocked poisoned⟩
  | locked transition =>
    cases failed : inner.isFailed with
    | true => exact ⟨_, _, .refuse transition failed⟩
    | false => exact ⟨_, _, .start transition failed⟩
  | running transition =>
    cases run : commitTransition inner.db transition with
    | ok staged => exact ⟨_, _, .stage run⟩
    | error error =>
      cases fatal : error.isFatal with
      | true => exact ⟨_, _, .fault transition⟩
      | false => exact ⟨_, _, .reject run fatal⟩
  | staged transition result pending =>
    cases failed : inner.isFailed with
    | true => exact ⟨_, _, .rollback transition result pending failed⟩
    | false => exact ⟨_, _, .proceed transition result pending failed⟩
  | committing transition result pending => exact ⟨_, _, .commit transition result pending⟩
  | marking done =>
    cases failed : inner.failed with
    | true => exact ⟨_, _, .swapped done failed⟩
    | false => exact ⟨_, _, .swap done failed⟩
  | fetching done => exact ⟨_, _, .fetch done⟩
  | notifying found done => exact ⟨_, _, .notify found done⟩
  | registered kept =>
    cases failed : inner.isFailed with
    | true => exact ⟨_, _, .fire kept failed⟩
    | false => exact ⟨_, _, .quiet kept failed⟩
  | leaving done =>
    cases done with
    | plain => exact ⟨_, _, .leave⟩
    | unlock => exact ⟨_, _, .unlock⟩
    | poison => exact ⟨_, _, .poison⟩

/-- A failure is never kept from the registered handler: when no call is under way, a failed
storage has called it. Only the first handler is ever called, only after a failure, and threads
that are inside calls never wait for each other in a circle. -/
theorem StorageHandle.failure_is_told (reached : (StorageHandle.opened db).Later s) :
    ((∀ i, s.threads i = .idle) → s.inner.isFailed = true →
        ∀ handler, s.inner.failureHandler = some handler → handler ∈ s.inner.calls) ∧
      (∀ handler ∈ s.inner.calls,
        s.inner.failed = true ∧ s.inner.failureHandler = some handler) ∧
      ∀ i, s.threads i ≠ .idle → ∃ thread inner next, s.threads thread ≠ .idle ∧
        ThreadStep thread s.inner (s.threads thread) inner next := by
  have coherent : s.Coherent db := reached.coherent (.opened db)
  have informed : s.Informed := reached.informed
  refine ⟨?_, informed.called, ?_⟩
  · intro idle stopped handler kept
    rw [StorageInner.isFailed, Bool.or_eq_true] at stopped
    rcases informed.told (stopped.elim id coherent.poisoned) handler kept with mem | ⟨i, tells⟩
    · exact mem
    · rw [idle] at tells
      cases tells
  · intro i busy
    cases writer : s.inner.writer with
    | none =>
      obtain ⟨inner, next, step⟩ := ThreadState.proceeds s.inner busy fun _ _ => writer
      exact ⟨i, inner, next, busy, step⟩
    | some j =>
      -- the thread under the lock waits for nobody
      have holds := (coherent.holder j).mpr writer
      have busy' : s.threads j ≠ .idle := by
        intro idle
        rw [idle] at holds
        cases holds
      obtain ⟨inner, next, step⟩ := ThreadState.proceeds s.inner busy' fun transition waits => by
        rw [waits] at holds
        cases holds
      exact ⟨j, inner, next, busy', step⟩

end Notification

open Sample in
/-- A handler is registered after the failing thread has looked for one, and is called all the
same. -/
theorem failure_is_told_sample : ∃ s : StorageHandle MemoryView,
    s.inner.failed = true ∧ s.inner.failureHandler = some 7 ∧ 7 ∈ s.inner.calls := by
  have opened := StorageHandle.Later.now (s := StorageHandle.opened MemoryView.default)
  have marking := opened.step ⟨0, _, _, .markFailed, rfl⟩
  have failed := marking.step ⟨0, _, _, .swap .plain rfl, rfl⟩
  have looked := failed.step ⟨0, _, _, .fetch .plain, rfl⟩
  have registered := looked.step ⟨1, _, _, .setFailureHandler 7, rfl⟩
  have told := registered.step ⟨0, _, _, .notify none .plain, rfl⟩
  have left := told.step ⟨0, _, _, .leave, rfl⟩
  have fired := left.step ⟨1, _, _, .fire 7 rfl, rfl⟩
  refine ⟨_, rfl, rfl, (StorageHandle.failure_is_told fired).1 ?_ rfl 7 rfl⟩
  intro i
  by_cases first : i = 1
  · subst first
    rfl
  · by_cases second : i = 0
    · subst second
      rfl
    · simp [Function.update_of_ne first, Function.update_of_ne second, StorageHandle.opened]

end StryiChain
