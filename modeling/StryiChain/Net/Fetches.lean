import StryiChain.Net.Adverts

/-!
# Mempool fetches

A fetch waits in the loop under the id of its request, until libp2p reports the answer or the
failure of that request. Nothing is answered twice, and nothing is answered with what belongs to
another fetch.
-/

namespace StryiChain

open Networking

/-- A removed pair goes once. -/
theorem Table.toPairs_erase {K V : Type} [DecidableEq K] {t : Table K V} {k : K} {v : V}
    (found : t.read k = some v) : t.toPairs.Perm ((k, v) :: Table.toPairs (AList.erase k t)) := by
  have distinct (t : Table K V) : t.toPairs.Nodup := List.Nodup.of_map Prod.fst t.nodup_toPairs_keys
  have gone : (k, v) ∉ Table.toPairs (AList.erase k t) := by
    rw [Table.mem_toPairs, Table.read_erase, Function.update_self]
    intro same
    cases same
  refine (List.perm_ext_iff_of_nodup (distinct t)
    (List.nodup_cons.mpr ⟨gone, distinct _⟩)).mpr fun pair => ?_
  obtain ⟨k', v'⟩ := pair
  rw [List.mem_cons, Table.mem_toPairs, Table.mem_toPairs, Table.read_erase, Prod.mk.injEq,
    Function.update_apply]
  by_cases same : k' = k
  · rw [if_pos same, same, found, Option.some.injEq]
    simp [eq_comm]
  · rw [if_neg same]
    simp [same]

section Model

variable [Primitives] [Floats] [Networking]

/-- What a fetch is answered with. -/
abbrev FetchResult := Except StryiNetworkError MemPoolSyncData

/-- The fetch of a command. -/
def NetworkInput.fetchCall : NetworkInput → Option Responder
  | .command (.fetchMempoolState _ _ respondTo) => some respondTo
  | _ => none

/-- The request that an event settles. -/
def NetworkInput.settles : NetworkInput → Option (OutboundRequestId × FetchResult)
  | .event (.mempoolResponse requestId syncData) => some (requestId, .ok syncData)
  | .event (.mempoolOutboundFailure requestId error) =>
      some (requestId, .error (.other s!"Mempool fetch failed: {error}"))
  | _ => none

/-- The answer to a fetch among the effects. -/
def Effect.fetchAnswer : Effect → Option (Responder × FetchResult)
  | .answerMempool respondTo result => some (respondTo, result)
  | _ => none

/-- The answers to fetches during a run. -/
def fetchAnswers (effects : List Effect) : List (Responder × FetchResult) :=
  effects.filterMap Effect.fetchAnswer

/-- The error of a fetch while nobody is connected. -/
def noPeers : StryiNetworkError := .other "No connected peers available for mempool sync"

/-- What a turn can do to the pending fetches. -/
inductive FetchTurn (pending : Table OutboundRequestId Responder) (input : NetworkInput)
    (pending' : Table OutboundRequestId Responder) (answers : List (Responder × FetchResult)) :
    Prop where
  | asked (pick : Nat) (requestId : OutboundRequestId) (respondTo : Responder)
      (call : input = .command (.fetchMempoolState pick requestId respondTo))
      (next : pending' = AList.insert requestId respondTo pending) (silent : answers = [])
  | refused (pick : Nat) (requestId : OutboundRequestId) (respondTo : Responder)
      (call : input = .command (.fetchMempoolState pick requestId respondTo))
      (next : pending' = pending) (told : answers = [(respondTo, .error noPeers)])
  | settled (requestId : OutboundRequestId) (result : FetchResult) (respondTo : Responder)
      (report : input.settles = some (requestId, result))
      (waiting : pending.read requestId = some respondTo)
      (next : pending' = AList.erase requestId pending) (told : answers = [(respondTo, result)])
  | other (none : input.fetchCall = none) (next : pending' = pending) (silent : answers = [])

namespace StryiNetworkManager

/-- The callers that wait for an answer. -/
def waiting (manager : StryiNetworkManager) : List Responder :=
  manager.pendingMempoolFetches.toPairs.map Prod.snd

/-- libp2p gives a request an id that is not in use. -/
def FreshId (manager : StryiNetworkManager) (input : NetworkInput) : Prop :=
  ∀ pick requestId respondTo, input = .command (.fetchMempoolState pick requestId respondTo) →
    manager.pendingMempoolFetches.read requestId = none

end StryiNetworkManager

/-- How a caller came to an answer: it has asked, and was told that nobody is there, or what became
of the request that was sent for it. -/
def CameOf (inputs : List NetworkInput) (answer : Responder × FetchResult) : Prop :=
  ∃ pick requestId, .command (.fetchMempoolState pick requestId answer.1) ∈ inputs ∧
    (answer.2 = .error noPeers ∨ ∃ input ∈ inputs, input.settles = some (requestId, answer.2))

end Model

namespace StryiNetworkManager

section Turns

variable [Primitives] [Floats] [Networking] {manager : StryiNetworkManager}
  {input : NetworkInput} {inputs : List NetworkInput}

theorem fetchTurn (manager : StryiNetworkManager) (input : NetworkInput) :
    FetchTurn manager.pendingMempoolFetches input (manager.step input).pendingMempoolFetches
      (fetchAnswers (manager.handle input).2) := by
  have resolved (requestId : OutboundRequestId) (result : FetchResult)
      (report : input.settles = some (requestId, result)) (call : input.fetchCall = none)
      (same : manager.handle input = manager.resolveFetch requestId result) :
      FetchTurn manager.pendingMempoolFetches input (manager.step input).pendingMempoolFetches
        (fetchAnswers (manager.handle input).2) := by
    rw [step, same, resolveFetch]
    cases waiting : manager.pendingMempoolFetches.read requestId with
    | none => exact .other call rfl rfl
    | some respondTo => exact .settled requestId result respondTo report waiting rfl rfl
  cases input with
  | command command =>
    cases command with
    | addService service respondTo =>
      have pushed (peers : List PeerId) (services : List SignedServiceRecord) :
          fetchAnswers (pushServicesToPeers peers services) = [] := by
        rw [fetchAnswers, pushServicesToPeers, List.filterMap_map, List.filterMap_eq_nil_iff]
        exact fun _ _ => rfl
      have told : fetchAnswers (manager.processCommand (.addService service respondTo)).2 = [] ∧
          (manager.processCommand (.addService service respondTo)).1.pendingMempoolFetches =
            manager.pendingMempoolFetches := by
        simp only [processCommand]
        cases SignedServiceRecord.sign manager.keypair service with
        | error e => exact ⟨rfl, rfl⟩
        | ok signed =>
          refine ⟨?_, rfl⟩
          show fetchAnswers (_ ++ [_]) = []
          rw [fetchAnswers, List.filterMap_append, ← fetchAnswers, pushed]
          rfl
      exact .other rfl told.2 told.1
    | fetchMempoolState pick requestId respondTo =>
      show FetchTurn _ _ (manager.processCommand _).1.pendingMempoolFetches
        (fetchAnswers (manager.processCommand _).2)
      simp only [processCommand]
      split
      · exact .asked pick requestId respondTo rfl rfl rfl
      · exact .refused pick requestId respondTo rfl rfl rfl
    | refreshPeerServices peer respondTo =>
      show FetchTurn _ _ (manager.processCommand _).1.pendingMempoolFetches
        (fetchAnswers (manager.processCommand _).2)
      simp only [processCommand]
      split <;> exact .other rfl rfl rfl
    | _ => exact .other rfl rfl rfl
  | event event =>
    cases event with
    | mempoolResponse requestId syncData => exact resolved requestId (.ok syncData) rfl rfl rfl
    | mempoolOutboundFailure requestId error => exact resolved requestId _ rfl rfl rfl
    | connectionEstablished peer endpoint numEstablished =>
      show FetchTurn _ _ (manager.processEvent _).1.pendingMempoolFetches
        (fetchAnswers (manager.processEvent _).2)
      simp only [processEvent]
      split <;> exact .other rfl rfl rfl
    | connectionClosed peer endpoint numEstablished =>
      show FetchTurn _ _ (manager.processEvent _).1.pendingMempoolFetches
        (fetchAnswers (manager.processEvent _).2)
      simp only [processEvent]
      split
      · cases disconnectAddrFromEndpoint endpoint (manager.connectedPeers.read peer) <;>
          exact .other rfl rfl rfl
      · exact .other rfl rfl rfl
    | servicesRequest peer request =>
      cases request <;> exact .other rfl rfl rfl
    | gossip propagationSource source topic data =>
      show FetchTurn _ _ (manager.processEvent _).1.pendingMempoolFetches
        (fetchAnswers (manager.processEvent _).2)
      simp only [processEvent]
      cases handleGossipsubEvent propagationSource source topic data <;> exact .other rfl rfl rfl
    | ping peer answered =>
      cases answered with
      | true => exact .other rfl rfl rfl
      | false =>
        show FetchTurn _ _ (manager.processEvent _).1.pendingMempoolFetches
          (fetchAnswers (manager.processEvent _).2)
        simp only [processEvent]
        split <;> exact .other rfl rfl rfl
    | _ => exact .other rfl rfl rfl

/-- In one turn, who is answered and who waits afterwards are those who waited and the caller. -/
theorem balance_step (fresh : FreshId manager input) :
    ((fetchAnswers (manager.handle input).2).map Prod.fst ++ (manager.step input).waiting).Perm
      (input.fetchCall.toList ++ manager.waiting) := by
  rw [waiting, waiting]
  cases fetchTurn manager input with
  | asked pick requestId respondTo call next silent =>
    have unused : requestId ∉ manager.pendingMempoolFetches :=
      AList.lookup_eq_none.mp (fresh pick requestId respondTo call)
    rw [next, silent, call, Table.toPairs, AList.entries_insert_of_notMem unused]
    rfl
  | refused pick requestId respondTo call next told =>
    rw [next, told, call]
    rfl
  | settled requestId result respondTo report found next told =>
    have call : input.fetchCall = none := by
      cases input with
      | command command => cases report
      | event event => rfl
    rw [next, told, call]
    exact ((Table.toPairs_erase found).map Prod.snd).symm
  | other call next silent =>
    rw [next, silent, call]
    rfl

omit [Primitives] [Floats] in
theorem fetchAnswers_append (l l' : List Effect) :
    fetchAnswers (l ++ l') = fetchAnswers l ++ fetchAnswers l' := List.filterMap_append

theorem balance_run (fresh : Throughout step FreshId manager inputs) :
    ((fetchAnswers (manager.effects inputs)).map Prod.fst ++ (manager.run inputs).waiting).Perm
      (inputs.filterMap NetworkInput.fetchCall ++ manager.waiting) := by
  induction inputs generalizing manager with
  | nil => exact List.Perm.refl _
  | cons input inputs ih =>
    have here := balance_step fresh.1
    have later := ih fresh.2
    have calls : (input :: inputs).filterMap NetworkInput.fetchCall =
        input.fetchCall.toList ++ inputs.filterMap NetworkInput.fetchCall := by
      rw [List.filterMap_cons]
      cases input.fetchCall <;> rfl
    rw [List.perm_iff_count] at here later ⊢
    intro caller
    specialize here caller
    specialize later caller
    rw [calls, effects, fetchAnswers_append]
    show List.count caller (_ ++ ((manager.step input).run inputs).waiting) = _
    simp only [List.map_append, List.count_append] at here later ⊢
    omega

/-- Whoever waits has asked under that very request id. -/
theorem asked_step {all : List NetworkInput} (mem : input ∈ all)
    (asked : ∀ requestId respondTo, manager.pendingMempoolFetches.read requestId = some respondTo →
      ∃ pick, .command (.fetchMempoolState pick requestId respondTo) ∈ all) :
    (∀ answer ∈ fetchAnswers (manager.handle input).2, CameOf all answer) ∧
    ∀ requestId respondTo,
      (manager.step input).pendingMempoolFetches.read requestId = some respondTo →
        ∃ pick, .command (.fetchMempoolState pick requestId respondTo) ∈ all := by
  cases fetchTurn manager input with
  | asked pick requestId respondTo call next silent =>
    rw [silent, next, Table.read_insert]
    constructor
    · intro answer none
      exact (List.not_mem_nil none).elim
    · intro id caller found
      by_cases same : id = requestId
      · rw [same, Function.update_self] at found
        cases found
        exact ⟨pick, same ▸ call ▸ mem⟩
      · rw [Function.update_of_ne same] at found
        exact asked id caller found
  | refused pick requestId respondTo call next told =>
    rw [told, next]
    refine ⟨?_, asked⟩
    intro answer here
    cases List.mem_singleton.mp here
    exact ⟨pick, requestId, call ▸ mem, Or.inl rfl⟩
  | settled requestId result respondTo report found next told =>
    rw [told, next, Table.read_erase]
    constructor
    · intro answer here
      cases List.mem_singleton.mp here
      obtain ⟨pick, called⟩ := asked requestId respondTo found
      exact ⟨pick, requestId, called, Or.inr ⟨input, mem, report⟩⟩
    · intro id caller kept
      rw [Function.update_apply] at kept
      split at kept
      · cases kept
      · exact asked id caller kept
  | other call next silent =>
    rw [silent, next]
    exact ⟨fun answer none => (List.not_mem_nil none).elim, asked⟩

theorem asked_run {all : List NetworkInput} (sub : ∀ input ∈ inputs, input ∈ all)
    (asked : ∀ requestId respondTo, manager.pendingMempoolFetches.read requestId = some respondTo →
      ∃ pick, .command (.fetchMempoolState pick requestId respondTo) ∈ all) :
    ∀ answer ∈ fetchAnswers (manager.effects inputs), CameOf all answer := by
  induction inputs generalizing manager with
  | nil => exact fun answer none => (List.not_mem_nil none).elim
  | cons input inputs ih =>
    obtain ⟨here, waits⟩ := asked_step (sub input List.mem_cons_self) asked
    intro answer mem
    rw [effects, fetchAnswers_append, List.mem_append] at mem
    rcases mem with now | later
    · exact here answer now
    · exact ih (fun i mem => sub i (List.mem_cons_of_mem _ mem)) waits answer later

/-- Along every run in which libp2p does not reuse the id of a pending request, the callers that
have been answered and those that still wait are exactly the callers that have asked, each as often
as it has asked; and an answer is what libp2p has reported of the request that was sent for that
caller, or that nobody was connected. -/
theorem fetches_answered_once {keypair : Keypair} {inputs : List NetworkInput}
    (fresh : Throughout step FreshId (new keypair) inputs) :
    ((fetchAnswers ((new keypair).effects inputs)).map Prod.fst ++
      ((new keypair).run inputs).waiting).Perm (inputs.filterMap NetworkInput.fetchCall) ∧
    ∀ answer ∈ fetchAnswers ((new keypair).effects inputs), CameOf inputs answer := by
  constructor
  · have balance := balance_run fresh
    rw [show (new keypair).waiting = [] from rfl, List.append_nil] at balance
    exact balance
  · refine asked_run (fun input mem => mem) ?_
    intro requestId respondTo found
    cases found

end Turns

end StryiNetworkManager

namespace Sample

/-- A peer connects, the mempool is fetched from it, and it answers twice. -/
def fetching : List NetworkInput :=
  [.event (.connectionEstablished (5 : UInt64) (.dialer (9 : UInt64)) 1),
    .command (.fetchMempoolState 0 3 7), .event (.mempoolResponse 3 ⟨[], 0⟩),
    .event (.mempoolOutboundFailure 3 "timed out")]

end Sample

open Sample in
/-- The one caller is answered once. -/
theorem fetches_answered_once_sample :
    ((fetchAnswers ((StryiNetworkManager.new (keypairOf false)).effects fetching)).map Prod.fst ++
      ((StryiNetworkManager.new (keypairOf false)).run fetching).waiting).Perm [7] ∧
    ∀ answer ∈ fetchAnswers ((StryiNetworkManager.new (keypairOf false)).effects fetching),
      CameOf fetching answer := by
  refine StryiNetworkManager.fetches_answered_once ⟨?_, ?_, ?_, ?_, trivial⟩
  · intro pick requestId respondTo call
    cases call
  · intro pick requestId respondTo call
    cases call
    rfl
  · intro pick requestId respondTo call
    cases call
  · intro pick requestId respondTo call
    cases call

end StryiChain
