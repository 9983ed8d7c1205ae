import StryiChain.Net.Entries

/-!
# Pings that fail in a row

The node asks libp2p to leave a peer when `MAX_PING_FAILURES` pings in a row have failed. The
counter lives in the entry of the peer; what it counts is a property of the inputs alone.
-/

namespace StryiChain

open Networking

section Counter

variable {α : Type} {fails resets : α → Bool} {l : List α} {n : Nat}

/-- A counter of what fails since the last reset. -/
def countUp (fails resets : α → Bool) (n : Nat) (a : α) : Nat :=
  if resets a then 0 else if fails a then n + 1 else n

theorem foldl_countUp (none : ∀ a ∈ l, resets a = false) :
    l.foldl (countUp fails resets) n = n + l.countP fails := by
  induction l generalizing n with
  | nil => rfl
  | cons a l ih =>
    have here : countUp fails resets n a = if fails a then n + 1 else n := by
      rw [countUp, none a List.mem_cons_self]
      rfl
    rw [List.foldl_cons, ih fun b mem => none b (List.mem_cons_of_mem _ mem), here,
      List.countP_cons]
    split <;> omega

/-- The counter has reached `n` when there have been `n` failures without a reset. -/
theorem le_countUp_iff : n ≤ l.foldl (countUp fails resets) 0 ↔
    ∃ before recent, l = before ++ recent ∧ (∀ a ∈ recent, resets a = false) ∧
      n ≤ recent.countP fails := by
  constructor
  · intro reached
    -- the failures since the last reset are exactly those that are counted
    have whole : ∃ before recent, l = before ++ recent ∧ (∀ a ∈ recent, resets a = false) ∧
        l.foldl (countUp fails resets) 0 = recent.countP fails := by
      clear reached
      induction l using List.reverseRecOn with
      | nil => exact ⟨[], [], rfl, fun _ none => (List.not_mem_nil none).elim, rfl⟩
      | append_singleton l a ih =>
        obtain ⟨before, recent, split', none, counted⟩ := ih
        rw [List.foldl_append, List.foldl_cons, List.foldl_nil, counted, countUp]
        by_cases reset : resets a = true
        · rw [if_pos reset]
          exact ⟨l ++ [a], [], (List.append_nil _).symm,
            fun _ none => (List.not_mem_nil none).elim, rfl⟩
        · rw [if_neg reset]
          refine ⟨before, recent ++ [a], by rw [split', List.append_assoc], ?_, ?_⟩
          · intro b mem
            rcases List.mem_append.mp mem with old | new
            · exact none b old
            · rw [List.mem_singleton.mp new]
              exact Bool.not_eq_true _ ▸ reset
          · rw [List.countP_append, List.countP_singleton]
            split <;> rfl
    obtain ⟨before, recent, split', none, counted⟩ := whole
    exact ⟨before, recent, split', none, counted ▸ reached⟩
  · rintro ⟨before, recent, rfl, none, enough⟩
    rw [List.foldl_append, foldl_countUp none]
    omega

end Counter

section Model

variable [Primitives] [Floats] [Networking]

/-- A ping of the peer has failed. -/
def NetworkInput.failsPing (p : PeerId) : NetworkInput → Bool
  | .event (.ping peer false) => p = peer
  | _ => false

/-- A ping of the peer was answered, or its last connection is closed. -/
def NetworkInput.resetsPings (p : PeerId) : NetworkInput → Bool
  | .event (.ping peer true) => p = peer
  | .event (.connectionClosed peer _ numEstablished) => p = peer ∧ numEstablished = 0
  | _ => false

/-- The failures in a row of an entry. -/
def failuresOf (entry : Option PeerInfo) : Nat :=
  (entry.getD (PeerInfo.newNow none)).consecutivePingFailures

end Model

namespace StryiNetworkManager

section Turns

variable [Primitives] [Floats] [Networking] {p : PeerId}

theorem failuresOf_entryAfter (entry : Option PeerInfo) (input : NetworkInput) :
    failuresOf (entryAfter p entry input) =
      countUp (NetworkInput.failsPing p) (NetworkInput.resetsPings p) (failuresOf entry) input := by
  cases input with
  | command command => rfl
  | event event =>
    cases event with
    | connectionEstablished peer endpoint numEstablished =>
      show failuresOf (if p = peer then _ else entry) = failuresOf entry
      by_cases same : p = peer
      · rw [if_pos same]
        cases entry with
        | none => rfl
        | some info =>
          obtain ⟨more, added⟩ := info.addAddress_eq (remoteAddrFromEndpoint endpoint)
          show (info.addAddress _).consecutivePingFailures = _
          rw [added]
          rfl
      · rw [if_neg same]
    | connectionClosed peer endpoint numEstablished =>
      show failuresOf (if p = peer ∧ numEstablished = 0 then none else entry) =
        if decide (p = peer ∧ numEstablished = 0) = true then 0 else failuresOf entry
      by_cases last : p = peer ∧ numEstablished = 0
      · rw [if_pos last, if_pos (decide_eq_true last)]
        rfl
      · rw [if_neg last, if_neg (by rw [decide_eq_true_eq]; exact last)]
    | servicesRequest peer request =>
      cases request with
      | listServices => rfl
      | pushServices services =>
        show failuresOf (if p = peer then _ else entry) = failuresOf entry
        split <;> rfl
    | servicesResponse peer services =>
      show failuresOf (if p = peer then _ else entry) = failuresOf entry
      split <;> rfl
    | ping peer answered =>
      cases answered with
      | true =>
        show failuresOf (if p = peer then _ else entry) =
          if decide (p = peer) = true then 0 else failuresOf entry
        by_cases same : p = peer
        · rw [if_pos same, if_pos (decide_eq_true same)]
          rfl
        · rw [if_neg same, if_neg (by rw [decide_eq_true_eq]; exact same)]
      | false =>
        show failuresOf (if p = peer then _ else entry) =
          if decide (p = peer) = true then failuresOf entry + 1 else failuresOf entry
        by_cases same : p = peer
        · rw [if_pos same, if_pos (decide_eq_true same)]
          rfl
        · rw [if_neg same, if_neg (by rw [decide_eq_true_eq]; exact same)]
    | identifyReceived peer listenAddrs observedAddr publicKey =>
      show failuresOf (if p = peer then _ else entry) = failuresOf entry
      by_cases same : p = peer
      · rw [if_pos same]
        obtain ⟨more, changed⟩ := (entry.getD (PeerInfo.newNow none)).identify_eq listenAddrs
          [observedAddr] publicKey
        show ((((entry.getD (PeerInfo.newNow none)).mergeAddresses listenAddrs).mergeAddresses
          [observedAddr]).storeKey publicKey).consecutivePingFailures = _
        rw [changed]
        rfl
      · rw [if_neg same]
    | _ => rfl

theorem failuresOf_run (keypair : Keypair) (inputs : List NetworkInput) (p : PeerId) :
    failuresOf (((new keypair).run inputs).connectedPeers.read p) =
      inputs.foldl (countUp (NetworkInput.failsPing p) (NetworkInput.resetsPings p)) 0 := by
  rw [read_run]
  have fold : ∀ (l : List NetworkInput) (entry : Option PeerInfo),
      failuresOf (l.foldl (entryAfter p) entry) =
        l.foldl (countUp (NetworkInput.failsPing p) (NetworkInput.resetsPings p))
          (failuresOf entry) := by
    intro l
    induction l with
    | nil => exact fun _ => rfl
    | cons input l ih =>
      intro entry
      rw [List.foldl_cons, List.foldl_cons, ih, failuresOf_entryAfter]
  exact fold inputs none

/-- Nothing else makes the node leave a peer. -/
theorem ping_of_disconnect {manager : StryiNetworkManager} {input : NetworkInput}
    (asked : Effect.disconnect p ∈ (manager.handle input).2) :
    input = .event (.ping p false) := by
  cases input with
  | command command =>
    change Effect.disconnect p ∈ (manager.processCommand command).2 at asked
    cases command with
    | addService service respondTo =>
      simp only [processCommand] at asked
      split at asked <;> simp [pushServicesToPeers] at asked
    | fetchMempoolState pick requestId respondTo =>
      simp only [processCommand] at asked
      split at asked <;> simp at asked
    | refreshPeerServices peer respondTo =>
      simp only [processCommand] at asked
      split at asked <;> simp at asked
    | _ => simp [processCommand] at asked
  | event event =>
    change Effect.disconnect p ∈ (manager.processEvent event).2 at asked
    cases event with
    | connectionEstablished peer endpoint numEstablished =>
      simp only [processEvent] at asked
      split at asked <;> simp at asked
    | connectionClosed peer endpoint numEstablished =>
      simp only [processEvent] at asked
      split at asked
      · simp at asked
      · simp at asked
    | mempoolResponse requestId syncData =>
      simp only [processEvent, resolveFetch] at asked
      split at asked <;> simp at asked
    | mempoolOutboundFailure requestId error =>
      simp only [processEvent, resolveFetch] at asked
      split at asked <;> simp at asked
    | servicesRequest peer request =>
      cases request <;> simp [processEvent, handleServicesInfoRequest] at asked
    | ping peer answered =>
      cases answered with
      | true => simp [processEvent] at asked
      | false =>
        simp only [processEvent] at asked
        split at asked
        · rw [List.mem_singleton, Effect.disconnect.injEq] at asked
          rw [asked]
        · cases asked
    | _ => simp [processEvent] at asked

/-- The node leaves a peer exactly when a ping of it fails that is at least the tenth without an
answer, and without a close of the last connection, in between. -/
theorem leaves_after_failures (keypair : Keypair) (inputs : List NetworkInput)
    (input : NetworkInput) (p : PeerId) :
    Effect.disconnect p ∈ (((new keypair).run inputs).handle input).2 ↔
      input = .event (.ping p false) ∧ ∃ before recent, inputs = before ++ recent ∧
        (∀ earlier ∈ recent, NetworkInput.resetsPings p earlier = false) ∧
        maxPingFailures ≤ recent.countP (NetworkInput.failsPing p) + 1 := by
  have counter : (((new keypair).run inputs).connectedPeers.pingFailure p).2 =
      inputs.foldl (countUp (NetworkInput.failsPing p) (NetworkInput.resetsPings p)) 0 + 1 := by
    rw [← failuresOf_run]
    rfl
  have enough : Effect.disconnect p ∈
      (((new keypair).run inputs).handle (.event (.ping p false))).2 ↔
      maxPingFailures ≤ (((new keypair).run inputs).connectedPeers.pingFailure p).2 := by
    show Effect.disconnect p ∈ (if _ then [Effect.disconnect p] else []) ↔ _
    split
    · next reached => exact iff_of_true (List.mem_singleton.mpr rfl) reached
    · next short => exact iff_of_false List.not_mem_nil short
  rw [counter, ← Nat.sub_le_iff_le_add, le_countUp_iff] at enough
  simp only [Nat.sub_le_iff_le_add] at enough
  constructor
  · intro asked
    have failed := ping_of_disconnect asked
    rw [failed] at asked
    exact ⟨failed, enough.mp asked⟩
  · rintro ⟨rfl, reached⟩
    exact enough.mpr reached

end Turns

end StryiNetworkManager

end StryiChain
