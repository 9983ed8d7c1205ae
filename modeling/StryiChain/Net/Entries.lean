import StryiChain.Misc.Runs
import StryiChain.Net.Manager

/-!
# The turns of the manager, part by part

The map of the peers is a product: what a turn does to the entry of one peer depends on that entry and
on the input alone. The registry of the manager's own services only grows.
-/

namespace StryiChain

open Networking

section Entry

variable [Primitives] [Floats] [Networking]

/-- What an input makes of the entry of a peer. -/
def entryAfter (p : PeerId) (entry : Option PeerInfo) : NetworkInput → Option PeerInfo
  | .command _ => entry
  | .event (.connectionEstablished peer endpoint _) =>
      if p = peer then
        some (match entry with
          | some info => info.addAddress (remoteAddrFromEndpoint endpoint)
          | none => PeerInfo.newNow (some (remoteAddrFromEndpoint endpoint)))
      else entry
  | .event (.connectionClosed peer _ numEstablished) =>
      if p = peer ∧ numEstablished = 0 then none else entry
  | .event (.servicesRequest peer (.pushServices services))
  | .event (.servicesResponse peer services) =>
      if p = peer then
        some ((entry.getD (PeerInfo.newNow none)).setSignedServices
          (services.take PeerMap.maxServices))
      else entry
  | .event (.ping peer answered) =>
      if p = peer then
        some (if answered then (entry.getD (PeerInfo.newNow none)).pingOk
          else (entry.getD (PeerInfo.newNow none)).pingFail)
      else entry
  | .event (.identifyReceived peer listenAddrs observedAddr publicKey) =>
      if p = peer then
        some ((((entry.getD (PeerInfo.newNow none)).mergeAddresses listenAddrs).mergeAddresses
          [observedAddr]).storeKey publicKey)
      else entry
  | .event _ => entry

namespace StryiNetworkManager

variable {manager : StryiNetworkManager} {input : NetworkInput} {p : PeerId}

theorem read_step (manager : StryiNetworkManager) (input : NetworkInput) (p : PeerId) :
    (manager.step input).connectedPeers.read p =
      entryAfter p (manager.connectedPeers.read p) input := by
  cases input with
  | command command =>
    have same : (manager.processCommand command).1.connectedPeers = manager.connectedPeers := by
      cases command with
      | addService service respondTo =>
        simp only [processCommand]
        split <;> rfl
      | fetchMempoolState pick requestId respondTo =>
        simp only [processCommand]
        split <;> rfl
      | refreshPeerServices peer respondTo =>
        simp only [processCommand]
        split <;> rfl
      | _ => rfl
    show (manager.processCommand command).1.connectedPeers.read p = _
    rw [same]
    rfl
  | event event =>
    show (manager.processEvent event).1.connectedPeers.read p = _
    cases event with
    | connectionEstablished peer endpoint numEstablished =>
      simp only [processEvent, PeerMap.upsertConnected, PeerMap.read_modify]
      rfl
    | connectionClosed peer endpoint numEstablished =>
      simp only [processEvent, entryAfter]
      by_cases last : numEstablished = 0
      · simp only [last, if_true, and_true, Table.read_erase, Function.update_apply]
      · simp only [last, if_false, and_false]
    | mempoolResponse requestId syncData =>
      simp only [processEvent, resolveFetch]
      split <;> rfl
    | mempoolOutboundFailure requestId error =>
      simp only [processEvent, resolveFetch]
      split <;> rfl
    | servicesRequest peer request =>
      cases request with
      | listServices => rfl
      | pushServices services =>
        simp only [processEvent, handleServicesInfoRequest, PeerMap.setSignedServices,
          PeerMap.read_modifyEntry, entryAfter]
    | servicesResponse peer services =>
      simp only [processEvent, PeerMap.setSignedServices, PeerMap.read_modifyEntry, entryAfter]
    | ping peer answered =>
      cases answered with
      | true =>
        simp only [processEvent, PeerMap.pingSuccess, PeerMap.read_modifyEntry]
        rfl
      | false =>
        simp only [processEvent, PeerMap.pingFailure, PeerMap.read_modifyEntry]
        rfl
    | identifyReceived peer listenAddrs observedAddr publicKey =>
      simp only [processEvent, PeerMap.upsertIdentify, PeerMap.read_modifyEntry]
      rfl
    | _ => rfl

/-- The entry of a peer after a run. -/
theorem read_run (manager : StryiNetworkManager) (inputs : List NetworkInput) (p : PeerId) :
    (manager.run inputs).connectedPeers.read p =
      inputs.foldl (entryAfter p) (manager.connectedPeers.read p) := by
  induction inputs generalizing manager with
  | nil => rfl
  | cons input inputs ih =>
    show ((manager.step input).run inputs).connectedPeers.read p = _
    rw [ih, read_step]
    rfl

end StryiNetworkManager

/-- The services that an input brings, and the peer they come from. -/
def NetworkInput.offered : NetworkInput → Option (PeerId × List SignedServiceRecord)
  | .event (.servicesRequest peer (.pushServices services)) => some (peer, services)
  | .event (.servicesResponse peer services) => some (peer, services)
  | _ => none

/-- The envelopes that come with an input. -/
def NetworkInput.envelopes (input : NetworkInput) : List SignedServiceRecord :=
  (input.offered.map Prod.snd).getD []

/-- The last connection of a peer is closed. -/
def NetworkInput.Closes (input : NetworkInput) (p : PeerId) : Prop :=
  ∃ endpoint, input = .event (.connectionClosed p endpoint 0)

/-- What a turn can do to the services and the key of an entry: the services are replaced by the
first ones of a message, and the key is the first that the peer has shown. -/
structure EntryChange (p : PeerId) (known : PeerInfo) (input : NetworkInput) (info : PeerInfo) :
    Prop where
  services : info.services = known.services ∨
    ∃ services, input.offered = some (p, services) ∧
      info.services = services.take PeerMap.maxServices
  key : info.publicKey = known.publicKey ∨
    ∃ listenAddrs observedAddr publicKey,
      input = .event (.identifyReceived p listenAddrs observedAddr publicKey) ∧
      info.publicKey = (known.publicKey <|> some publicKey)

theorem entryAfter_change {p : PeerId} {entry : Option PeerInfo} {input : NetworkInput}
    {info : PeerInfo} (after : entryAfter p entry input = some info) :
    EntryChange p (entry.getD (PeerInfo.newNow none)) input info := by
  have unchanged (same : entry = some info) :
      EntryChange p (entry.getD (PeerInfo.newNow none)) input info := by
    rw [same]
    exact ⟨Or.inl rfl, Or.inl rfl⟩
  cases input with
  | command command => exact unchanged after
  | event event =>
    cases event with
    | connectionEstablished peer endpoint numEstablished =>
      simp only [entryAfter] at after
      split at after
      · cases entry with
        | none =>
          cases after
          exact ⟨Or.inl rfl, Or.inl rfl⟩
        | some known =>
          cases after
          obtain ⟨more, added⟩ := known.addAddress_eq (remoteAddrFromEndpoint endpoint)
          dsimp only
          rw [added]
          exact ⟨Or.inl rfl, Or.inl rfl⟩
      · exact unchanged after
    | connectionClosed peer endpoint numEstablished =>
      simp only [entryAfter] at after
      split at after
      · cases after
      · exact unchanged after
    | servicesRequest peer request =>
      cases request with
      | listServices => exact unchanged after
      | pushServices services =>
        simp only [entryAfter] at after
        split at after
        · next same =>
          cases after
          subst same
          exact ⟨Or.inr ⟨services, rfl, rfl⟩, Or.inl rfl⟩
        · exact unchanged after
    | servicesResponse peer services =>
      simp only [entryAfter] at after
      split at after
      · next same =>
        cases after
        subst same
        exact ⟨Or.inr ⟨services, rfl, rfl⟩, Or.inl rfl⟩
      · exact unchanged after
    | ping peer answered =>
      simp only [entryAfter] at after
      split at after
      · cases after
        cases answered with
        | true => exact ⟨Or.inl rfl, Or.inl rfl⟩
        | false => exact ⟨Or.inl rfl, Or.inl rfl⟩
      · exact unchanged after
    | identifyReceived peer listenAddrs observedAddr publicKey =>
      simp only [entryAfter] at after
      split at after
      · next same =>
        cases after
        subst same
        obtain ⟨more, merged⟩ := (entry.getD (PeerInfo.newNow none)).identify_eq listenAddrs
          [observedAddr] publicKey
        rw [merged]
        exact ⟨Or.inl rfl, Or.inr ⟨listenAddrs, observedAddr, publicKey, rfl, rfl⟩⟩
      · exact unchanged after
    | mempoolRequest peer mempool now => exact unchanged after
    | mempoolResponse requestId syncData => exact unchanged after
    | mempoolOutboundFailure requestId error => exact unchanged after
    | gossip propagationSource source topic data => exact unchanged after
    | unhandled => exact unchanged after

/-- An entry goes only when the last connection is closed. -/
theorem entryAfter_isSome {p : PeerId} {known : PeerInfo} {input : NetworkInput}
    (opened : ¬ input.Closes p) : ∃ info, entryAfter p (some known) input = some info := by
  have either {cond : Prop} [Decidable cond] (info : PeerInfo) :
      ∃ info', (if cond then some info else some known) = some info' := by
    by_cases h : cond
    · exact ⟨info, if_pos h⟩
    · exact ⟨known, if_neg h⟩
  cases input with
  | command command => exact ⟨known, rfl⟩
  | event event =>
    cases event with
    | connectionClosed peer endpoint numEstablished =>
      refine ⟨known, if_neg ?_⟩
      intro last
      exact opened ⟨endpoint, by rw [last.1, last.2]⟩
    | servicesRequest peer request =>
      cases request with
      | listServices => exact ⟨known, rfl⟩
      | pushServices services => exact either _
    | connectionEstablished peer endpoint numEstablished => exact either _
    | servicesResponse peer services => exact either _
    | ping peer answered => exact either _
    | identifyReceived peer listenAddrs observedAddr publicKey => exact either _
    | _ => exact ⟨known, rfl⟩

/-- The envelopes of an entry came with the turn or were there before. -/
theorem mem_services_entryAfter {p : PeerId} {entry : Option PeerInfo} {input : NetworkInput}
    {info : PeerInfo} {signed : SignedServiceRecord} (after : entryAfter p entry input = some info)
    (mem : signed ∈ info.services) :
    signed ∈ input.envelopes ∨ ∃ known, entry = some known ∧ signed ∈ known.services := by
  rcases (entryAfter_change after).services with same | ⟨services, brought, taken⟩
  · rw [same] at mem
    cases entry with
    | none => cases mem
    | some known => exact Or.inr ⟨known, rfl, mem⟩
  · rw [taken] at mem
    rw [NetworkInput.envelopes, brought]
    exact Or.inl (List.mem_of_mem_take mem)

/-- The key of an entry came with the turn or was there before. -/
theorem publicKey_entryAfter {p : PeerId} {entry : Option PeerInfo} {input : NetworkInput}
    {info : PeerInfo} {key : PublicKey} (after : entryAfter p entry input = some info)
    (keyed : info.publicKey = some key) :
    (∃ listenAddrs observedAddr,
      input = .event (.identifyReceived p listenAddrs observedAddr key)) ∨
    ∃ known, entry = some known ∧ known.publicKey = some key := by
  rcases (entryAfter_change after).key with same | shown
  · rw [same] at keyed
    cases entry with
    | none => cases keyed
    | some known => exact Or.inr ⟨known, rfl, keyed⟩
  · obtain ⟨listenAddrs, observedAddr, publicKey, from', stored⟩ := shown
    rw [stored] at keyed
    cases entry with
    | none =>
      cases keyed
      exact Or.inl ⟨listenAddrs, observedAddr, from'⟩
    | some known =>
      cases first : known.publicKey with
      | none =>
        rw [Option.getD_some, first] at keyed
        cases keyed
        exact Or.inl ⟨listenAddrs, observedAddr, from'⟩
      | some old =>
        rw [Option.getD_some, first] at keyed
        exact Or.inr ⟨known, rfl, first.trans keyed⟩

namespace StryiNetworkManager

/-- The services that a turn signs. -/
def registered (keypair : Keypair) : NetworkInput → List SignedServiceRecord
  | .command (.addService service _) => (SignedServiceRecord.sign keypair service).toOption.toList
  | _ => []

/-- What is the manager's own: its key stays, and its registry only grows. -/
theorem step_own (manager : StryiNetworkManager) (input : NetworkInput) :
    (manager.step input).keypair = manager.keypair ∧
      (manager.step input).ownServicesRegistry =
        manager.ownServicesRegistry ++ registered manager.keypair input := by
  have unchanged {next : StryiNetworkManager} (key : next.keypair = manager.keypair)
      (registry : next.ownServicesRegistry = manager.ownServicesRegistry) :
      next.keypair = manager.keypair ∧
        next.ownServicesRegistry = manager.ownServicesRegistry ++ [] :=
    ⟨key, by rw [registry, List.append_nil]⟩
  cases input with
  | command command =>
    cases command with
    | addService service respondTo =>
      show (manager.processCommand _).1.keypair = _ ∧
        (manager.processCommand _).1.ownServicesRegistry = _
      simp only [processCommand, registered]
      cases SignedServiceRecord.sign manager.keypair service with
      | ok signed => exact ⟨rfl, rfl⟩
      | error e => exact unchanged rfl rfl
    | fetchMempoolState pick requestId respondTo =>
      show (manager.processCommand _).1.keypair = _ ∧
        (manager.processCommand _).1.ownServicesRegistry = _
      simp only [processCommand, registered]
      split <;> exact unchanged rfl rfl
    | refreshPeerServices peer respondTo =>
      show (manager.processCommand _).1.keypair = _ ∧
        (manager.processCommand _).1.ownServicesRegistry = _
      simp only [processCommand, registered]
      split <;> exact unchanged rfl rfl
    | _ => exact unchanged rfl rfl
  | event event =>
    have kept : (manager.processEvent event).1.keypair = manager.keypair ∧
        (manager.processEvent event).1.ownServicesRegistry = manager.ownServicesRegistry := by
      cases event with
      | connectionClosed peer endpoint numEstablished =>
        simp only [processEvent]
        split <;> exact ⟨rfl, rfl⟩
      | mempoolResponse requestId syncData =>
        simp only [processEvent, resolveFetch]
        split <;> exact ⟨rfl, rfl⟩
      | mempoolOutboundFailure requestId error =>
        simp only [processEvent, resolveFetch]
        split <;> exact ⟨rfl, rfl⟩
      | servicesRequest peer request =>
        cases request with
        | listServices => exact ⟨rfl, rfl⟩
        | pushServices services => exact ⟨rfl, rfl⟩
      | ping peer answered =>
        cases answered with
        | true => exact ⟨rfl, rfl⟩
        | false => exact ⟨rfl, rfl⟩
      | _ => exact ⟨rfl, rfl⟩
    exact unchanged kept.1 kept.2

end StryiNetworkManager

end Entry

end StryiChain
