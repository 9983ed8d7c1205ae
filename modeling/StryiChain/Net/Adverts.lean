import StryiChain.Net.Entries

/-!
# Whose services a node lists

Every node runs its manager, and everything else that happens on the network is up to its
environment: messages come from anybody, in any order, and carry any envelopes but those that need
the secret of a node which has not signed them.
-/

namespace StryiChain

open Networking StryiNetworkManager

section Model

variable [Primitives] [Floats] [Networking] {ι : Type} [DecidableEq ι]

/-- The managers of the nodes. -/
abbrev Swarm (ι : Type) := ι → StryiNetworkManager

namespace Swarm

/-- Managers that have just been created. -/
def launch (keypairs : ι → Keypair) : Swarm ι := fun i => StryiNetworkManager.new (keypairs i)

/-- The managers after a turn of one of them. -/
def turn (nodes : Swarm ι) (action : ι × NetworkInput) : Swarm ι :=
  Function.update nodes action.1 ((nodes action.1).step action.2)

/-- The managers after a run. -/
def turns (nodes : Swarm ι) (actions : List (ι × NetworkInput)) : Swarm ι := actions.foldl turn nodes

/-- A node with this key has signed the envelope. -/
def Issued (nodes : Swarm ι) (signed : SignedServiceRecord) (pk : Ed25519Key) : Prop :=
  ∃ j, (nodes j).publicKey = pk ∧ signed ∈ (nodes j).ownServicesRegistry

/-- What a message cannot be: an envelope opens under the key of a node only after that node has
signed it, and a peer identifies itself with the key that its identity is made from. -/
structure Genuine (nodes : Swarm ι) (action : ι × NetworkInput) : Prop where
  unforged : ∀ signed ∈ action.2.envelopes, ∀ j, signed.OpensFor (nodes j).publicKey →
    Issued nodes signed (nodes j).publicKey
  identified : ∀ peer listenAddrs observedAddr key,
    action.2 = .event (.identifyReceived peer listenAddrs observedAddr key) →
      fromPublicKey key = peer

/-- The invariant of the nodes: the envelopes that they keep of each other are not forged, a key
stands with the identity it makes, and a registry holds what its own node was told to offer. -/
structure Authentic (added : ι → ServiceRecord → Prop) (nodes : Swarm ι) : Prop where
  stored : ∀ i peer info, (nodes i).connectedPeers.read peer = some info →
    ∀ signed ∈ info.services, ∀ j, signed.OpensFor (nodes j).publicKey →
      Issued nodes signed (nodes j).publicKey
  keyed : ∀ i peer info key, (nodes i).connectedPeers.read peer = some info →
    info.publicKey = some key → fromPublicKey key = peer
  own : ∀ i, ∀ signed ∈ (nodes i).ownServicesRegistry, ∃ record,
    SignedServiceRecord.sign (nodes i).keypair record = .ok signed ∧ added i record

end Swarm

end Model

section Answers

variable [Primitives] [Floats] [Networking]

omit [Floats] in
/-- What is listed under a peer is verified under the key of its entry, or is the manager's own. -/
theorem mem_discoveredServices {manager : StryiNetworkManager} {service : String} {peer : PeerId}
    {record : ServiceRecord} : (peer, record) ∈ manager.discoveredServices service ↔
    record.kind = service ∧
      ((∃ info key pk, manager.connectedPeers.read peer = some info ∧ info.publicKey = some key ∧
          tryIntoEd25519 key = some pk ∧ record ∈ filterVerifiedRecords info.services pk) ∨
        peer = manager.peerId ∧
          record ∈ filterVerifiedRecords manager.ownServicesRegistry manager.publicKey) := by
  have entry (known : PeerId) (info : PeerInfo) : (peer, record) ∈ servicesOf service (known, info) ↔
      known = peer ∧ record.kind = service ∧ ∃ key pk, info.publicKey = some key ∧
        tryIntoEd25519 key = some pk ∧ record ∈ filterVerifiedRecords info.services pk := by
    rw [servicesOf]
    cases keyed : info.publicKey with
    | none => simp
    | some key =>
      cases narrowed : tryIntoEd25519 key with
      | none => simp [narrowed]
      | some pk =>
        simp only [Option.bind_some, narrowed, List.mem_map, List.mem_filter, decide_eq_true_eq,
          Prod.mk.injEq, Option.some.injEq]
        constructor
        · intro listed
          obtain ⟨found, ⟨mem, kind⟩, same, rfl⟩ := listed
          exact ⟨same, kind, key, pk, rfl, narrowed, mem⟩
        · intro listed
          obtain ⟨same, kind, _, _, rfl, narrowed', mem⟩ := listed
          cases narrowed.symm.trans narrowed'
          exact ⟨record, ⟨mem, kind⟩, same, rfl⟩
  rw [discoveredServices, List.mem_append, List.mem_flatMap]
  constructor
  · intro listed
    rcases listed with ⟨⟨known, info⟩, mem, found⟩ | own
    · obtain ⟨same, kind, key, pk, keyed, narrowed, verified⟩ := (entry known info).mp found
      subst same
      exact ⟨kind, Or.inl ⟨info, key, pk, Table.mem_toPairs.mp mem, keyed, narrowed, verified⟩⟩
    · simp only [List.mem_map, List.mem_filter, decide_eq_true_eq, Prod.mk.injEq] at own
      obtain ⟨found, ⟨mem, kind⟩, same, rfl⟩ := own
      exact ⟨kind, Or.inr ⟨same.symm, mem⟩⟩
  · intro listed
    obtain ⟨kind, known | own⟩ := listed
    · obtain ⟨info, key, pk, read, keyed, narrowed, verified⟩ := known
      exact Or.inl ⟨(peer, info), Table.mem_toPairs.mpr read,
        (entry peer info).mpr ⟨rfl, kind, key, pk, keyed, narrowed, verified⟩⟩
    · refine Or.inr (List.mem_map.mpr ⟨record, ?_, by rw [own.1]⟩)
      exact List.mem_filter.mpr ⟨own.2, decide_eq_true kind⟩

end Answers

namespace Swarm

section Turn

variable [Primitives] [Floats] [Networking] {ι : Type} [DecidableEq ι] {nodes : Swarm ι}
  {action : ι × NetworkInput} {actions : List (ι × NetworkInput)}
  {added : ι → ServiceRecord → Prop} {signed : SignedServiceRecord} {pk : Ed25519Key}

theorem turn_self (nodes : Swarm ι) (i : ι) (input : NetworkInput) :
    turn nodes (i, input) i = (nodes i).step input := by
  rw [turn, Function.update_self]

theorem turn_other {i j : ι} (other : j ≠ i) (nodes : Swarm ι) (input : NetworkInput) :
    turn nodes (i, input) j = nodes j := by
  rw [turn, Function.update_of_ne other]

theorem keypair_turn (nodes : Swarm ι) (action : ι × NetworkInput) (j : ι) :
    (turn nodes action j).keypair = (nodes j).keypair := by
  obtain ⟨i, input⟩ := action
  by_cases same : j = i
  · rw [same, turn_self]
    exact (step_own (nodes i) input).1
  · rw [turn_other same]

theorem publicKey_turn (nodes : Swarm ι) (action : ι × NetworkInput) (j : ι) :
    (turn nodes action j).publicKey = (nodes j).publicKey := by
  rw [publicKey, publicKey, keypair_turn]

theorem keypair_turns (nodes : Swarm ι) (actions : List (ι × NetworkInput)) (j : ι) :
    (turns nodes actions j).keypair = (nodes j).keypair := by
  induction actions generalizing nodes with
  | nil => rfl
  | cons action actions ih =>
    show (turns (turn nodes action) actions j).keypair = _
    rw [ih, keypair_turn]

/-- What has been signed stays signed. -/
theorem issued_turn (issued : Issued nodes signed pk) (action : ι × NetworkInput) :
    Issued (turn nodes action) signed pk := by
  obtain ⟨j, key, mem⟩ := issued
  refine ⟨j, by rw [publicKey_turn, key], ?_⟩
  obtain ⟨i, input⟩ := action
  by_cases same : j = i
  · rw [same, turn_self, (step_own (nodes i) input).2]
    exact List.mem_append_left _ (same ▸ mem)
  · rw [turn_other same]
    exact mem

theorem authentic_turn (authentic : Authentic added nodes) (genuine : Genuine nodes action)
    (known : ∀ record respondTo,
      action.2 = .command (.addService record respondTo) → added action.1 record) :
    Authentic added (turn nodes action) := by
  obtain ⟨i, input⟩ := action
  constructor
  · intro k peer info found signed mem j opens
    rw [publicKey_turn] at opens ⊢
    refine issued_turn ?_ (i, input)
    by_cases same : k = i
    · rw [same, turn_self, read_step] at found
      rcases mem_services_entryAfter found mem with fresh | ⟨info', entry, mem'⟩
      · exact genuine.unforged signed fresh j opens
      · exact authentic.stored i peer info' entry signed mem' j opens
    · rw [turn_other same] at found
      exact authentic.stored k peer info found signed mem j opens
  · intro k peer info key found keyed
    by_cases same : k = i
    · rw [same, turn_self, read_step] at found
      rcases publicKey_entryAfter found keyed with ⟨listenAddrs, observedAddr, shown⟩ |
        ⟨info', entry, keyed'⟩
      · exact genuine.identified peer listenAddrs observedAddr key shown
      · exact authentic.keyed i peer info' key entry keyed'
    · rw [turn_other same] at found
      exact authentic.keyed k peer info key found keyed
  · intro k signed mem
    rw [keypair_turn]
    by_cases same : k = i
    · subst same
      rw [turn_self, (step_own (nodes k) input).2, List.mem_append] at mem
      rcases mem with before | fresh
      · exact authentic.own k signed before
      · cases input with
        | event event => cases fresh
        | command command =>
          cases command with
          | addService service respondTo =>
            rw [registered, Option.mem_toList, toOption_eq_some] at fresh
            exact ⟨service, fresh, known service respondTo rfl⟩
          | _ => cases fresh
    · rw [turn_other same] at mem
      exact authentic.own k signed mem

theorem authentic_turns (authentic : Authentic added nodes)
    (genuine : Throughout turn Genuine nodes actions)
    (known : ∀ i record respondTo,
      (i, .command (.addService record respondTo)) ∈ actions → added i record) :
    Authentic added (turns nodes actions) := by
  induction actions generalizing nodes with
  | nil => exact authentic
  | cons action actions ih =>
    refine ih (authentic_turn authentic genuine.1 ?_) genuine.2 fun i record respondTo mem =>
      known i record respondTo (List.mem_cons_of_mem _ mem)
    intro record respondTo same
    exact known action.1 record respondTo (same ▸ List.mem_cons_self)

omit [Floats] [DecidableEq ι] in
theorem authentic_launch (keypairs : ι → Keypair) : Authentic added (launch keypairs) := by
  constructor
  · intro i peer info found
    cases found
  · intro i peer info key found
    cases found
  · intro i signed mem
    cases mem

end Turn

section Listing

variable [Primitives] [Floats] [Networking] [LawfulNetworking] {ι : Type} [DecidableEq ι]

/-- What a node answers when it is asked for a service: every record has the kind that was asked for
and names the peer it stands under, and what stands under one of the nodes is what that very node
was told to offer, whatever the other peers have sent. -/
theorem listed_services_were_added {keypairs : ι → Keypair} {actions : List (ι × NetworkInput)}
    (genuine : Throughout turn Genuine (launch keypairs) actions) {i : ι} {service : String}
    {respondTo : Responder} {found : List (PeerId × ServiceRecord)}
    (answered : .answerServices respondTo found ∈ ((turns (launch keypairs) actions i).handle
      (.command (.queryPeersWithService service respondTo))).2)
    {peer : PeerId} {record : ServiceRecord} (listed : (peer, record) ∈ found) :
    record.kind = service ∧ record.owner = peer ∧
      ∀ j, (launch keypairs j).peerId = peer → ∃ k respondTo, (launch keypairs k).peerId = peer ∧
        (k, .command (.addService record respondTo)) ∈ actions := by
  have authentic : Authentic (fun k record => ∃ respondTo,
      (k, NetworkInput.command (.addService record respondTo)) ∈ actions)
      (turns (launch keypairs) actions) :=
    authentic_turns (authentic_launch keypairs) genuine fun k record respondTo mem => ⟨respondTo, mem⟩
  have key (k : ι) : (turns (launch keypairs) actions k).publicKey =
      (launch keypairs k).publicKey := by
    rw [publicKey, publicKey, keypair_turns]
  cases List.mem_singleton.mp answered
  obtain ⟨kind, ⟨info, shown, pk, entry, keyed, narrowed, verified⟩ | ⟨self, verified⟩⟩ :=
    mem_discoveredServices.mp listed
  · obtain ⟨signed, mem, accepted⟩ := mem_filterVerifiedRecords.mp verified
    obtain ⟨payload, signer, opened, signedBy, decoded, owned⟩ := verifyAndDecode_eq_ok.mp accepted
    have identity : fromPublicKey (ofEd25519 pk) = peer := by
      rw [← LawfulNetworking.tryIntoEd25519_eq_some.mp narrowed]
      exact authentic.keyed i peer info shown entry keyed
    refine ⟨kind, owned.trans identity, ?_⟩
    intro j same
    -- The identity of a node is that of one key alone, so the envelope opened under the node's key.
    have node : (launch keypairs j).publicKey = pk :=
      LawfulNetworking.fromPublicKey_injective (same.trans identity.symm)
    have opens : signed.OpensFor (turns (launch keypairs) actions j).publicKey := by
      rw [key, node]
      exact ⟨payload, signer, opened, signedBy⟩
    obtain ⟨k, holder, issued⟩ := authentic.stored i peer info entry signed mem j opens
    obtain ⟨offered, made, told, added⟩ := authentic.own k signed issued
    have original : record = offered := ((verifyAndDecode_sign made).mp accepted).2.1
    rw [key, key] at holder
    refine ⟨k, told, ?_, original ▸ added⟩
    show fromPublicKey (ofEd25519 (launch keypairs k).publicKey) = peer
    rw [holder]
    exact same
  · obtain ⟨signed, mem, accepted⟩ := mem_filterVerifiedRecords.mp verified
    obtain ⟨offered, made, told, added⟩ := authentic.own i signed mem
    obtain ⟨_, original, owned⟩ := (verifyAndDecode_sign made).mp accepted
    have node : (launch keypairs i).peerId = peer := by
      rw [self, peerId, peerId, key]
    refine ⟨kind, ?_, fun _ _ => ⟨i, told, node, original ▸ added⟩⟩
    rw [original, owned]
    exact self.symm

end Listing

end Swarm

namespace Sample

/-- Keys, identities and addresses that are numbers, and envelopes that carry their signer. -/
scoped instance networking : Networking where
  PeerId := UInt64
  Multiaddr := UInt64
  PublicKey := UInt64
  Ed25519Key := UInt64
  Keypair := UInt64
  SignedEnvelope := UInt64 × String × List UInt8 × List UInt8
  decPeerId := inferInstance
  decMultiaddr := inferInstance
  decPublicKey := inferInstance
  decEd25519Key := inferInstance
  peerIdCodec := Codec.u64
  multiaddrCodec := Codec.u64
  postcardError _ := "unexpected end"
  emptyMultiaddr := 0
  fromPublicKey key := key
  tryIntoEd25519 key := some key
  ofEd25519 key := key
  publicOf keypair := keypair
  signEnvelope keypair domain kind payload := .ok (keypair, domain, kind, payload)
  payloadAndSigningKey envelope domain kind :=
    if envelope.2.1 = domain ∧ envelope.2.2.1 = kind then .ok (envelope.2.2.2, envelope.1)
    else .error "invalid payload type"

instance lawfulNetworking : LawfulNetworking where
  payloadAndSigningKey_signEnvelope := by
    intro keypair domain kind payload envelope signed
    cases signed
    exact if_pos ⟨rfl, rfl⟩
  tryIntoEd25519_eq_some := by
    intro key pk
    exact Option.some_inj
  fromPublicKey_injective := fun _ _ same => same

/-- Two nodes. -/
def keypairOf : Bool → Keypair := fun second => if second then (2 : UInt64) else (1 : UInt64)

/-- What the first node offers. -/
def syncService : ServiceRecord :=
  ⟨(7 : UInt64), (1 : UInt64), "grpc-sync", 1, .tlsServerCert "pem"⟩

/-- The envelope of the first node. -/
def syncEnvelope : SignedServiceRecord :=
  ⟨((1 : UInt64), signedServiceRecordDomain, signedServicePayloadType,
    serviceRecordCodec.encode syncService)⟩

/-- The first node offers its service and pushes it to the second, which knows it by then. -/
def offering : List (Bool × NetworkInput) :=
  [(false, .command (.addService syncService 0)),
    (true, .event (.identifyReceived (1 : UInt64) [] (7 : UInt64) (1 : UInt64))),
    (true, .event (.servicesRequest (1 : UInt64) (.pushServices [syncEnvelope])))]

theorem syncEnvelope_sign : SignedServiceRecord.sign (keypairOf false) syncService =
    .ok syncEnvelope := rfl

theorem offering_genuine : Throughout Swarm.turn Swarm.Genuine (Swarm.launch keypairOf) offering := by
  refine ⟨⟨?_, ?_⟩, ⟨?_, ?_⟩, ⟨?_, ?_⟩, trivial⟩
  · intro signed mem
    cases mem
  · intro peer listenAddrs observedAddr key same
    cases same
  · intro signed mem
    cases mem
  · intro peer listenAddrs observedAddr key same
    cases same
    rfl
  · intro signed mem j opens
    cases List.mem_singleton.mp mem
    obtain ⟨payload, key, opened, keyed⟩ := opens
    rw [opened_sign syncEnvelope_sign] at opened
    cases opened
    refine ⟨false, Option.some.inj keyed, ?_⟩
    exact List.mem_singleton.mpr rfl
  · intro peer listenAddrs observedAddr key same
    cases same

end Sample

open Sample in
/-- The second node lists the service of the first one. -/
theorem listed_services_were_added_sample :
    syncService.kind = "grpc-sync" ∧ syncService.owner = (Swarm.launch keypairOf false).peerId ∧
      ∃ k respondTo, (Swarm.launch keypairOf k).peerId = (Swarm.launch keypairOf false).peerId ∧
        (k, .command (.addService syncService respondTo)) ∈ offering := by
  have accepted : syncEnvelope.verifyAndDecode (publicOf (keypairOf false)) = .ok syncService :=
    (verifyAndDecode_sign syncEnvelope_sign).mpr ⟨rfl, rfl, rfl⟩
  have listed : ((1 : UInt64), syncService) ∈
      (Swarm.turns (Swarm.launch keypairOf) offering true).discoveredServices "grpc-sync" := by
    refine mem_discoveredServices.mpr ⟨rfl, Or.inl ⟨_, (1 : UInt64), (1 : UInt64), rfl, rfl, rfl, ?_⟩⟩
    exact mem_filterVerifiedRecords.mpr ⟨syncEnvelope, List.mem_singleton.mpr rfl, accepted⟩
  have answered : .answerServices 0
      ((Swarm.turns (Swarm.launch keypairOf) offering true).discoveredServices "grpc-sync") ∈
      ((Swarm.turns (Swarm.launch keypairOf) offering true).handle
        (.command (.queryPeersWithService "grpc-sync" 0))).2 := List.mem_singleton.mpr rfl
  obtain ⟨kind, owner, told⟩ :=
    Swarm.listed_services_were_added offering_genuine answered listed
  exact ⟨kind, owner, told false rfl⟩

end StryiChain
