import Mathlib.Data.List.Forall2
import StryiChain.Net.Adverts

/-!
# What a node lists of a peer that it has heard from

A node keeps the first `MAX_SERVICES` envelopes of the last list that a peer has sent it, and lists
those of them that name the peer.
-/

namespace StryiChain

open Networking StryiNetworkManager

section Entries

variable {K V W α β : Type} [DecidableEq K]

/-- What is tagged with one key comes from the only pair with that key. -/
theorem filter_flatMap_of_pair {l : List (K × V)} (distinct : (l.map Prod.fst).Nodup)
    {f : K × V → List (K × W)} (tagged : ∀ e, ∀ x ∈ f e, x.1 = e.1) {k : K} {v : V}
    (mem : (k, v) ∈ l) : (l.flatMap f).filter (fun x => x.1 = k) = f (k, v) := by
  have other (e : K × V) (ne : e.1 ≠ k) : (f e).filter (fun x => x.1 = k) = [] := by
    rw [List.filter_eq_nil_iff]
    intro x x_mem
    rw [decide_eq_true_eq, tagged e x x_mem]
    exact ne
  induction l with
  | nil => cases mem
  | cons e l ih =>
    rw [List.map_cons, List.nodup_cons] at distinct
    rw [List.flatMap_cons, List.filter_append]
    rcases List.mem_cons.mp mem with here | later
    · subst here
      have rest : (l.flatMap f).filter (fun x => x.1 = k) = [] := by
        rw [List.filter_flatMap, List.flatMap_eq_nil_iff]
        intro e e_mem
        exact other e fun same => distinct.1 (List.mem_map.mpr ⟨e, e_mem, same⟩)
      rw [rest, List.append_nil, List.filter_eq_self]
      intro x x_mem
      exact decide_eq_true (tagged _ x x_mem)
    · have ne : e.1 ≠ k := by
        intro same
        exact distinct.1 (same ▸ List.mem_map_of_mem later)
      rw [other e ne, List.nil_append, ih distinct.2 later]

/-- A lookup that recovers some of the elements of a list from their images. -/
theorem filterMap_of_forall₂ {R : α → β → Prop} {f : β → Option α} {p : α → Bool}
    (recovers : ∀ a b, R a b → f b = if p a then some a else none) {l : List α} {l' : List β}
    (related : List.Forall₂ R l l') : l'.filterMap f = l.filter p := by
  induction related with
  | nil => rfl
  | @cons a b l l' here _ ih =>
    rw [List.filterMap_cons, recovers a b here, List.filter_cons]
    by_cases kept : p a = true
    · rw [if_pos kept, if_pos kept, ih]
    · rw [if_neg kept, if_neg kept, ih]

end Entries

section Model

variable [Primitives] [Floats] [Networking] {ι : Type} [DecidableEq ι]

/-- The services that an input adds to the registry of a manager with this key. -/
def addedBy (keypair : Keypair) : NetworkInput → List ServiceRecord
  | .command (.addService service _) =>
      if (SignedServiceRecord.sign keypair service).isOk then [service] else []
  | _ => []

/-- The services that a run adds to the registry of a node, in their order. -/
def Swarm.addedTo (keypairs : ι → Keypair) (j : ι) (actions : List (ι × NetworkInput)) :
    List ServiceRecord :=
  (actions.filter fun action => action.1 = j).flatMap fun action => addedBy (keypairs j) action.2

/-- An input after which the list of a peer is still the last one. -/
def NetworkInput.Keeps (input : NetworkInput) (p : PeerId) : Prop :=
  ¬ input.Closes p ∧ ∀ services, input.offered ≠ some (p, services)

end Model

section Manager

variable [Primitives] [Floats] [Networking] {manager : StryiNetworkManager} {peer : PeerId}
  {service : String}

omit [Floats] in
theorem filterVerifiedRecords_of_signed [LawfulNetworking] {keypair : Keypair}
    {records : List ServiceRecord} {signed : List SignedServiceRecord}
    (made : List.Forall₂ (fun record envelope =>
      SignedServiceRecord.sign keypair record = .ok envelope) records signed) :
    filterVerifiedRecords signed (publicOf keypair) =
      records.filter fun record => record.owner = fromPublicKey (ofEd25519 (publicOf keypair)) := by
  refine filterMap_of_forall₂ ?_ made
  intro record envelope sealed
  by_cases named : record.owner = fromPublicKey (ofEd25519 (publicOf keypair))
  · rw [if_pos (decide_eq_true named), toOption_eq_some]
    exact (verifyAndDecode_sign sealed).mpr ⟨rfl, rfl, named⟩
  · rw [if_neg (by simpa using named)]
    cases answer : envelope.verifyAndDecode (publicOf keypair) with
    | error e => rfl
    | ok other =>
      obtain ⟨_, _, owner⟩ := (verifyAndDecode_sign sealed).mp answer
      exact absurd owner named

omit [Floats] in
/-- What is listed under another peer comes from its entry alone. -/
theorem discoveredServices_filter {info : PeerInfo} {pk : Ed25519Key}
    (other : peer ≠ manager.peerId) (entry : manager.connectedPeers.read peer = some info)
    (keyed : info.publicKey.bind tryIntoEd25519 = some pk) :
    (manager.discoveredServices service).filter (fun found => found.1 = peer) =
      ((filterVerifiedRecords info.services pk).filter fun record => record.kind = service).map
        fun record => (peer, record) := by
  have tagged (e : PeerId × PeerInfo) : ∀ found ∈ servicesOf service e, found.1 = e.1 := by
    intro found mem
    rw [servicesOf] at mem
    split at mem
    · cases mem
    · obtain ⟨record, _, rfl⟩ := List.mem_map.mp mem
      rfl
  have own : (((filterVerifiedRecords manager.ownServicesRegistry manager.publicKey).filter
      fun record => record.kind = service).map fun record => (manager.peerId, record)).filter
        (fun found => found.1 = peer) = [] := by
    rw [List.filter_eq_nil_iff]
    intro found mem
    obtain ⟨record, _, rfl⟩ := List.mem_map.mp mem
    simpa using Ne.symm other
  rw [discoveredServices, List.filter_append, own, List.append_nil,
    filter_flatMap_of_pair (Table.nodup_toPairs_keys _) tagged (Table.mem_toPairs.mpr entry),
    servicesOf, keyed]

/-- The last list of a peer stays until the next one comes or the peer is gone. -/
theorem services_kept {inputs : List NetworkInput} (keeps : ∀ input ∈ inputs, input.Keeps peer)
    {known : PeerInfo} (entry : manager.connectedPeers.read peer = some known) :
    ∃ info, (manager.run inputs).connectedPeers.read peer = some info ∧
      info.services = known.services := by
  induction inputs generalizing manager known with
  | nil => exact ⟨known, entry, rfl⟩
  | cons input inputs ih =>
    obtain ⟨opened, silent⟩ := keeps input List.mem_cons_self
    obtain ⟨next, after⟩ : ∃ next, entryAfter peer (some known) input = some next :=
      entryAfter_isSome opened
    have same : next.services = known.services := by
      rcases (entryAfter_change after).services with same | ⟨services, brought, _⟩
      · exact same
      · exact absurd brought (silent services)
    rw [← entry, ← read_step] at after
    obtain ⟨info, found, kept⟩ := ih (fun i mem => keeps i (List.mem_cons_of_mem _ mem)) after
    exact ⟨info, found, kept.trans same⟩

/-- A list that a peer sends is cut to the first `MAX_SERVICES`. -/
theorem services_stored {input : NetworkInput} {services : List SignedServiceRecord}
    (brought : input.offered = some (peer, services)) :
    ∃ info, (manager.step input).connectedPeers.read peer = some info ∧
      info.services = services.take PeerMap.maxServices := by
  rw [read_step]
  cases input with
  | command command => cases brought
  | event event =>
    cases event with
    | servicesRequest p request =>
      cases request with
      | listServices => cases brought
      | pushServices list =>
        cases brought
        exact ⟨_, if_pos rfl, rfl⟩
    | servicesResponse p list =>
      cases brought
      exact ⟨_, if_pos rfl, rfl⟩
    | _ => cases brought

end Manager

namespace Swarm

section Registry

variable [Primitives] [Floats] [Networking] {ι : Type} [DecidableEq ι] {nodes : Swarm ι}

/-- The runs of the nodes are those of their managers. -/
theorem turns_eq_run (nodes : Swarm ι) (actions : List (ι × NetworkInput)) (i : ι) :
    turns nodes actions i =
      (nodes i).run ((actions.filter fun action => action.1 = i).map Prod.snd) := by
  induction actions generalizing nodes with
  | nil => rfl
  | cons action actions ih =>
    obtain ⟨j, input⟩ := action
    show turns (turn nodes (j, input)) actions i = _
    rw [ih]
    by_cases here : j = i
    · subst here
      rw [turn_self, List.filter_cons,
        if_pos (show decide ((j, input).1 = j) = true from decide_eq_true rfl)]
      rfl
    · rw [turn_other (Ne.symm here), List.filter_cons_of_neg (by simpa using here)]

/-- The registry of a node holds the envelopes of the services that were added to it. -/
theorem registry_turns (keypairs : ι → Keypair) (actions : List (ι × NetworkInput)) (j : ι) :
    List.Forall₂ (fun record envelope =>
      SignedServiceRecord.sign (keypairs j) record = .ok envelope)
      (addedTo keypairs j actions) (turns (launch keypairs) actions j).ownServicesRegistry := by
  have one (input : NetworkInput) : List.Forall₂ (fun record envelope =>
      SignedServiceRecord.sign (keypairs j) record = .ok envelope)
      (addedBy (keypairs j) input) (registered (keypairs j) input) := by
    cases input with
    | event event => exact .nil
    | command command =>
      cases command with
      | addService service respondTo =>
        rw [addedBy, registered]
        cases made : SignedServiceRecord.sign (keypairs j) service with
        | ok signed => exact .cons made .nil
        | error e => exact .nil
      | _ => exact .nil
  induction actions using List.reverseRecOn with
  | nil => exact .nil
  | append_singleton actions action ih =>
    obtain ⟨i, input⟩ := action
    have last : turns (launch keypairs) (actions ++ [(i, input)]) =
        turn (turns (launch keypairs) actions) (i, input) := by
      rw [turns, List.foldl_append]
      rfl
    rw [last, addedTo, List.filter_append, List.flatMap_append]
    by_cases here : i = j
    · subst here
      rw [turn_self, (step_own _ input).2, keypair_turns, List.filter_cons,
        if_pos (show decide ((i, input).1 = i) = true from decide_eq_true rfl), List.filter_nil,
        List.flatMap_singleton]
      exact List.rel_append ih (one input)
    · rw [turn_other (Ne.symm here), List.filter_cons_of_neg (by simpa using here), List.filter_nil,
        List.flatMap_nil, List.append_nil]
      exact ih

variable [LawfulNetworking]

/-- A node that has got the registry of another one, as a push or as an answer, and knows its key
lists exactly the services of that node that name it, among the first `MAX_SERVICES` that were added
to it before: nothing is lost, whatever else happens, until the next list comes or the last
connection is closed. -/
theorem pushed_services_are_listed (keypairs : ι → Keypair) {i j : ι}
    (other : (launch keypairs j).peerId ≠ (launch keypairs i).peerId)
    {before after : List (ι × NetworkInput)} {input : NetworkInput}
    (brought : input.offered = some ((launch keypairs j).peerId,
      (turns (launch keypairs) before j).ownServicesRegistry))
    (keeps : ∀ later, (i, later) ∈ after → later.Keeps (launch keypairs j).peerId)
    {info : PeerInfo}
    (entry : (turns (launch keypairs) (before ++ (i, input) :: after) i).connectedPeers.read
      (launch keypairs j).peerId = some info)
    (known : info.publicKey = some (ofEd25519 (launch keypairs j).publicKey)) (service : String) :
    ((turns (launch keypairs) (before ++ (i, input) :: after) i).discoveredServices service).filter
        (fun found => found.1 = (launch keypairs j).peerId) =
      ((((addedTo keypairs j before).take PeerMap.maxServices).filter
        fun record => record.owner = (launch keypairs j).peerId).filter
        fun record => record.kind = service).map
          fun record => ((launch keypairs j).peerId, record) := by
  have split : turns (launch keypairs) (before ++ (i, input) :: after) i =
      ((turns (launch keypairs) before i).step input).run
        ((after.filter fun action => action.1 = i).map Prod.snd) := by
    rw [turns, List.foldl_append]
    show turns (turn (turns (launch keypairs) before) (i, input)) after i = _
    rw [turns_eq_run, turn_self]
  have stored : info.services =
      (turns (launch keypairs) before j).ownServicesRegistry.take PeerMap.maxServices := by
    have quiet : ∀ later ∈ (after.filter fun action => action.1 = i).map Prod.snd,
        later.Keeps (launch keypairs j).peerId := by
      intro later mem
      obtain ⟨action, listed, rfl⟩ := List.mem_map.mp mem
      obtain ⟨mem, same⟩ := List.mem_filter.mp listed
      exact keeps action.2 (of_decide_eq_true same ▸ mem)
    obtain ⟨first, found, taken⟩ :
        ∃ first, ((turns (launch keypairs) before i).step input).connectedPeers.read
          (launch keypairs j).peerId = some first ∧ first.services = _ := services_stored brought
    obtain ⟨last, found', kept⟩ := services_kept quiet found
    rw [split, found'] at entry
    cases entry
    rw [kept, taken]
  have node : (launch keypairs j).publicKey = publicOf (keypairs j) := rfl
  have self : (turns (launch keypairs) (before ++ (i, input) :: after) i).peerId =
      (launch keypairs i).peerId := by
    rw [peerId, peerId, publicKey, publicKey, keypair_turns]
  rw [discoveredServices_filter (self ▸ other) entry
    (by rw [known, Option.bind_some, LawfulNetworking.tryIntoEd25519_eq_some]), stored, node,
    filterVerifiedRecords_of_signed
      (List.forall₂_take PeerMap.maxServices (registry_turns keypairs before j))]
  rfl

end Registry

end Swarm

open Sample in
/-- The second node lists the service that the first one has pushed before it identified itself. -/
theorem pushed_services_are_listed_sample :
    ((Swarm.turns (Swarm.launch keypairOf) ([(false, .command (.addService syncService 0))] ++
      (true, .event (.servicesRequest (1 : UInt64) (.pushServices [syncEnvelope]))) ::
        [(true, .event (.identifyReceived (1 : UInt64) [] (7 : UInt64) (1 : UInt64)))])
      true).discoveredServices "grpc-sync").filter
        (fun found => found.1 = (Swarm.launch keypairOf false).peerId) =
      [((Swarm.launch keypairOf false).peerId, syncService)] := by
  have other : (Swarm.launch keypairOf false).peerId ≠ (Swarm.launch keypairOf true).peerId := by
    decide
  refine (Swarm.pushed_services_are_listed keypairOf other rfl ?_ rfl rfl "grpc-sync").trans rfl
  intro later mem
  cases List.mem_singleton.mp mem
  constructor
  · intro closed
    obtain ⟨endpoint, same⟩ := closed
    cases same
  · intro services same
    cases same

end StryiChain
