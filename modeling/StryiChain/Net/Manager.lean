import StryiChain.Mempool.Snapshot
import StryiChain.Net.Peers
import StryiChain.Node.EventLoop
import StryiChain.Storage.Encoding

/-!
# The network manager (`stryi_network/src/manager.rs`, `event.rs`)

The run loop takes one command of the node or one event of libp2p at a time. What libp2p decides on
its own comes with the input: the request id of a mempool fetch, the peer that the random choice
picks and the answer of `gossipsub.publish`. A `oneshot` sender is a number, and what the loop hands
out is a list of effects.
-/

namespace StryiChain

open Networking

section Model

variable [Primitives] [Floats] [Networking]

/-- A `oneshot` sender. -/
abbrev Responder := Nat

/-- `OutboundRequestId` of the mempool protocol. -/
abbrev OutboundRequestId := Nat

/-- `BLOCKS_TOPIC_NAME` (`manager.rs:64`). -/
def blocksTopicName : String := "stryichain-blocks"

/-- `TRANSACTIONS_TOPIC_NAME` (`manager.rs:65`). -/
def transactionsTopicName : String := "stryichain-txs"

/-- `TIPS_TOPIC_NAME` (`manager.rs:66`). -/
def tipsTopicName : String := "stryichain-tips"

/-- `BroadcastBlock` as `postcard` writes it. -/
def broadcastBlockCodec : Codec (BroadcastBlock PeerId) :=
  (blockCodec.pair peerIdCodec).imap (fun block => (block.block, block.originPeerId))
    (fun fields => some ⟨fields.1, fields.2⟩) fun _ => rfl

/-- The fields of a `ChainTipAnnouncement` as `postcard` writes them. -/
def chainTipCodec : Codec ((UInt64 × BlockHash) × BitVec 512) :=
  (Codec.u64.pair (hashCodec .block)).pair chainWorkCodec

/-- The fields of an announcement. -/
def ChainTipAnnouncement.fields (announcement : ChainTipAnnouncement) :
    (UInt64 × BlockHash) × BitVec 512 :=
  ((announcement.height, announcement.tipHash), BitVec.ofNat 512 announcement.chainWork)

/-- The announcement with these fields. -/
def ChainTipAnnouncement.ofFields (fields : (UInt64 × BlockHash) × BitVec 512) :
    ChainTipAnnouncement := ⟨fields.1.1, fields.1.2, fields.2.toNat⟩

/-- `ConnectedPoint`. -/
inductive ConnectedPoint where
  | dialer (address : Multiaddr)
  | listener (sendBackAddr : Multiaddr)

/-- `remote_addr_from_endpoint` (`event.rs:21-26`). -/
def remoteAddrFromEndpoint : ConnectedPoint → Multiaddr
  | .dialer address => address
  | .listener sendBackAddr => sendBackAddr

/-- `last_known_peer_addr` (`event.rs:28-30`). -/
def lastKnownPeerAddr (peer : PeerInfo) : Option Multiaddr := peer.addresses.head?

/-- `disconnect_addr_from_endpoint` (`event.rs:32-42`). -/
def disconnectAddrFromEndpoint (endpoint : ConnectedPoint) (peer : Option PeerInfo) :
    Option Multiaddr :=
  if remoteAddrFromEndpoint endpoint ≠ emptyMultiaddr then
    some (remoteAddrFromEndpoint endpoint)
  else
    peer.bind lastKnownPeerAddr

/-- `NetworkEvent` (`lib.rs:124-141`). -/
inductive NetworkEvent where
  | newBlock (block : BroadcastBlock PeerId)
  | newTransaction (transaction : Transaction)
  | peerConnected (address : Multiaddr)
  | peerDisconnected (address : Multiaddr)
  | chainTipAnnounced (announcement : ChainTipAnnouncement) (source : PeerId)

/-- What the loop hands out: answers to the commands, messages for libp2p and events for the
node. -/
inductive Effect where
  | answerServices (respondTo : Responder) (services : List (PeerId × ServiceRecord))
  | answerPublicKey (respondTo : Responder) (publicKey : Option PublicKey)
  | answerResult (respondTo : Responder) (result : Except StryiNetworkError Unit)
  | answerMempool (respondTo : Responder) (result : Except StryiNetworkError MemPoolSyncData)
  | answerRefreshed (respondTo : Responder)
  | publish (topic : String) (data : List UInt8)
  | requestServices (peer : PeerId) (request : ServicesInfoRequest)
  | requestMempool (requestId : OutboundRequestId) (peer : PeerId)
  | respondServices (peer : PeerId) (services : List SignedServiceRecord)
  | respondMempool (peer : PeerId) (syncData : MemPoolSyncData)
  | disconnect (peer : PeerId)
  | notify (event : NetworkEvent)

/-- `NetworkCommand` (`lib.rs:69-121`). -/
inductive ManagerCommand where
  | queryPeersWithService (service : String) (respondTo : Responder)
  | addService (service : ServiceRecord) (respondTo : Responder)
  | queryPeerPublicKey (peer : PeerId) (respondTo : Responder)
  | publishBlock (block : BroadcastBlock PeerId) (published : Except PublishError Unit)
      (respondTo : Responder)
  | publishTransaction (transaction : Transaction) (published : Except PublishError Unit)
      (respondTo : Responder)
  | publishChainTip (announcement : ChainTipAnnouncement) (published : Except PublishError Unit)
      (respondTo : Responder)
  | fetchMempoolState (pick : Nat) (requestId : OutboundRequestId) (respondTo : Responder)
  | refreshPeerServices (peer : PeerId) (respondTo : Responder)

/-- `SwarmEvent`, as far as the manager does anything with it. -/
inductive SwarmEvent where
  | connectionEstablished (peer : PeerId) (endpoint : ConnectedPoint) (numEstablished : Nat)
  | connectionClosed (peer : PeerId) (endpoint : ConnectedPoint) (numEstablished : Nat)
  | mempoolRequest (peer : PeerId) (mempool : MemPool) (now : UInt64)
  | mempoolResponse (requestId : OutboundRequestId) (syncData : MemPoolSyncData)
  | mempoolOutboundFailure (requestId : OutboundRequestId) (error : String)
  | servicesRequest (peer : PeerId) (request : ServicesInfoRequest)
  | servicesResponse (peer : PeerId) (services : List SignedServiceRecord)
  | gossip (propagationSource : PeerId) (source : Option PeerId) (topic : String)
      (data : List UInt8)
  | ping (peer : PeerId) (answered : Bool)
  | identifyReceived (peer : PeerId) (listenAddrs : List Multiaddr) (observedAddr : Multiaddr)
      (publicKey : PublicKey)
  | unhandled

/-- One turn of the run loop. -/
inductive NetworkInput where
  | command (command : ManagerCommand)
  | event (event : SwarmEvent)

/-- `MAX_PING_FAILURES` (`event.rs:19`). -/
def maxPingFailures : Nat := 10

/-- `StryiNetworkManager` (`manager.rs:33-61`) with the fetches that are pending in its loop. -/
structure StryiNetworkManager where
  keypair : Keypair
  ownServicesRegistry : List SignedServiceRecord
  connectedPeers : PeerMap
  pendingMempoolFetches : Table OutboundRequestId Responder

namespace StryiNetworkManager

/-- `new` (`manager.rs:71-158`). -/
def new (keypair : Keypair) : StryiNetworkManager := ⟨keypair, [], ∅, ∅⟩

/-- The ed25519 key of the manager. -/
def publicKey (manager : StryiNetworkManager) : Ed25519Key := publicOf manager.keypair

/-- `peer_id` (`manager.rs:161-163`). -/
def peerId (manager : StryiNetworkManager) : PeerId := fromPublicKey (ofEd25519 manager.publicKey)

/-- The records of a kind that the manager has for a peer (`manager.rs:271-284`). -/
def servicesOf (service : String) (entry : PeerId × PeerInfo) : List (PeerId × ServiceRecord) :=
  match entry.2.publicKey.bind tryIntoEd25519 with
  | none => []
  | some pk =>
      ((filterVerifiedRecords entry.2.services pk).filter fun record => record.kind = service).map
        fun record => (entry.1, record)

/-- What `QueryPeersWithService` answers (`manager.rs:264-295`). -/
def discoveredServices (manager : StryiNetworkManager) (service : String) :
    List (PeerId × ServiceRecord) :=
  manager.connectedPeers.toPairs.flatMap (servicesOf service) ++
    ((filterVerifiedRecords manager.ownServicesRegistry manager.publicKey).filter
      fun record => record.kind = service).map fun record => (manager.peerId, record)

/-- `push_services_to_peers` (`manager.rs:546-562`). -/
def pushServicesToPeers (peers : List PeerId) (services : List SignedServiceRecord) : List Effect :=
  peers.map fun peer => .requestServices peer (.pushServices services)

/-- The answer to a block or a transaction: nobody to publish to is no error while nobody is
connected (`manager.rs:364-385`, `:397-418`). -/
def publishResult (manager : StryiNetworkManager) (published : Except PublishError Unit) :
    Except StryiNetworkError Unit :=
  match published with
  | .ok () => .ok ()
  | .error .noPeersSubscribedToTopic =>
      if manager.connectedPeers.keys.length = 0 then .ok ()
      else .error (.gossipsubPublish .noPeersSubscribedToTopic)
  | .error error => .error (.gossipsubPublish error)

/-- The turn of the loop for a command (`manager.rs:258-526`). -/
def processCommand (manager : StryiNetworkManager) :
    ManagerCommand → StryiNetworkManager × List Effect
  | .queryPeersWithService service respondTo =>
      (manager, [.answerServices respondTo (manager.discoveredServices service)])
  | .addService service respondTo =>
      match SignedServiceRecord.sign manager.keypair service with
      | .ok signedService =>
          let ownServices := manager.ownServicesRegistry ++ [signedService]
          ({ manager with ownServicesRegistry := ownServices },
            pushServicesToPeers manager.connectedPeers.keys ownServices ++
              [.answerResult respondTo (.ok ())])
      | .error e => (manager, [.answerResult respondTo (.error e)])
  | .queryPeerPublicKey peer respondTo =>
      (manager, [.answerPublicKey respondTo ((manager.connectedPeers.read peer).bind
        PeerInfo.publicKey)])
  | .publishBlock block published respondTo =>
      (manager, [.publish blocksTopicName (broadcastBlockCodec.encode block),
        .answerResult respondTo (manager.publishResult published)])
  | .publishTransaction transaction published respondTo =>
      (manager, [.publish transactionsTopicName (transactionCodec.encode transaction),
        .answerResult respondTo (manager.publishResult published)])
  | .publishChainTip announcement published respondTo =>
      (manager, [.publish tipsTopicName (chainTipCodec.encode announcement.fields),
        .answerResult respondTo (published.mapError StryiNetworkError.gossipsubPublish)])
  | .fetchMempoolState pick requestId respondTo =>
      let peers := manager.connectedPeers.keys
      match peers[pick % peers.length]? with
      | some peer =>
          let pending := AList.insert requestId respondTo manager.pendingMempoolFetches
          ({ manager with pendingMempoolFetches := pending }, [.requestMempool requestId peer])
      | none =>
          (manager, [.answerMempool respondTo
            (.error (.other "No connected peers available for mempool sync"))])
  | .refreshPeerServices peer respondTo =>
      if peer ∈ manager.connectedPeers then
        (manager, [.requestServices peer .listServices, .answerRefreshed respondTo])
      else
        (manager, [.answerRefreshed respondTo])

/-- `handle_gossipsub_event` (`event.rs:352-421`): what is told to the node of a message. -/
def handleGossipsubEvent (propagationSource : PeerId) (source : Option PeerId) (topic : String)
    (data : List UInt8) : Option NetworkEvent :=
  if topic = transactionsTopicName then
    (transactionCodec.fromBytes data).map .newTransaction
  else if topic = blocksTopicName then
    (broadcastBlockCodec.fromBytes data).map .newBlock
  else if topic = tipsTopicName then
    (chainTipCodec.fromBytes data).map fun fields =>
      .chainTipAnnounced (.ofFields fields) (source.getD propagationSource)
  else
    none

/-- `handle_services_info_request` (`event.rs:423-486`). -/
def handleServicesInfoRequest (manager : StryiNetworkManager) (peer : PeerId) :
    ServicesInfoRequest → StryiNetworkManager × List Effect
  | .listServices => (manager, [.respondServices peer manager.ownServicesRegistry])
  | .pushServices services =>
      ({ manager with connectedPeers := manager.connectedPeers.setSignedServices peer services },
        [.respondServices peer manager.ownServicesRegistry])

/-- An answer to a pending fetch, which is pending no more (`event.rs:133-158`). -/
def resolveFetch (manager : StryiNetworkManager) (requestId : OutboundRequestId)
    (result : Except StryiNetworkError MemPoolSyncData) : StryiNetworkManager × List Effect :=
  match manager.pendingMempoolFetches.read requestId with
  | some sender =>
      let pending := AList.erase requestId manager.pendingMempoolFetches
      ({ manager with pendingMempoolFetches := pending }, [.answerMempool sender result])
  | none => (manager, [])

/-- `process_event` (`event.rs:46-349`). -/
def processEvent (manager : StryiNetworkManager) : SwarmEvent → StryiNetworkManager × List Effect
  | .connectionEstablished peer endpoint numEstablished =>
      let remote := remoteAddrFromEndpoint endpoint
      ({ manager with connectedPeers := manager.connectedPeers.upsertConnected peer remote },
        if numEstablished = 1 then [.notify (.peerConnected remote)] else [])
  | .connectionClosed peer endpoint numEstablished =>
      if numEstablished = 0 then
        ({ manager with connectedPeers := AList.erase peer manager.connectedPeers },
          ((disconnectAddrFromEndpoint endpoint (manager.connectedPeers.read peer)).map
            fun addr => Effect.notify (.peerDisconnected addr)).toList)
      else
        (manager, [])
  | .mempoolRequest peer mempool now =>
      (manager, [.respondMempool peer (mempool.getSyncState now)])
  | .mempoolResponse requestId syncData => manager.resolveFetch requestId (.ok syncData)
  | .mempoolOutboundFailure requestId error =>
      manager.resolveFetch requestId (.error (.other s!"Mempool fetch failed: {error}"))
  | .servicesRequest peer request => manager.handleServicesInfoRequest peer request
  | .servicesResponse peer services =>
      ({ manager with connectedPeers := manager.connectedPeers.setSignedServices peer services },
        [])
  | .gossip propagationSource source topic data =>
      (manager, ((handleGossipsubEvent propagationSource source topic data).map
        Effect.notify).toList)
  | .ping peer true =>
      ({ manager with connectedPeers := manager.connectedPeers.pingSuccess peer }, [])
  | .ping peer false =>
      let (peers, failures) := manager.connectedPeers.pingFailure peer
      ({ manager with connectedPeers := peers },
        if failures ≥ maxPingFailures then [.disconnect peer] else [])
  | .identifyReceived peer listenAddrs observedAddr publicKey =>
      ({ manager with connectedPeers :=
          manager.connectedPeers.upsertIdentify peer listenAddrs (some observedAddr) publicKey },
        [.requestServices peer .listServices])
  | .unhandled => (manager, [])

/-- One turn of `run_loop` (`manager.rs:246-541`). -/
def handle (manager : StryiNetworkManager) : NetworkInput → StryiNetworkManager × List Effect
  | .command command => manager.processCommand command
  | .event event => manager.processEvent event

/-- The manager after a turn. -/
def step (manager : StryiNetworkManager) (input : NetworkInput) : StryiNetworkManager :=
  (manager.handle input).1

/-- The manager after a run of its loop. -/
def run (manager : StryiNetworkManager) (inputs : List NetworkInput) : StryiNetworkManager :=
  inputs.foldl step manager

/-- What the loop hands out during a run. -/
def effects (manager : StryiNetworkManager) : List NetworkInput → List Effect
  | [] => []
  | input :: inputs => (manager.handle input).2 ++ (manager.step input).effects inputs

end StryiNetworkManager

end Model

end StryiChain
