import StryiChain.Misc.Table
import StryiChain.Net.Services

/-!
# What a node knows of its peers (`stryi_network/src/peer.rs`)

The times `established_at` and `last_seen` are written and never read, and are left out.
-/

namespace StryiChain

open Networking

variable [Networking]

/-- `PeerInfo` (`peer.rs:10-30`). -/
structure PeerInfo where
  addresses : List Multiaddr
  services : List SignedServiceRecord
  publicKey : Option PublicKey
  consecutivePingFailures : Nat

namespace PeerInfo

/-- `new_now` (`peer.rs:34-43`). -/
def newNow (remote : Option Multiaddr) : PeerInfo := ⟨remote.toList, [], none, 0⟩

/-- `add_address` (`peer.rs:51-55`). -/
def addAddress (info : PeerInfo) (addr : Multiaddr) : PeerInfo :=
  if addr ∈ info.addresses then info else { info with addresses := info.addresses ++ [addr] }

/-- `merge_addresses` (`peer.rs:58-62`). -/
def mergeAddresses (info : PeerInfo) (addrs : List Multiaddr) : PeerInfo :=
  addrs.foldl addAddress info

/-- `set_signed_services` (`peer.rs:65-68`). -/
def setSignedServices (info : PeerInfo) (signed : List SignedServiceRecord) : PeerInfo :=
  { info with services := signed }

/-- `ping_ok` (`peer.rs:71-74`). -/
def pingOk (info : PeerInfo) : PeerInfo := { info with consecutivePingFailures := 0 }

/-- `ping_fail` (`peer.rs:77-80`). The counter is a `usize`, which `2 ^ 64` failures in a row would
overflow. -/
def pingFail (info : PeerInfo) : PeerInfo :=
  { info with consecutivePingFailures := info.consecutivePingFailures + 1 }

/-- The part of `upsert_identify` that stores the key exactly once (`peer.rs:134-143`). -/
def storeKey (info : PeerInfo) (publicKey : PublicKey) : PeerInfo :=
  { info with publicKey := info.publicKey <|> some publicKey }

end PeerInfo

/-- `PeerMap` (`peer.rs:6`). -/
abbrev PeerMap := Table PeerId PeerInfo

namespace PeerMap

/-- The map with another entry at a peer. -/
def modify (peers : PeerMap) (peer : PeerId) (f : Option PeerInfo → PeerInfo) : PeerMap :=
  AList.insert peer (f (peers.read peer)) peers

/-- `entry(peer).or_insert_with(|| PeerInfo::new_now(None))`, after which the entry is changed. -/
def modifyEntry (peers : PeerMap) (peer : PeerId) (f : PeerInfo → PeerInfo) : PeerMap :=
  peers.modify peer fun known => f (known.getD (PeerInfo.newNow none))

/-- `upsert_connected` (`peer.rs:110-117`). -/
def upsertConnected (peers : PeerMap) (peer : PeerId) (remote : Multiaddr) : PeerMap :=
  peers.modify peer fun known =>
    match known with
    | some info => info.addAddress remote
    | none => PeerInfo.newNow (some remote)

/-- `upsert_identify` (`peer.rs:119-146`). -/
def upsertIdentify (peers : PeerMap) (peer : PeerId) (listenAddrs : List Multiaddr)
    (observed : Option Multiaddr) (publicKey : PublicKey) : PeerMap :=
  peers.modifyEntry peer fun info =>
    ((info.mergeAddresses listenAddrs).mergeAddresses observed.toList).storeKey publicKey

/-- `MAX_SERVICES` (`peer.rs:149`). -/
def maxServices : Nat := 32

/-- `set_signed_services` (`peer.rs:148-154`). -/
def setSignedServices (peers : PeerMap) (peer : PeerId) (signed : List SignedServiceRecord) :
    PeerMap :=
  peers.modifyEntry peer fun info => info.setSignedServices (signed.take maxServices)

/-- `ping_success` (`peer.rs:156-160`), which answers zero. -/
def pingSuccess (peers : PeerMap) (peer : PeerId) : PeerMap := peers.modifyEntry peer PeerInfo.pingOk

/-- `ping_failure` (`peer.rs:162-165`): the map and the number of failures in a row. -/
def pingFailure (peers : PeerMap) (peer : PeerId) : PeerMap × Nat :=
  (peers.modifyEntry peer PeerInfo.pingFail,
    ((peers.read peer).getD (PeerInfo.newNow none)).pingFail.consecutivePingFailures)

end PeerMap

section Reads

variable {peers : PeerMap} {peer p : PeerId}

theorem PeerMap.read_modify (f : Option PeerInfo → PeerInfo) :
    (peers.modify peer f).read p = if p = peer then some (f (peers.read p)) else peers.read p := by
  rw [PeerMap.modify, Table.read_insert, Function.update_apply]
  by_cases same : p = peer
  · rw [if_pos same, if_pos same, same]
  · rw [if_neg same, if_neg same]

theorem PeerMap.read_modifyEntry (f : PeerInfo → PeerInfo) :
    (peers.modifyEntry peer f).read p =
      if p = peer then some (f ((peers.read p).getD (PeerInfo.newNow none))) else peers.read p :=
  PeerMap.read_modify _

/-- A new address only comes behind the known ones. -/
theorem PeerInfo.addAddress_eq (info : PeerInfo) (addr : Multiaddr) :
    ∃ more, info.addAddress addr = { info with addresses := info.addresses ++ more } := by
  rw [PeerInfo.addAddress]
  by_cases known : addr ∈ info.addresses
  · rw [if_pos known]
    exact ⟨[], by rw [List.append_nil]⟩
  · rw [if_neg known]
    exact ⟨[addr], rfl⟩

theorem PeerInfo.mergeAddresses_eq (info : PeerInfo) (addrs : List Multiaddr) :
    ∃ more, info.mergeAddresses addrs = { info with addresses := info.addresses ++ more } := by
  induction addrs generalizing info with
  | nil => exact ⟨[], by rw [List.append_nil]; rfl⟩
  | cons addr addrs ih =>
    obtain ⟨first, added⟩ := info.addAddress_eq addr
    obtain ⟨more, merged⟩ := ih (info.addAddress addr)
    refine ⟨first ++ more, ?_⟩
    show (info.addAddress addr).mergeAddresses addrs = _
    rw [merged, added, List.append_assoc]

/-- What `upsert_identify` makes of an entry: more addresses, and a key where there was none. -/
theorem PeerInfo.identify_eq (info : PeerInfo) (listenAddrs observed : List Multiaddr)
    (publicKey : PublicKey) :
    ∃ more, ((info.mergeAddresses listenAddrs).mergeAddresses observed).storeKey publicKey =
      { info with
        addresses := info.addresses ++ more
        publicKey := info.publicKey <|> some publicKey } := by
  obtain ⟨first, listened⟩ := info.mergeAddresses_eq listenAddrs
  obtain ⟨more, merged⟩ := (info.mergeAddresses listenAddrs).mergeAddresses_eq observed
  refine ⟨first ++ more, ?_⟩
  rw [merged, listened, PeerInfo.storeKey, List.append_assoc]

end Reads

end StryiChain
