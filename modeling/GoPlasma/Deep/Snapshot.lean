import GoPlasma.Plasma.Records

/-!
# Raft snapshots (`deep/snapshot.go`, `deep/peer.go`)

What a node writes into a raft snapshot: the addresses of the members of the cluster, the raft IDs
of the peers that were removed for good, and the hash of its head block. A node knows its own
address, and those of the others from its map of peers.

The removed IDs are in a Go map, and a snapshot has them in the order in which `List` happens to
return them. Log messages and locks are left out; every method holds the lock while it reads.
-/

namespace GoPlasma.Deep

open Plasma (Slice decodeByteArray decodeByteSlice decodeListSlice)

/-! ## Records -/

/-- `Address` -/
structure Address where
  raftId : UInt16
  nodeId : {b : Bytes // b.length = 64}
  ip : Slice
  p2pPort : UInt16
  raftPort : UInt16
deriving DecidableEq

/-- `Snapshot` -/
structure Snapshot where
  addresses : List Address
  removedRaftIds : List UInt16
  headBlockHash : Hash
deriving DecidableEq

/-- Decode into a `uint16`. -/
def decodeUint16 : Rlp.Item → Option UInt16
  | .str b =>
    if 2 < b.length ∨ b.head? = some 0 then none else some (UInt16.ofNat (Bytes.ofBE b))
  | .list _ => none

/-- `EncodeRLP` of an address. -/
def Address.item (addr : Address) : Rlp.Item :=
  .list [Rlp.uint addr.raftId.toNat, .str addr.nodeId.1, .str addr.ip.1,
    Rlp.uint addr.p2pPort.toNat, Rlp.uint addr.raftPort.toNat]

/-- `DecodeRLP` of an address. -/
def Address.ofItem : Rlp.Item → Option Address
  | .list [raftId, nodeId, ip, p2pPort, raftPort] => do
      let raftId ← decodeUint16 raftId
      let nodeId ← decodeByteArray 64 nodeId
      let ip ← decodeByteSlice ip
      let p2pPort ← decodeUint16 p2pPort
      let raftPort ← decodeUint16 raftPort
      some ⟨raftId, nodeId, ip, p2pPort, raftPort⟩
  | _ => none

/-- `EncodeRLP` of a snapshot. -/
def Snapshot.item (snapshot : Snapshot) : Rlp.Item :=
  .list [.list (snapshot.addresses.map Address.item),
    .list (snapshot.removedRaftIds.map fun id => Rlp.uint id.toNat), .str snapshot.headBlockHash.1]

/-- `DecodeRLP` of a snapshot. -/
def Snapshot.ofItem : Rlp.Item → Option Snapshot
  | .list [addresses, removedRaftIds, headBlockHash] => do
      let addresses ← decodeListSlice Address.ofItem addresses
      let removedRaftIds ← decodeListSlice decodeUint16 removedRaftIds
      let headBlockHash ← decodeByteArray 32 headBlockHash
      some ⟨addresses, removedRaftIds, headBlockHash⟩
  | _ => none

/-- `toBytes`: the buffer has `uint32(size)` bytes. -/
def Snapshot.toBytes (snapshot : Snapshot) : Bytes :=
  (Rlp.encode snapshot.item).take ((Rlp.encode snapshot.item).length % 2 ^ 32)

/-- `bytesToSnapshot`; `none` is the end of the process. -/
def bytesToSnapshot (bytes : Bytes) : Option Snapshot := Rlp.decodeBytes bytes >>= Snapshot.ofItem

/-! ## Nodes -/

/-- What `buildSnapshot` reads of a `ProtocolManager` and its chain. -/
structure ProtocolManager where
  raftId : UInt16
  address : Option Address
  peers : UInt16 → Option Address
  removedPeers : Finset UInt16
  confState : List UInt64
  headBlockHash : Hash

/-- `sort.Sort` of addresses by raft ID. -/
structure Sorting where
  sort : List Address → List Address
  perm : ∀ l, (sort l).Perm l
  sorted : ∀ l, (sort l).Pairwise fun a b => a.raftId ≤ b.raftId

namespace ProtocolManager

/-- The pointer to the address of a member: the node's own, or that of a peer. -/
def addressOf (pm : ProtocolManager) (raftId : UInt16) : Option Address :=
  if raftId = pm.raftId then pm.address else pm.peers raftId

/-- The address in the snapshot for an entry of the `ConfState`. -/
def memberAddress (pm : ProtocolManager) (rawRaftId : UInt64) : Go Address :=
  (pm.addressOf rawRaftId.toUInt16).elim (.error .nilDereference) .ok

/-- `buildSnapshot`, where `List` has returned the removed IDs in this order. -/
def buildSnapshot (S : Sorting) (removed : List UInt16) (pm : ProtocolManager) : Go Snapshot := do
  let addresses ← pm.confState.mapM pm.memberAddress
  .ok ⟨S.sort addresses, removed, pm.headBlockHash⟩

end ProtocolManager

end GoPlasma.Deep
