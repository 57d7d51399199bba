import GoPlasma.Deep.Snapshot
import GoPlasma.Lib.Orders

/-!
# Identical snapshots

The comment in `removePeer` asks that snapshots are identical on all nodes. The addresses are: two
nodes with the same members build one list, and it is sorted. The removed IDs are not: they come in
the order in which each node iterates over its own map. `snapshots_identical_iff`: the bytes are the
same for every order exactly if one ID was removed at most, provided that the node knows all members
and that the encoding has less than 4 GiB.
-/

namespace GoPlasma.Deep

open Plasma (Slice decodeByteArray decodeByteSlice decodeListSlice decodeByteArray_str
  decodeByteSlice_str decodeListSlice_map str_of_decodeByteArray str_of_decodeByteSlice
  list_of_decodeListSlice)

/-! ## Encodings -/

theorem decodeUint16_uint (x : UInt16) : decodeUint16 (Rlp.uint x.toNat) = some x := by
  have hlen : Rlp.byteLength x.toNat ≤ 2 := Rlp.byteLength_le_of_lt x.toNat_lt
  rw [Rlp.uint, decodeUint16, if_neg, Rlp.ofBE_minBE, UInt16.ofNat_toNat]
  rintro (h | h)
  · rw [Rlp.length_minBE] at h
    omega
  · exact Rlp.head_minBE _ h

theorem uint_of_decodeUint16 {x : Rlp.Item} {v : UInt16} (h : decodeUint16 x = some v) :
    x = Rlp.uint v.toNat := by
  rcases x with b | l
  · rw [decodeUint16] at h
    split_ifs at h with hbad
    obtain ⟨hlen, hhead⟩ := not_or.mp hbad
    obtain rfl := Option.some.inj h
    have hlt : Bytes.ofBE b < 2 ^ 16 :=
      calc Bytes.ofBE b < 256 ^ b.length := Bytes.ofBE_lt b
        _ ≤ 256 ^ 2 := Nat.pow_le_pow_right (by norm_num) (by omega)
        _ = 2 ^ 16 := by norm_num
    rw [Rlp.uint, UInt16.toNat_ofNat', Nat.mod_eq_of_lt hlt, Rlp.minBE_ofBE hhead]
  · cases h

theorem Address.ofItem_item (addr : Address) : Address.ofItem addr.item = some addr := by
  simp only [Address.item, Address.ofItem, decodeUint16_uint, decodeByteArray_str,
    decodeByteSlice_str, Option.bind_eq_bind, Option.bind_some]

theorem Address.item_of_ofItem {x : Rlp.Item} {addr : Address} (h : Address.ofItem x = some addr) :
    x = addr.item := by
  unfold Address.ofItem at h
  split at h
  · simp only [Option.bind_eq_bind, Option.bind_eq_some_iff] at h
    obtain ⟨raftId, h₁, nodeId, h₂, ip, h₃, p2pPort, h₄, raftPort, h₅, heq⟩ := h
    obtain rfl := Option.some.inj heq
    rw [Address.item, uint_of_decodeUint16 h₁, str_of_decodeByteArray h₂,
      str_of_decodeByteSlice h₃, uint_of_decodeUint16 h₄, uint_of_decodeUint16 h₅]
  · cases h

theorem Snapshot.ofItem_item (s : Snapshot) : Snapshot.ofItem s.item = some s := by
  have haddresses := decodeListSlice_map (l := s.addresses) fun a _ => a.ofItem_item
  have hremoved := decodeListSlice_map (l := s.removedRaftIds) fun id _ => decodeUint16_uint id
  simp only [Snapshot.item, Snapshot.ofItem, haddresses, hremoved, decodeByteArray_str,
    Option.bind_eq_bind, Option.bind_some]

theorem Snapshot.item_of_ofItem {x : Rlp.Item} {s : Snapshot} (h : Snapshot.ofItem x = some s) :
    x = s.item := by
  unfold Snapshot.ofItem at h
  split at h
  · simp only [Option.bind_eq_bind, Option.bind_eq_some_iff] at h
    obtain ⟨addresses, h₁, removed, h₂, hash, h₃, heq⟩ := h
    obtain rfl := Option.some.inj heq
    rw [Snapshot.item, list_of_decodeListSlice (fun _ _ h => Address.item_of_ofItem h) h₁,
      list_of_decodeListSlice (fun _ _ h => uint_of_decodeUint16 h) h₂, str_of_decodeByteArray h₃]
  · cases h

/-- The size of the encoding. -/
def Snapshot.size (s : Snapshot) : ℕ := (Rlp.encode s.item).length

theorem Snapshot.toBytes_eq {s : Snapshot} (h : s.size < 2 ^ 32) :
    s.toBytes = Rlp.encode s.item := by
  have hmod : (Rlp.encode s.item).length % 2 ^ 32 = (Rlp.encode s.item).length :=
    Nat.mod_eq_of_lt h
  rw [Snapshot.toBytes, hmod, List.take_length]

theorem bytesToSnapshot_toBytes {s : Snapshot} (h : s.size < 2 ^ 32) :
    bytesToSnapshot s.toBytes = some s := by
  have hlen : (Rlp.encode s.item).length < 2 ^ 64 := lt_trans h (by norm_num)
  rw [s.toBytes_eq h, bytesToSnapshot, Rlp.decodeBytes_encode hlen]
  exact s.ofItem_item

/-- Nothing but the encoding of a snapshot is read as it. -/
theorem encode_of_bytesToSnapshot {b : Bytes} {s : Snapshot} (h : bytesToSnapshot b = some s) :
    b = Rlp.encode s.item := by
  rw [bytesToSnapshot, Option.bind_eq_bind, Option.bind_eq_some_iff] at h
  obtain ⟨x, hx, hs⟩ := h
  rw [Rlp.encode_of_decodeBytes hx, Snapshot.item_of_ofItem hs]

/-- The size does not depend on the orders. -/
theorem Snapshot.size_perm {s s' : Snapshot} (ha : s.addresses.Perm s'.addresses)
    (hr : s.removedRaftIds.Perm s'.removedRaftIds) (hh : s.headBlockHash = s'.headBlockHash) :
    s.size = s'.size := by
  have haddresses := Rlp.length_encode_list_perm (ha.map Address.item)
  have hremoved := Rlp.length_encode_list_perm (hr.map fun id => Rlp.uint id.toNat)
  apply Rlp.length_encode_list
  rw [Rlp.length_encodeAll, Rlp.length_encodeAll, hh]
  simp only [List.map_cons, List.map_nil, haddresses, hremoved]

/-! ## Building a snapshot -/

namespace ProtocolManager

variable {pm pm' : ProtocolManager} {S : Sorting} {removed : List UInt16}

/-- The node has an address for every member. -/
def KnowsMembers (pm : ProtocolManager) : Prop :=
  ∀ raw ∈ pm.confState, (pm.addressOf raw.toUInt16).isSome

instance decidableKnowsMembers (pm : ProtocolManager) : Decidable pm.KnowsMembers :=
  List.decidableBAll (fun raw : UInt64 => (pm.addressOf raw.toUInt16).isSome) pm.confState

/-- The addresses of the members, in the order of the `ConfState`. -/
def members (pm : ProtocolManager) : List Address :=
  pm.confState.filterMap fun raw => pm.addressOf raw.toUInt16

theorem memberAddress_eq_ok {raw : UInt64} {addr : Address} :
    pm.memberAddress raw = .ok addr ↔ pm.addressOf raw.toUInt16 = some addr := by
  rw [memberAddress]
  cases pm.addressOf raw.toUInt16 with
  | none => simp
  | some a => simp

theorem mapM_memberAddress {l : List UInt64}
    (h : ∀ raw ∈ l, (pm.addressOf raw.toUInt16).isSome) :
    l.mapM pm.memberAddress = .ok (l.filterMap fun raw => pm.addressOf raw.toUInt16) := by
  induction l with
  | nil => rfl
  | cons raw l ih =>
    obtain ⟨addr, haddr⟩ := Option.isSome_iff_exists.mp (h raw List.mem_cons_self)
    rw [List.mapM_cons, memberAddress_eq_ok.mpr haddr,
      ih fun r hr => h r (List.mem_cons_of_mem _ hr), List.filterMap_cons, haddr]
    rfl

theorem isSome_of_mapM {l : List UInt64} {addresses : List Address}
    (h : l.mapM pm.memberAddress = .ok addresses) :
    ∀ raw ∈ l, (pm.addressOf raw.toUInt16).isSome := by
  induction l generalizing addresses with
  | nil => simp
  | cons raw l ih =>
    rw [List.mapM_cons, bind_eq_ok] at h
    obtain ⟨addr, haddr, h⟩ := h
    obtain ⟨rest, hrest, -⟩ := bind_eq_ok.mp h
    rw [memberAddress_eq_ok] at haddr
    rw [List.forall_mem_cons, haddr]
    exact ⟨rfl, ih hrest⟩

/-- `buildSnapshot` returns exactly if the node knows all members. -/
theorem buildSnapshot_eq_ok {s : Snapshot} :
    pm.buildSnapshot S removed = .ok s ↔
      pm.KnowsMembers ∧ s = ⟨S.sort pm.members, removed, pm.headBlockHash⟩ := by
  rw [buildSnapshot, bind_eq_ok]
  constructor
  · rintro ⟨addresses, haddresses, h⟩
    have hknows := isSome_of_mapM haddresses
    rw [mapM_memberAddress hknows] at haddresses
    rw [← Except.ok.inj haddresses] at h
    exact ⟨hknows, (Except.ok.inj h).symm⟩
  · rintro ⟨hknows, rfl⟩
    exact ⟨_, mapM_memberAddress hknows, rfl⟩

/-! ## Two nodes -/

/-- The nodes have the same members with the same addresses, have removed the same peers and are at
the same block. -/
structure SameMembers (pm pm' : ProtocolManager) : Prop where
  confState : pm.confState = pm'.confState
  addressOf : ∀ raw ∈ pm.confState, pm.addressOf raw.toUInt16 = pm'.addressOf raw.toUInt16
  removedPeers : pm.removedPeers = pm'.removedPeers
  headBlockHash : pm.headBlockHash = pm'.headBlockHash

theorem SameMembers.members (h : SameMembers pm pm') : pm.members = pm'.members := by
  rw [ProtocolManager.members, ProtocolManager.members, ← h.confState]
  exact List.filterMap_congr h.addressOf

theorem SameMembers.knows (h : SameMembers pm pm') (hk : pm.KnowsMembers) : pm'.KnowsMembers := by
  intro raw hraw
  rw [← h.confState] at hraw
  rw [← h.addressOf raw hraw]
  exact hk raw hraw

/-- Whatever the orders of the removed IDs are, both nodes build snapshots with the same bytes, and
these are read back as the addresses of the members, sorted by raft ID, the removed IDs and the hash
of the head block. -/
def Identical (S : Sorting) (pm pm' : ProtocolManager) : Prop :=
  ∀ removed removed', Orders pm.removedPeers removed → Orders pm'.removedPeers removed' →
    ∃ s s' read, pm.buildSnapshot S removed = .ok s ∧ pm'.buildSnapshot S removed' = .ok s' ∧
      s.toBytes = s'.toBytes ∧ bytesToSnapshot s.toBytes = some read ∧
      (read.addresses.map some).Perm (pm.confState.map fun raw => pm.addressOf raw.toUInt16) ∧
      read.addresses.Pairwise (fun a b => a.raftId ≤ b.raftId) ∧
      Orders pm.removedPeers read.removedRaftIds ∧ read.headBlockHash = pm.headBlockHash

/-- The size of the encoding of the node's snapshots; it is the same for every order. -/
def snapshotSize (pm : ProtocolManager) : ℕ :=
  Snapshot.size ⟨pm.members, pm.removedPeers.sort (· ≤ ·), pm.headBlockHash⟩

theorem size_eq_snapshotSize {s : Snapshot} (ha : s.addresses.Perm pm.members)
    (hr : Orders pm.removedPeers s.removedRaftIds) (hh : s.headBlockHash = pm.headBlockHash) :
    s.size = pm.snapshotSize :=
  Snapshot.size_perm ha (hr.perm ⟨Finset.sort_nodup _ _, Finset.sort_toFinset _ _⟩) hh

theorem map_some_members (h : pm.KnowsMembers) :
    pm.members.map some = pm.confState.map fun raw => pm.addressOf raw.toUInt16 := by
  have hall : ∀ l : List UInt64, (∀ raw ∈ l, (pm.addressOf raw.toUInt16).isSome) →
      (l.filterMap fun raw => pm.addressOf raw.toUInt16).map some
        = l.map fun raw => pm.addressOf raw.toUInt16 := by
    intro l hl
    induction l with
    | nil => rfl
    | cons raw l ih =>
      obtain ⟨addr, haddr⟩ := Option.isSome_iff_exists.mp (hl raw List.mem_cons_self)
      rw [List.filterMap_cons, haddr, List.map_cons, List.map_cons, haddr,
        ih fun r hr => hl r (List.mem_cons_of_mem _ hr)]
  exact hall pm.confState h

/-- The encoding of a number of 16 bits. -/
theorem length_encode_uint16_le (x : UInt16) : (Rlp.encode (Rlp.uint x.toNat)).length ≤ 11 := by
  have hlen : Rlp.byteLength x.toNat ≤ 2 := Rlp.byteLength_le_of_lt x.toNat_lt
  have hstr := Rlp.length_encode_str_le (b := Rlp.minBE x.toNat)
    (by rw [Rlp.length_minBE]; omega)
  rw [Rlp.length_minBE] at hstr
  exact hstr.trans (by omega)

theorem length_encode_address_le {addr : Address} (hip : addr.ip.1.length ≤ 16) :
    (Rlp.encode addr.item).length ≤ 140 := by
  have hraftId := length_encode_uint16_le addr.raftId
  have hp2pPort := length_encode_uint16_le addr.p2pPort
  have hraftPort := length_encode_uint16_le addr.raftPort
  have hnodeId := Rlp.length_encode_fixed_le addr.nodeId.2 (by norm_num)
  have hip' := Rlp.length_encode_str_le (b := addr.ip.1) (by omega)
  have hall := Rlp.length_encode_list_le (l := [Rlp.uint addr.raftId.toNat, .str addr.nodeId.1,
    .str addr.ip.1, Rlp.uint addr.p2pPort.toNat, Rlp.uint addr.raftPort.toNat])
  simp only [List.map_cons, List.map_nil, List.sum_cons, List.sum_nil] at hall
  have := hall (by omega)
  rw [Address.item]
  omega

theorem card_le_uint16 (ids : Finset UInt16) : ids.card ≤ 2 ^ 16 := by
  have hle := Finset.card_le_card_of_injOn (s := ids) (t := Finset.range (2 ^ 16)) UInt16.toNat
    (fun x _ => by simpa using x.toNat_lt) (fun x _ y _ h => UInt16.toNat_inj.mp h)
  rwa [Finset.card_range] at hle

/-- With the members and addresses that a cluster can have, the size is far below 4 GiB. -/
theorem snapshotSize_lt (hn : pm.confState.length ≤ 2 ^ 16)
    (hip : ∀ addr ∈ pm.members, addr.ip.1.length ≤ 16) : pm.snapshotSize < 2 ^ 32 := by
  have haddresses := Rlp.length_encode_list_le_mul (l := pm.members.map Address.item) (n := 140)
    (k := 2 ^ 16) ?_ ?_ (by norm_num)
  have hremoved := Rlp.length_encode_list_le_mul
    (l := (pm.removedPeers.sort (· ≤ ·)).map fun id => Rlp.uint id.toNat) (n := 11) (k := 2 ^ 16)
    ?_ ?_ (by norm_num)
  · have hhash := Rlp.length_encode_fixed_le pm.headBlockHash.2 (by norm_num)
    have hall := Rlp.length_encode_list_le (l := [.list (pm.members.map Address.item),
      .list ((pm.removedPeers.sort (· ≤ ·)).map fun id => Rlp.uint id.toNat),
      .str pm.headBlockHash.1])
    simp only [List.map_cons, List.map_nil, List.sum_cons, List.sum_nil] at hall
    exact lt_of_le_of_lt (hall (by omega)) (by omega)
  · intro x hx
    obtain ⟨id, -, rfl⟩ := List.mem_map.mp hx
    exact length_encode_uint16_le id
  · rw [List.length_map, Finset.length_sort]
    exact card_le_uint16 _
  · intro x hx
    obtain ⟨addr, haddr, rfl⟩ := List.mem_map.mp hx
    exact length_encode_address_le (hip addr haddr)
  · rw [List.length_map]
    exact (List.length_filterMap_le _ _).trans hn

/-- What a node reads back from the bytes of its snapshot tells their number, so none were cut
off. -/
theorem snapshotSize_lt_of_read {s read : Snapshot} (hs : s.size = pm.snapshotSize)
    (hread : bytesToSnapshot s.toBytes = some read) (hsize : read.size = pm.snapshotSize) :
    pm.snapshotSize < 2 ^ 32 := by
  have hlen := congrArg List.length (encode_of_bytesToSnapshot hread)
  rw [Snapshot.toBytes, List.length_take] at hlen
  change min (s.size % 2 ^ 32) s.size = read.size at hlen
  rw [hs, hsize] at hlen
  have := Nat.mod_lt pm.snapshotSize (by norm_num : 0 < 2 ^ 32)
  omega

/-- Snapshots are identical, and give back what they were made of, exactly if one ID was removed at
most. -/
theorem snapshots_identical_iff {S : Sorting} {pm pm' : ProtocolManager} (h : SameMembers pm pm') :
    Identical S pm pm' ↔
      pm.KnowsMembers ∧ pm.removedPeers.card ≤ 1 ∧ pm.snapshotSize < 2 ^ 32 := by
  constructor
  · intro hid
    obtain ⟨l, hl⟩ := Orders.exists_orders pm.removedPeers
    have hl' : Orders pm'.removedPeers l := h.removedPeers ▸ hl
    obtain ⟨s, s', read, hs, hs', heq, hread, haddresses, -, hremoved, hhash⟩ :=
      hid l.reverse l hl.reverse hl'
    obtain ⟨hknows, rfl⟩ := buildSnapshot_eq_ok.mp hs
    obtain ⟨-, rfl⟩ := buildSnapshot_eq_ok.mp hs'
    rw [← map_some_members hknows] at haddresses
    have hmembers : read.addresses.Perm pm.members :=
      (List.map_perm_map_iff (Option.some_injective _)).mp haddresses
    have hsize : Snapshot.size ⟨S.sort pm.members, l.reverse, pm.headBlockHash⟩ = pm.snapshotSize :=
      size_eq_snapshotSize (S.perm _) hl.reverse rfl
    have hlt := snapshotSize_lt_of_read hsize hread (size_eq_snapshotSize hmembers hremoved hhash)
    refine ⟨hknows, ?_, hlt⟩
    -- both snapshots can be read back from the same bytes, so the two orders are the same
    have hsize' : Snapshot.size ⟨S.sort pm'.members, l, pm'.headBlockHash⟩ = pm.snapshotSize := by
      rw [← h.members, ← h.headBlockHash]
      exact size_eq_snapshotSize (S.perm _) hl rfl
    have hfirst := bytesToSnapshot_toBytes (hsize ▸ hlt)
    have hsecond := bytesToSnapshot_toBytes (hsize' ▸ hlt)
    rw [heq, hsecond] at hfirst
    exact hl.card_le_of_reverse (congrArg Snapshot.removedRaftIds (Option.some.inj hfirst)).symm
  · rintro ⟨hknows, hcard, hlt⟩ removed removed' hr hr'
    obtain rfl : removed = removed' := hr.eq_of_card_le (h.removedPeers ▸ hr') hcard
    have hsize : Snapshot.size ⟨S.sort pm.members, removed, pm.headBlockHash⟩ = pm.snapshotSize :=
      size_eq_snapshotSize (S.perm _) hr rfl
    refine ⟨_, _, _, buildSnapshot_eq_ok.mpr ⟨hknows, rfl⟩,
      buildSnapshot_eq_ok.mpr ⟨h.knows hknows, rfl⟩, ?_, bytesToSnapshot_toBytes (hsize ▸ hlt), ?_,
      S.sorted _, hr, rfl⟩
    · rw [h.members, h.headBlockHash]
    · rw [← map_some_members hknows]
      exact (S.perm _).map some

end ProtocolManager

/-! ### A cluster of two nodes -/

/-- A stable sort. -/
def byRaftId : Sorting where
  sort := List.insertionSort fun a b => a.raftId ≤ b.raftId
  perm := List.perm_insertionSort _
  sorted l := by
    have htotal : Std.Total fun a b : Address => a.raftId ≤ b.raftId :=
      ⟨fun a b => UInt16.le_total a.raftId b.raftId⟩
    have htrans : IsTrans Address fun a b => a.raftId ≤ b.raftId :=
      ⟨fun _ _ _ hab hbc => UInt16.le_trans hab hbc⟩
    exact List.pairwise_insertionSort _ l

/-- The address of a member. -/
def memberAt (raftId : UInt16) : Address :=
  ⟨raftId, ⟨Bytes.zeros 64, Bytes.length_zeros 64⟩, Plasma.emptySlice, 30303, 50400⟩

/-- A node of a cluster with the members 2 and 1, from which some have been removed. -/
def memberNode (raftId : UInt16) (removed : Finset UInt16) : ProtocolManager where
  raftId := raftId
  address := some (memberAt raftId)
  peers id := if id = 1 ∨ id = 2 then some (memberAt id) else none
  removedPeers := removed
  confState := [2, 1]
  headBlockHash := zeroHash

theorem sameMembers_memberNode (removed : Finset UInt16) :
    ProtocolManager.SameMembers (memberNode 1 removed) (memberNode 2 removed) where
  confState := rfl
  addressOf := by
    intro raw hraw
    obtain rfl | rfl : raw = 2 ∨ raw = 1 := by simpa [memberNode] using hraw
    · rfl
    · rfl
  removedPeers := rfl
  headBlockHash := rfl

theorem snapshots_identical_iff_one :
    ProtocolManager.Identical byRaftId (memberNode 1 {3}) (memberNode 2 {3}) := by
  have hsize : (memberNode 1 {3}).snapshotSize < 2 ^ 32 :=
    ProtocolManager.snapshotSize_lt (by decide) (by decide)
  exact (ProtocolManager.snapshots_identical_iff (sameMembers_memberNode {3})).mpr
    ⟨by decide, by decide, hsize⟩

/-- Two nodes that have removed the peers 3 and 4, and list them in different orders. -/
theorem snapshots_not_identical :
    ProtocolManager.SameMembers (memberNode 1 {3, 4}) (memberNode 2 {3, 4}) ∧
    Orders {3, 4} [(3 : UInt16), 4] ∧ Orders {3, 4} [(4 : UInt16), 3] ∧
    ∃ s s', (memberNode 1 {3, 4}).buildSnapshot byRaftId [3, 4] = .ok s ∧
      (memberNode 2 {3, 4}).buildSnapshot byRaftId [4, 3] = .ok s' ∧ s.toBytes ≠ s'.toBytes :=
  ⟨sameMembers_memberNode {3, 4}, ⟨by decide, by decide⟩, ⟨by decide, by decide⟩, _, _, rfl, rfl,
    by decide +kernel⟩

end GoPlasma.Deep
