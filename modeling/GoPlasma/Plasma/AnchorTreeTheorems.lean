import GoPlasma.Plasma.CommitTheorems
import GoPlasma.Smt.MemoryTheorems

/-!
# Anchors in the tree of a block

`Commit` inserts the whole encoding of an anchor block into the tree of anchors, where the other
trees get a hash. The tree in memory has the encoding, and the root in the header is made of it. A
node chunk has room for 32 bytes of a value, so that a tree that is opened at the root never gives
the encoding back (`anchor_not_provable`). An encoding of 32 bytes or less has an anchor without a
block hash, and does not decode.
-/

namespace GoPlasma.Plasma

variable {C : Crypto} {F : Faults} {sort : SortSlice} {order : CommitOrder} {o : Objects}
  {st st' : TreeStorage}

/-! ## The loop over the anchors -/

/-- An insertion into a tree in memory. -/
theorem inMemory_insert {cs : Disk} {k : Smt.Key} {v : Bytes} {t t' : Smt.Node} {m : Smt.Contents}
    (h : Smt.InMemory C.keccak t m) (hi : TreeStorage.insert cs k v t = .ok t') :
    Smt.InMemory C.keccak t' (Function.update m k (some (Smt.updateEntry v 0 0 (m k)))) := by
  have hexec : (Smt.Call.insert k v 0 0).exec C.keccak cs.nodes t = .ok (t', cs.nodes) := by
    rw [Smt.Call.exec,
      show Smt.SparseMerkleTree.insert cs.nodes.getChunk k v 0 0 t = .ok t' from hi]
    rfl
  exact h.exec (.insert k v 0 0) hexec

/-- The rounds of the loop: nothing, or an insertion of the sorted anchor block. -/
theorem updateAnchor_cases {chainID : UInt64} (h : st.updateAnchor C F sort o chainID = .ok st') :
    (o.atxList.lookup chainID = none ∧ st' = st) ∨
      ∃ a b cs t, o.atxList.lookup chainID = some a ∧ a.sort (sort.1 a.anchors) = .ok b ∧
        TreeStorage.insert cs (idKey chainID) b.bytes st.anchorStorage = .ok t ∧
        st' = { st with chunkStore := cs, anchorStorage := t } := by
  unfold TreeStorage.updateAnchor at h
  rcases ha : o.atxList.lookup chainID with _ | a
  · rw [ha] at h
    exact Or.inl ⟨rfl, (Except.ok.inj h).symm⟩
  · rw [ha] at h
    simp only [bind_eq_ok] at h
    obtain ⟨b, hb, t, ht, h⟩ := h
    exact Or.inr ⟨a, b, _, t, rfl, hb, ht, (Except.ok.inj h).symm⟩

variable (sort o) in
/-- The contents have the encodings of the sorted anchor blocks of these chains. -/
def HasAnchors (l : List UInt64) (m : Smt.Contents) : Prop :=
  ∀ chainID ∈ l, ∀ a, o.atxList.lookup chainID = some a →
    ∃ b, a.sort (sort.1 a.anchors) = .ok b ∧
      (m (idKey chainID)).map Smt.Entry.value = some b.bytes

/-- After the loop, the tree has the encodings of all anchor blocks that were visited. -/
theorem updateAnchors_contents {l : List UInt64} (hl : l.Nodup) {m : Smt.Contents}
    (hm : Smt.InMemory C.keccak st.anchorStorage m)
    (h : l.foldlM (fun st chainID => st.updateAnchor C F sort o chainID) st = .ok st') :
    ∃ m', Smt.InMemory C.keccak st'.anchorStorage m' ∧ HasAnchors sort o l m' ∧
      ∀ key, (∀ chainID ∈ l, idKey chainID ≠ key) → m' key = m key := by
  induction l generalizing st m with
  | nil =>
    obtain rfl := Except.ok.inj h
    exact ⟨m, hm, fun _ hk => (by cases hk), fun _ _ => rfl⟩
  | cons chainID l ih =>
    obtain ⟨hnot, hnodup⟩ := List.nodup_cons.mp hl
    rw [List.foldlM_cons, bind_eq_ok] at h
    obtain ⟨st₁, hfirst, h⟩ := h
    rcases updateAnchor_cases hfirst with ⟨hnone, rfl⟩ | ⟨a, b, cs, t, ha, hb, ht, rfl⟩
    · obtain ⟨m', hm', hhas, hkeep⟩ := ih hnodup hm h
      refine ⟨m', hm', ?_, fun key hkey => hkeep key fun k hk => hkey k (List.mem_cons_of_mem _ hk)⟩
      intro k hk a ha
      rcases List.mem_cons.mp hk with rfl | hk
      · rw [hnone] at ha
        cases ha
      · exact hhas k hk a ha
    · obtain ⟨m', hm', hhas, hkeep⟩ := ih hnodup (inMemory_insert hm ht) h
      refine ⟨m', hm', ?_, ?_⟩
      · intro k hk a' ha'
        rcases List.mem_cons.mp hk with rfl | hk
        · -- the later rounds are about other chains
          obtain rfl := Option.some.inj (ha.symm.trans ha')
          refine ⟨b, hb, ?_⟩
          have hother : ∀ k' ∈ l, idKey k' ≠ idKey k := by
            intro k' hk' heq
            rw [idKey_inj heq] at hk'
            exact hnot hk'
          rw [hkeep _ hother, Function.update_self, Option.map_some, Smt.updateEntry_value]
        · exact hhas k hk a' ha'
      · intro key hkey
        rw [hkeep key fun k hk => hkey k (List.mem_cons_of_mem _ hk),
          Function.update_of_ne (Ne.symm (hkey chainID List.mem_cons_self))]

/-! ## The other loops -/

variable (C) in
/-- What it takes to store one object: a chunk at most, and the tree of anchors is as it was. -/
structure StoresOne (st st' : TreeStorage) : Prop where
  anchorStorage : st'.anchorStorage = st.anchorStorage
  chunkStore : st'.chunkStore = st.chunkStore ∨ ∃ chunk, st'.chunkStore = st.chunkStore.put C chunk

theorem StoresOne.refl (st : TreeStorage) : StoresOne C st st := ⟨rfl, Or.inl rfl⟩

theorem updateTokenObject_storesOne {tokenID : UInt64}
    (h : st.updateTokenObject C F o tokenID = .ok st') : StoresOne C st st' := by
  unfold TreeStorage.updateTokenObject at h
  split at h
  · rw [← Except.ok.inj h]
    exact .refl st
  · rename_i s _
    rcases Disk.setChunk_cases C F s.token.encode st.chunkStore with ⟨e, -, hset⟩ | ⟨-, hset⟩
    · simp only [hset] at h
      rw [← Except.ok.inj h]
      exact .refl st
    · simp only [hset, bind_eq_ok] at h
      obtain ⟨t, -, x, -, h⟩ := h
      rw [← Except.ok.inj h]
      exact ⟨rfl, Or.inr ⟨_, rfl⟩⟩

theorem updateAccountObject_storesOne {addr : Address}
    (h : st.updateAccountObject C F o addr = .ok st') : StoresOne C st st' := by
  unfold TreeStorage.updateAccountObject at h
  split at h
  · rw [← Except.ok.inj h]
    exact .refl st
  · cases h
  · rename_i a _
    rcases Disk.setChunk_cases C F (TreeStorage.encodedAccount a) st.chunkStore with
      ⟨e, -, hset⟩ | ⟨-, hset⟩
    · simp only [hset] at h
      rw [← Except.ok.inj h]
      exact .refl st
    · simp only [hset, bind_eq_ok] at h
      obtain ⟨t, -, h⟩ := h
      rw [← Except.ok.inj h]
      exact ⟨rfl, Or.inr ⟨_, rfl⟩⟩

theorem updateChainObject_storesOne {chainID : UInt64}
    (h : st.updateChainObject C F o chainID = .ok st') : StoresOne C st st' := by
  unfold TreeStorage.updateChainObject at h
  split at h
  · rw [← Except.ok.inj h]
    exact .refl st
  · rename_i c _
    rcases Disk.setChunk_cases C F c.bytes st.chunkStore with ⟨e, -, hset⟩ | ⟨-, hset⟩
    · simp only [hset] at h
      rw [← Except.ok.inj h]
      exact .refl st
    · simp only [hset, bind_eq_ok] at h
      obtain ⟨t, -, h⟩ := h
      rw [← Except.ok.inj h]
      exact ⟨rfl, Or.inr ⟨_, rfl⟩⟩

/-- A loop over objects. -/
theorem foldlM_anchorStorage {α : Type} {f : TreeStorage → α → Go TreeStorage} {l : List α}
    (hf : ∀ {st st' : TreeStorage} {a}, f st a = .ok st' → StoresOne C st st')
    (h : l.foldlM f st = .ok st') : st'.anchorStorage = st.anchorStorage :=
  foldlM_invariant (P := fun s => s.anchorStorage = st.anchorStorage)
    (fun _ _ _ hs hstep => (hf hstep).anchorStorage.trans hs) rfl h

theorem storeBloom_anchorStorage {tokens : List UInt64} {bloomID : Hash}
    (h : st.storeBloom C F tokens = .ok (bloomID, st')) : st'.anchorStorage = st.anchorStorage := by
  unfold TreeStorage.storeBloom at h
  split_ifs at h
  · rw [← (Prod.mk.inj (Except.ok.inj h)).2]
  · split at h
    · cases h
    · rw [← (Prod.mk.inj (Except.ok.inj h)).2]

/-- `Commit` up to the flush: the tree of anchors has the encodings of all anchor blocks. -/
theorem commitObjects_contents (hv : Visits order.anchors o.atxList) {m : Smt.Contents}
    (hm : Smt.InMemory C.keccak st.anchorStorage m)
    (h : commitObjects C F sort order o st = .ok st') :
    ∃ m', Smt.InMemory C.keccak st'.anchorStorage m' ∧ HasAnchors sort o order.anchors m' := by
  simp only [commitObjects, bind_eq_ok] at h
  obtain ⟨st₁, h₁, st₂, h₂, h⟩ := h
  have hst₁ := foldlM_anchorStorage updateAccountObject_storesOne h₁
  have hst₂ := foldlM_anchorStorage updateChainObject_storesOne h₂
  rw [← hst₁, ← hst₂] at hm
  obtain ⟨m', hm', hhas, -⟩ := updateAnchors_contents hv.1 hm h
  exact ⟨m', hm', hhas⟩

/-- The flush of the tree of anchors. -/
theorem flush_anchorStorage (h : st.flush C F = .ok st') : ∃ cs writes,
    Smt.SparseMerkleTree.flush C.keccak cs st.anchorStorage = .ok (st'.anchorStorage, writes) := by
  simp only [TreeStorage.flush, Disk.flush, bind_eq_ok] at h
  obtain ⟨x₁, -, x₂, -, x₃, -, ⟨t, cs⟩, ⟨⟨t', writes⟩, hf, ht⟩, x₅, -, h⟩ := h
  obtain ⟨rfl, -⟩ := Prod.mk.inj (Except.ok.inj ht)
  obtain rfl := Except.ok.inj h
  exact ⟨_, writes, hf⟩

/-! ## What the header proves -/

/-- The anchor block of a chain is provable from the header: the tree that is opened at the root of
the anchors returns the value that was inserted, with a proof that checks against the root, and the
value decodes to the anchor block. -/
def AnchorProvable (C : Crypto) (nodes : Smt.Reader) (hd : Header) (chainID : UInt64)
    (b : AnchorBlock) : Prop :=
  ∃ v p, getHash C nodes hd .anchor chainID = .ok (.ok (v, p)) ∧ v = b.bytes ∧
    p.check C.keccak v hd.anchorRoot.1 = .ok true ∧ AnchorBlock.decode v = some b

/-- What `getHash` returns has 32 bytes. -/
theorem getHash_length {nodes : Smt.Reader} {hd : Header} {treeType : TreeType} {index : UInt64}
    {v : Bytes} {p : Smt.Proof} (h : getHash C nodes hd treeType index = .ok (.ok (v, p))) :
    v.length = 32 := by
  simp only [getHash, bind_eq_ok] at h
  obtain ⟨⟨res, t⟩, hget, h⟩ := h
  have hres := Except.ok.inj h
  rcases hp : res.p with _ | p'
  · simp only [hp, reduceCtorEq] at hres
  · simp only [hp] at hres
    split_ifs at hres with hfound
    obtain ⟨rfl, -⟩ := Prod.mk.inj (Except.ok.inj hres)
    exact Smt.openedGet_length hget hfound

/-- An anchor block with a block hash has more than 32 bytes. -/
theorem AnchorBlock.length_bytes {b : AnchorBlock} {tx : AnchorTransaction} {h : Hash}
    (htx : tx ∈ b.anchors) (hh : tx.blockHash = some h) : 32 < b.bytes.length := by
  have h₁ := Rlp.length_le_encode_str h.1
  have h₂ : (Rlp.encode (.str h.1)).length < (Rlp.encode tx.item).length := by
    apply Rlp.length_encode_lt_of_mem
    simp [AnchorTransaction.fields, hh]
  have h₃ : (Rlp.encode tx.item).length
      < (Rlp.encode (.list (b.anchors.map AnchorTransaction.item))).length :=
    Rlp.length_encode_lt_of_mem (List.mem_map_of_mem htx)
  have h₄ : (Rlp.encode (.list (b.anchors.map AnchorTransaction.item))).length
      < b.bytes.length := Rlp.length_encode_lt_of_mem (by simp)
  rw [h.2] at h₁
  omega

theorem AnchorBlock.sort_anchors {a b : AnchorBlock} {l : List AnchorTransaction}
    (h : a.sort l = .ok b) : b.anchors = l ∧ l ≠ [] := by
  unfold AnchorBlock.sort at h
  split at h
  · rename_i first last hfirst hlast
    rw [← Except.ok.inj h]
    refine ⟨rfl, ?_⟩
    rintro rfl
    cases hfirst
  · cases h

/-- No anchor block is provable, from any header and with any store: its encoding does not fit into
a node chunk, or does not decode. -/
theorem not_anchorProvable {a b : AnchorBlock} {l : List AnchorTransaction} (hb : a.sort l = .ok b)
    (nodes : Smt.Reader) (hd : Header) (chainID : UInt64) :
    ¬ AnchorProvable C nodes hd chainID b := by
  rintro ⟨v, p, hget, rfl, -, hdec⟩
  have h32 := getHash_length hget
  obtain ⟨hl, hne⟩ := AnchorBlock.sort_anchors hb
  obtain ⟨tx, htx⟩ := List.exists_mem_of_ne_nil l hne
  rw [← hl] at htx
  have hhash := (AnchorBlock.decode_bytes (by rw [h32]; norm_num)).mp hdec tx htx
  obtain ⟨h, hh⟩ := Option.isSome_iff_exists.mp hhash
  have := AnchorBlock.length_bytes htx hh
  omega

/-- `Commit` puts the encoding of every anchor block into the tree of anchors, and the root in the
header is that of a tree with the encoding; but no anchor block is provable from the header,
whatever the chunk store answers. -/
theorem anchor_not_provable {time : UInt64} {n : ℕ} {parentHash : Hash} {hd : Header}
    {m : Smt.Contents} (hm : Smt.InMemory C.keccak st.anchorStorage m) (hv : order.Valid o)
    (h : commitTrees C F sort order time n parentHash o st = .ok (.ok hd, st'))
    {chainID : UInt64} {a : AnchorBlock} (ha : o.atxList.lookup chainID = some a) :
    ∃ (b : AnchorBlock) (m' : Smt.Contents), a.sort (sort.1 a.anchors) = .ok b ∧
      (m' (idKey chainID)).map Smt.Entry.value = some b.bytes ∧
      hd.anchorRoot.1 = m'.root C.keccak ∧
      ∀ nodes, ¬ AnchorProvable C nodes hd chainID b := by
  obtain ⟨st₁, bloomID, st₂, st₃, h₁, h₂, h₃, h₄, rfl⟩ := commitTrees_ok h
  have hst₁ := foldlM_anchorStorage updateTokenObject_storesOne h₁
  rw [← hst₁, ← storeBloom_anchorStorage h₂] at hm
  obtain ⟨m', hm', hhas⟩ := commitObjects_contents hv.2 hm h₃
  have hmem : chainID ∈ order.anchors := by
    rw [← List.mem_toFinset, hv.2.2, Finmap.mem_keys]
    exact Finmap.mem_of_lookup_eq_some ha
  obtain ⟨b, hb, hvalue⟩ := hhas chainID hmem a ha
  obtain ⟨cs, writes, hflush⟩ := flush_anchorStorage h₄
  refine ⟨b, m', hb, hvalue, ?_, fun nodes => not_anchorProvable hb nodes _ chainID⟩
  change (Smt.SparseMerkleTree.merkleRoot st'.anchorStorage).1 = m'.root C.keccak
  rw [Smt.SparseMerkleTree.merkleRoot, (hm'.flush hflush).2]
  exact bytesToHash_of_length (Smt.length_hashPair _ _)

/-! ### One anchor -/

/-- The small hash, with no signatures. -/
def treeCrypto : Crypto where
  keccak := Smt.toyKeccak
  ecrecover _ _ := .error "no signature"
  operatorAddr := zeroAddress
  operatorSign _ := .error "no key"

/-- A stable sort. -/
def insertionSortSlice : SortSlice :=
  ⟨fun l => l.insertionSort fun a b => a.blockNumber ≤ b.blockNumber, fun l => by
    have : Std.Total fun a b : AnchorTransaction => a.blockNumber ≤ b.blockNumber :=
      ⟨fun a b => UInt64.le_total a.blockNumber b.blockNumber⟩
    have : IsTrans AnchorTransaction fun a b => a.blockNumber ≤ b.blockNumber :=
      ⟨fun a b c => UInt64.le_trans⟩
    refine ⟨List.perm_insertionSort _ l, (List.pairwise_insertionSort _ l).imp ?_⟩
    exact fun {a b} hab => UInt64.not_lt.mpr hab⟩

/-- A commit that can be evaluated. -/
theorem exists_commitTrees (C : Crypto) (F : Faults) (sort : SortSlice) (order : CommitOrder)
    (o : Objects) (st : TreeStorage) (P : Header → TreeStorage → Bool)
    (h : (match commitTrees C F sort order 0 1 zeroHash o st with
      | .ok (.ok hd, st') => P hd st'
      | _ => false) = true) :
    ∃ hd st', commitTrees C F sort order 0 1 zeroHash o st = .ok (.ok hd, st')
      ∧ P hd st' = true := by
  rcases hc : commitTrees C F sort order 0 1 zeroHash o st with e | ⟨e | hd, st'⟩
  · rw [hc] at h
    cases h
  · rw [hc] at h
    cases h
  · rw [hc] at h
    exact ⟨hd, st', rfl, h⟩

/-- The anchor of block 0 of chain 1. -/
def firstAnchor : AnchorTransaction := ⟨1, 0, some zeroHash, ⟨[], []⟩, emptySlice⟩

/-- A state database with this anchor. -/
def oneAnchor : Objects :=
  ⟨∅, ∅, ∅, ∅, ∅, ∅, Finmap.singleton 1 (newAnchorBlock firstAnchor)⟩

def oneAnchorOrder : CommitOrder := ⟨⟨[], [], []⟩, [1]⟩

theorem oneAnchorOrder_valid : oneAnchorOrder.Valid oneAnchor := by
  unfold CommitOrder.Valid
  decide

theorem anchor_not_provable_one : ∃ hd st',
    commitTrees treeCrypto noFaults insertionSortSlice oneAnchorOrder 0 1 zeroHash oneAnchor
      (newStorage ⟨[], []⟩) = .ok (.ok hd, st') ∧
    ∃ (b : AnchorBlock) (m' : Smt.Contents),
      (newAnchorBlock firstAnchor).sort (insertionSortSlice.1 [firstAnchor]) = .ok b ∧
      (m' (idKey 1)).map Smt.Entry.value = some b.bytes ∧
      hd.anchorRoot.1 = m'.root treeCrypto.keccak ∧
      ∀ nodes, ¬ AnchorProvable treeCrypto nodes hd 1 b := by
  obtain ⟨hd, st', hrun, -⟩ := exists_commitTrees treeCrypto noFaults insertionSortSlice
    oneAnchorOrder oneAnchor (newStorage ⟨[], []⟩) (fun _ _ => true) (by decide +kernel)
  exact ⟨hd, st', hrun, anchor_not_provable Smt.inMemory_new oneAnchorOrder_valid hrun
    (Finmap.lookup_singleton_eq)⟩

/-- The tree that is opened at the root in the header returns 32 of the 45 bytes. -/
theorem anchor_truncated : ∃ hd st' v p,
    commitTrees treeCrypto noFaults insertionSortSlice oneAnchorOrder 0 1 zeroHash oneAnchor
      (newStorage ⟨[], []⟩) = .ok (.ok hd, st') ∧
    getHash treeCrypto st'.chunkStore.nodes.getChunk hd .anchor 1 = .ok (.ok (v, p)) ∧
    v = (newAnchorBlock firstAnchor).bytes.take 32 ∧
    (newAnchorBlock firstAnchor).bytes.length = 45 ∧
    p.check treeCrypto.keccak v hd.anchorRoot.1 = .ok false := by
  obtain ⟨hd, st', hrun, hP⟩ := exists_commitTrees treeCrypto noFaults insertionSortSlice
    oneAnchorOrder oneAnchor (newStorage ⟨[], []⟩)
    (fun hd st' => (returned (getHash treeCrypto st'.chunkStore.nodes.getChunk hd .anchor 1)).any
      fun x : Bytes × Smt.Proof => decide (x.1 = (newAnchorBlock firstAnchor).bytes.take 32) &&
        decide (x.2.check treeCrypto.keccak x.1 hd.anchorRoot.1 = .ok false)) (by decide +kernel)
  obtain ⟨⟨v, p⟩, hget, hv⟩ := (Option.any_eq_true _ _).mp hP
  rw [Bool.and_eq_true, decide_eq_true_eq, decide_eq_true_eq] at hv
  exact ⟨hd, st', v, p, hrun, returned_eq_some.mp hget, hv.1, by decide, hv.2⟩

end GoPlasma.Plasma
