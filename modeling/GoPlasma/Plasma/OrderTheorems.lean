import GoPlasma.Plasma.AnchorTreeTheorems
import GoPlasma.Plasma.ReceiptTheorems

/-!
# `Commit` and the order of the maps

`Commit` ranges over four maps, in orders that the language leaves open. The insertions of one order
are a permutation of those of the other (`inserts_perm`), insertions of different keys commute, and
so do the bits of the bloom filter (`newBloom_perm`). What `Commit` returns is then the same
(`commit_order_independent`), if no two accounts share their key in the tree, which is only the
last eight bytes of an address, and no token is deleted: `Delete` does not load the nodes that it
passes, and finds other nodes loaded in another order.
-/

namespace GoPlasma.Plasma

variable {C : Crypto} {F : Faults} {sort : SortSlice} {order order₁ order₂ : CommitOrder}
  {o : Objects} {st : TreeStorage}

/-! ## The bloom filter -/

theorem setBloomBit_comm (b : Bytes) (n m : ℕ) :
    setBloomBit (setBloomBit b n) m = setBloomBit (setBloomBit b m) n := by
  unfold setBloomBit
  by_cases hbyte : n / 8 = m / 8
  · rw [hbyte, List.modify_modify_eq, List.modify_modify_eq]
    congr 1
    funext x
    rw [Function.comp_apply, Function.comp_apply, UInt8.or_assoc, UInt8.or_assoc,
      UInt8.or_comm (1 <<< UInt8.ofNat (n % 8))]
  · exact List.modify_modify_ne _ _ _ hbyte

theorem newBloom_perm {l l' : List UInt64} (h : l.Perm l') : newBloom l = newBloom l' := by
  unfold newBloom
  rw [← List.foldl_flatMap, ← List.foldl_flatMap]
  exact (h.flatMap_right bloomBits).foldl_eq' (fun x _ y _ b => setBloomBit_comm b x y) _

/-! ## The insertions -/

theorem Visits.perm {κ α : Type} [DecidableEq κ] {l l' : List κ} {m : GoMap κ α}
    (h : Visits l m) (h' : Visits l' m) : l.Perm l' :=
  List.perm_of_nodup_nodup_toFinset_eq h.1 h'.1 (h.2.trans h'.2.symm)

variable (C F sort) in
theorem inserts_perm (h₁ : order₁.Valid o) (h₂ : order₂.Valid o) (ty : TreeType) :
    (inserts C F sort o order₁ ty).Perm (inserts C F sort o order₂ ty) := by
  obtain ⟨⟨htok₁, hacc₁, hch₁⟩, hanch₁⟩ := h₁
  obtain ⟨⟨htok₂, hacc₂, hch₂⟩, hanch₂⟩ := h₂
  apply List.Perm.map
  cases ty with
  | account => exact (hacc₁.perm hacc₂).filterMap _
  | token => exact (htok₁.perm htok₂).filterMap _
  | anchor => exact (hanch₁.perm hanch₂).filterMap _
  | chain => exact (hch₁.perm hch₂).filterMap _
  | transaction => exact (htok₁.perm htok₂).filterMap _

/-- The keys of what is found under different names. -/
theorem nodup_filterMap_keys {α : Type} {f : α → Option (Smt.Key × Bytes)} {key : α → Smt.Key}
    {l : List α} (hf : ∀ a x, f a = some x → x.1 = key a) (hl : (l.map key).Nodup) :
    ((l.filterMap f).map Prod.fst).Nodup := by
  refine hl.sublist ?_
  clear hl
  induction l with
  | nil => exact List.Sublist.refl _
  | cons a l ih =>
    rcases ha : f a with _ | x
    · rw [List.filterMap_cons_none ha, List.map_cons]
      exact ih.cons _
    · rw [List.filterMap_cons_some ha, List.map_cons, List.map_cons, hf a x ha]
      exact ih.cons_cons _

theorem accepted_key {k : Smt.Key} {b : Bytes} {x : Smt.Key × Bytes}
    (h : accepted C F k b = some x) : x.1 = k := by
  unfold accepted at h
  split_ifs at h
  rw [← Option.some.inj h]

theorem tokenEntry_key {id : UInt64} {x : Smt.Key × Bytes} (h : tokenEntry C F o id = some x) :
    x.1 = idKey id := by
  obtain ⟨s, -, h⟩ := Option.bind_eq_some_iff.mp h
  exact accepted_key h

theorem accountEntry_key {addr : Address} {x : Smt.Key × Bytes}
    (h : accountEntry C F o addr = some x) : x.1 = shortAddr addr := by
  obtain ⟨_, -, h⟩ := Option.bind_eq_some_iff.mp h
  obtain ⟨a, -, h⟩ := Option.bind_eq_some_iff.mp h
  exact accepted_key h

theorem chainEntry_key {id : UInt64} {x : Smt.Key × Bytes} (h : chainEntry C F o id = some x) :
    x.1 = idKey id := by
  obtain ⟨c, -, h⟩ := Option.bind_eq_some_iff.mp h
  exact accepted_key h

theorem transactionEntry_key {id : UInt64} {x : Smt.Key × Bytes}
    (h : transactionEntry C F o id = some x) : x.1 = idKey id := by
  obtain ⟨y, hy, rfl⟩ := Option.map_eq_some_iff.mp h
  exact (tokenEntry_key hy : y.1 = idKey id)

theorem anchorEntry_key {id : UInt64} {x : Smt.Key × Bytes}
    (h : anchorEntry sort o id = some x) : x.1 = idKey id := by
  obtain ⟨a, -, h⟩ := Option.bind_eq_some_iff.mp h
  split at h
  · rw [← Option.some.inj h]
  · cases h

/-- No two accounts have the same key in the tree of accounts. -/
def Objects.ShortDistinct (o : Objects) : Prop :=
  ∀ a ∈ o.accountObjects, ∀ b ∈ o.accountObjects, shortAddr a = shortAddr b → a = b

/-- No key of a tree is inserted twice. -/
theorem nodup_inserts (hv : order.Valid o) (hshort : o.ShortDistinct) (ty : TreeType) :
    ((inserts C F sort o order ty).map Prod.fst).Nodup := by
  obtain ⟨⟨htok, hacc, hch⟩, hanch⟩ := hv
  have hid : ∀ {l : List UInt64}, l.Nodup → (l.map idKey).Nodup :=
    fun h => h.map fun _ _ => idKey_inj
  have haddr : (order.accounts.map shortAddr).Nodup := by
    refine hacc.1.map_on ?_
    have hmem : ∀ a ∈ order.accounts, a ∈ o.accountObjects := by
      intro a ha
      rwa [← List.mem_toFinset, hacc.2, Finmap.mem_keys] at ha
    exact fun a ha b hb => hshort a (hmem a ha) b (hmem b hb)
  rw [inserts, List.map_map]
  change ((records C F sort o order ty).map Prod.fst).Nodup
  cases ty with
  | account => exact nodup_filterMap_keys (fun _ _ => accountEntry_key) haddr
  | token => exact nodup_filterMap_keys (fun _ _ => tokenEntry_key) (hid htok.1)
  | anchor => exact nodup_filterMap_keys (fun _ _ => anchorEntry_key) (hid hanch.1)
  | chain => exact nodup_filterMap_keys (fun _ _ => chainEntry_key) (hid hch.1)
  | transaction => exact nodup_filterMap_keys (fun _ _ => transactionEntry_key) (hid htok.1)

/-! ## What `Commit` returns -/

variable (C F sort order o) in
/-- The strings that are hashed: the pairs of the new trees, and the node chunks in the store while
the trees are flushed. -/
def commitHashed (L : Forest) (st : TreeStorage) : Set Bytes :=
  {b | (∃ ty, b ∈ Smt.hashedPairs C.keccak (L.commit C F sort o order ty) Smt.treeDepth) ∨
    ∃ st₃ i r, BeforeFlush C F sort order o st st₃ ∧
      Disk.flushAll C F ((TreeType.flushed.map st₃.tree).take i) st₃.chunkStore = .ok r ∧
      ((C.keccak b).1, b) ∈ r.2.nodes}

/-- The header is made of the roots. -/
theorem makeHeaderHash_congr {st st' : TreeStorage}
    (h : ∀ ty, Smt.SparseMerkleTree.rootMerkle (st.tree ty)
      = Smt.SparseMerkleTree.rootMerkle (st'.tree ty))
    (time : UInt64) (n : ℕ) (parentHash bloomID : Hash) :
    st.makeHeaderHash time n parentHash bloomID = st'.makeHeaderHash time n parentHash bloomID := by
  have hroot : ∀ ty, Smt.SparseMerkleTree.merkleRoot (st.tree ty)
      = Smt.SparseMerkleTree.merkleRoot (st'.tree ty) := by
    intro ty
    rw [Smt.SparseMerkleTree.merkleRoot, Smt.SparseMerkleTree.merkleRoot, h]
  have htx := hroot .transaction
  have hacc := hroot .account
  have htok := hroot .token
  have hanch := hroot .anchor
  have hch := hroot .chain
  simp only [TreeStorage.tree] at htx hacc htok hanch hch
  rw [TreeStorage.makeHeaderHash, TreeStorage.makeHeaderHash, TreeStorage.sealing,
    TreeStorage.sealing, htx, hacc, htok, hanch, hch]

/-- An error of `Commit` is that of the bloom filter. -/
theorem commitTrees_fault {time : UInt64} {n : ℕ} {parentHash : Hash} {r : Except String Header}
    {st' : TreeStorage} (h : commitTrees C F sort order time n parentHash o st = .ok (r, st')) :
    (∃ e, r = .error e ∧ bloomFault C F order.tokens = some e) ∨
      ∃ hd, r = .ok hd ∧ bloomFault C F order.tokens = none := by
  rw [commitTrees, bind_eq_ok] at h
  obtain ⟨st₁, -, h⟩ := h
  rcases storeBloom_cases C F order.tokens st₁ with ⟨e, hfault, hb⟩ | ⟨hfault, cs, -, hb⟩
  · rw [hb] at h
    obtain ⟨rfl, -⟩ := Prod.mk.inj (Except.ok.inj h)
    exact Or.inl ⟨e, rfl, hfault⟩
  · simp only [hb, bind_eq_ok] at h
    obtain ⟨st₃, -, st₄, -, h⟩ := h
    obtain ⟨rfl, -⟩ := Prod.mk.inj (Except.ok.inj h)
    exact Or.inr ⟨_, rfl, hfault⟩

/-- A header that `Commit` returns, with the storage right before the flush. -/
theorem commitTrees_header {L : Forest} {T : TreeType → Smt.EntryTrie}
    (hst : ∀ ty, Smt.StandsFor C.keccak st.chunkStore.nodes (st.tree ty) (T ty) (L ty))
    (hdel : o.NoneDeleted) (hreg : o.Regular sort) {H : Set Bytes}
    (hcf : Smt.CollisionFree C.keccak H) (hH : commitHashed C F sort order o L st ⊆ H)
    (hfault : bloomFault C F order.tokens = none) (time : UInt64) (n : ℕ) (parentHash : Hash) :
    ((∀ ty, (Smt.upsertAll (inserts C F sort o order ty) (T ty)).Shallow Smt.nkeypieces) ∧
      ∃ st', commitTrees C F sort order time n parentHash o st
          = .ok (.ok (st'.makeHeaderHash time n parentHash (bloomID C order.tokens)), st') ∧
        ∀ ty, Smt.SparseMerkleTree.rootMerkle (st'.tree ty)
          = (L.commit C F sort o order ty).root C.keccak) ∨
    (¬ (∀ ty, (Smt.upsertAll (inserts C F sort o order ty) (T ty)).Shallow Smt.nkeypieces) ∧
      ∀ x, commitTrees C F sort order time n parentHash o st ≠ .ok x) := by
  rcases commitTrees_returns F sort order hdel hst time n parentHash
    with ⟨e, st₁, he, -⟩ | ⟨-, hret⟩
  · rw [hfault] at he
    cases he
  · obtain ⟨st₃, hbefore, hv, hcommit⟩ := hret hreg
    -- before the flush the trees stand for what was inserted
    have htrees : ∀ ty, Smt.StandsFor C.keccak st₃.chunkStore.nodes (st₃.tree ty)
        (Smt.upsertAll (inserts C F sort o order ty) (T ty)) (L.commit C F sort o order ty) := by
      rw [hv.nodes]
      exact hv.trees
    rcases TreeStorage.flush_decided hcf htrees (fun ty b hb => hH (Or.inl ⟨ty, hb⟩))
      (fun i r hr b hb => hH (Or.inr ⟨st₃, i, r, hbefore, hr, hb⟩)) with
      ⟨hsh, st', hf, hroots⟩ | ⟨hsh, hf⟩
    · refine Or.inl ⟨hsh, st', ?_, hroots⟩
      rw [hcommit, hf]
      rfl
    · refine Or.inr ⟨hsh, fun x hx => ?_⟩
      rw [hcommit, bind_eq_ok] at hx
      obtain ⟨st', hst', -⟩ := hx
      exact hf st' hst'

theorem commitTrees_order {L : Forest} (h₁ : order₁.Valid o) (h₂ : order₂.Valid o)
    (hst : ∀ ty, Smt.TreeOf C.keccak st.chunkStore.nodes (st.tree ty) (L ty))
    (hdel : o.NoneDeleted) (hshort : o.ShortDistinct) {H : Set Bytes}
    (hcf : Smt.CollisionFree C.keccak H) (hH₁ : commitHashed C F sort order₁ o L st ⊆ H)
    (hH₂ : commitHashed C F sort order₂ o L st ⊆ H) {time : UInt64} {n : ℕ} {parentHash : Hash}
    {r : Except String Header} {st' : TreeStorage}
    (h : commitTrees C F sort order₁ time n parentHash o st = .ok (r, st')) :
    ∃ st', commitTrees C F sort order₂ time n parentHash o st = .ok (r, st') := by
  choose T hT using fun ty => (hst ty).standsFor
  have htokens := h₁.1.1.perm h₂.1.1
  have hnil : order₁.tokens = [] ↔ order₂.tokens = [] :=
    ⟨fun h => (h ▸ htokens).nil_eq.symm, fun h => (h ▸ htokens.symm).nil_eq.symm⟩
  have hfault : bloomFault C F order₁.tokens = bloomFault C F order₂.tokens := by
    simp only [bloomFault, hnil, newBloom_perm htokens]
  have hbloom : bloomID C order₁.tokens = bloomID C order₂.tokens := by
    simp only [bloomID, hnil, newBloom_perm htokens]
  rcases commitTrees_fault h with ⟨e, rfl, he⟩ | ⟨hd, rfl, hnone⟩
  · -- the bloom filter is not stored in either order
    rcases commitTrees_returns F sort order₂ hdel hT time n
      parentHash with ⟨e', st₂, he', hret⟩ | ⟨he', -⟩
    · rw [← hfault, he] at he'
      obtain rfl := Option.some.inj he'
      exact ⟨st₂, hret⟩
    · rw [← hfault, he] at he'
      cases he'
  · have hreg := regular_of_commitTrees h₁ h
    -- the same tries, and so the same roots
    have htries : ∀ ty, Smt.upsertAll (inserts C F sort o order₁ ty) (T ty)
        = Smt.upsertAll (inserts C F sort o order₂ ty) (T ty) :=
      fun ty => Smt.upsertAll_perm (inserts_perm C F sort h₁ h₂ ty) (nodup_inserts h₁ hshort ty) _
    have hcontents : ∀ ty, L.commit C F sort o order₁ ty = L.commit C F sort o order₂ ty :=
      fun ty => Smt.Contents.insertAll_perm (inserts_perm C F sort h₁ h₂ ty)
        (nodup_inserts h₁ hshort ty)
        (hT ty).holds
    rcases commitTrees_header hT hdel hreg hcf hH₁ hnone time n parentHash with
      ⟨hsh₁, st₁, hret₁, hroots₁⟩ | ⟨-, hret₁⟩
    · rw [hret₁] at h
      obtain ⟨hhd, -⟩ := Prod.mk.inj (Except.ok.inj h)
      rcases commitTrees_header hT hdel hreg hcf hH₂ (hfault ▸ hnone) time n parentHash with
        ⟨-, st₂, hret₂, hroots₂⟩ | ⟨hsh₂, -⟩
      · refine ⟨st₂, ?_⟩
        rw [hret₂, ← hhd, hbloom]
        have hroots : ∀ ty, Smt.SparseMerkleTree.rootMerkle (st₂.tree ty)
            = Smt.SparseMerkleTree.rootMerkle (st₁.tree ty) := by
          intro ty
          rw [hroots₁, hroots₂, hcontents]
        rw [makeHeaderHash_congr hroots]
      · exact (hsh₂ fun ty => htries ty ▸ hsh₁ ty).elim
    · exact (hret₁ _ h).elim

/-- What `Commit` returns does not depend on the orders in which it visits the maps: the same header
with the same roots and the same bloom filter, the same error, or in no order anything. -/
theorem commit_order_independent {L : Forest} (h₁ : order₁.Valid o) (h₂ : order₂.Valid o)
    (hst : ∀ ty, Smt.TreeOf C.keccak st.chunkStore.nodes (st.tree ty) (L ty))
    (hdel : o.NoneDeleted) (hshort : o.ShortDistinct)
    (hcf : Smt.CollisionFree C.keccak
      (commitHashed C F sort order₁ o L st ∪ commitHashed C F sort order₂ o L st))
    (time : UInt64) (n : ℕ) (parentHash : Hash) (r : Except String Header) :
    (∃ st', commitTrees C F sort order₁ time n parentHash o st = .ok (r, st')) ↔
      ∃ st', commitTrees C F sort order₂ time n parentHash o st = .ok (r, st') := by
  constructor
  · rintro ⟨st', h⟩
    exact commitTrees_order h₁ h₂ hst hdel hshort hcf Set.subset_union_left Set.subset_union_right h
  · rintro ⟨st', h⟩
    exact commitTrees_order h₂ h₁ hst hdel hshort hcf Set.subset_union_right Set.subset_union_left h

/-! ### Two tokens -/

/-- The store grows with each flush. -/
theorem Disk.flush_grows {t t' : Smt.Node} {cs cs' : Disk} (h : cs.flush C F t = .ok (t', cs')) :
    ∀ x ∈ cs.nodes, x ∈ cs'.nodes := by
  simp only [Disk.flush, bind_eq_ok] at h
  obtain ⟨⟨t₁, writes⟩, -, h⟩ := h
  obtain ⟨-, rfl⟩ := Prod.mk.inj (Except.ok.inj h)
  exact fun x hx => Smt.mem_setChunks.mpr (Or.inr hx)

/-- What is in the store while the trees are flushed is there in the end. -/
theorem flushAll_grows {l : List Smt.Node} {cs : Disk} {r : List Smt.Node × Disk}
    (h : Disk.flushAll C F l cs = .ok r) (i : ℕ) {r' : List Smt.Node × Disk}
    (h' : Disk.flushAll C F (l.take i) cs = .ok r') : ∀ x ∈ r'.2.nodes, x ∈ r.2.nodes := by
  induction l generalizing cs r r' i with
  | nil =>
    rw [List.take_nil] at h'
    rw [Except.ok.inj (h'.symm.trans h)]
    exact fun x hx => hx
  | cons t l ih =>
    simp only [Disk.flushAll, bind_eq_ok] at h
    obtain ⟨⟨t₁, cs₁⟩, hf, ⟨ts, cs₂⟩, hrest, h⟩ := h
    obtain rfl := Except.ok.inj h
    rcases i with _ | i
    · obtain rfl := Except.ok.inj h'
      exact fun x hx => ih hrest 0 rfl x (Disk.flush_grows hf x hx)
    · rw [List.take_succ_cons] at h'
      simp only [Disk.flushAll, hf, bind_eq_ok] at h'
      obtain ⟨x, hx, ⟨ts', cs₃⟩, hrest', h'⟩ := h'
      obtain rfl := Except.ok.inj hx
      obtain rfl := Except.ok.inj h'
      exact fun x hx => ih hrest i hrest' x hx

/-- The strings that are hashed by a `Commit` that returns. -/
theorem commitHashed_subset {L : Forest} {time : UInt64} {n : ℕ} {parentHash : Hash} {hd : Header}
    {st' : TreeStorage}
    (h : commitTrees C F sort order time n parentHash o st = .ok (.ok hd, st')) {b : Bytes}
    (hb : b ∈ commitHashed C F sort order o L st) :
    (∃ ty, b ∈ Smt.hashedPairs C.keccak (L.commit C F sort o order ty) Smt.treeDepth) ∨
      ((C.keccak b).1, b) ∈ st'.chunkStore.nodes := by
  rcases hb with hb | ⟨st₃, i, r, ⟨st₁, bid, st₂, h₁, h₂, h₃⟩, hf, hb⟩
  · exact Or.inl hb
  · obtain ⟨st₁', bid', st₂', st₃', h₁', h₂', h₃', h₄', -⟩ := commitTrees_ok h
    obtain rfl := Except.ok.inj (h₁.symm.trans h₁')
    obtain ⟨-, rfl⟩ := Prod.mk.inj (Except.ok.inj (h₂.symm.trans h₂'))
    obtain rfl := Except.ok.inj (h₃.symm.trans h₃')
    exact Or.inr (flushAll_grows (TreeStorage.flush_eq_ok.mp h₄') i hf _ hb)

/-- The address with these last eight bytes. -/
def shortAddress (key : UInt64) : Address :=
  ⟨Bytes.zeros 12 ++ uInt64ToByte key, by
    rw [List.length_append, Bytes.length_zeros, length_uInt64ToByte]⟩

/-- A state database with the accounts of two owners. -/
def twoAccounts (a b : Address) : Objects where
  tokenObjects := ∅
  tokenIsSet := ∅
  accountObjects := (Finmap.singleton a (some ⟨[1], 5, 5⟩)).insert b (some ⟨[2], 7, 7⟩)
  chainObjects := ∅
  chainIsSet := ∅
  thashList := ∅
  atxList := ∅

/-- The accounts are visited in this order. -/
def accountOrder (l : List Address) : CommitOrder := ⟨⟨[], l, []⟩, []⟩

theorem accountOrder_valid {a b : Address} (hne : a ≠ b) :
    (accountOrder [a, b]).Valid (twoAccounts a b) ∧
      (accountOrder [b, a]).Valid (twoAccounts a b) := by
  have hkeys : (twoAccounts a b).accountObjects.keys = {a, b} := by
    ext x
    simp [twoAccounts, Finmap.mem_keys, or_comm]
  have hempty : ∀ {κ α : Type} [DecidableEq κ], Visits ([] : List κ) (∅ : GoMap κ α) :=
    ⟨List.nodup_nil, rfl⟩
  refine ⟨⟨⟨hempty, ⟨by simpa [accountOrder] using hne, ?_⟩, hempty⟩, hempty⟩,
    ⟨⟨hempty, ⟨by simpa [accountOrder] using hne.symm, ?_⟩, hempty⟩, hempty⟩⟩
  · rw [hkeys]
    simp [accountOrder]
  · rw [hkeys]
    simp [accountOrder, Finset.pair_comm]

/-- `Commit` of a new state database with these accounts. -/
def commitNew (o : Objects) (l : List Address) : Go (Except String Header × TreeStorage) :=
  commitTrees smallCrypto noFaults insertionSortSlice (accountOrder l) 0 1 zeroHash o
    (newStorage ⟨[], []⟩)

/-- The strings that are hashed for the objects over empty trees. -/
def commitStrings (order : CommitOrder) (o : Objects) (nodes : Smt.Store) : List Bytes :=
  Contract.emptyStrings Contract.smallHash ++
    TreeType.flushed.flatMap (fun ty => Smt.pairStrings Contract.smallHash
      (inserts smallCrypto noFaults insertionSortSlice o order ty)) ++
    (nodes.filter fun x => x.1 = (Contract.smallHash x.2).1).map Prod.snd

theorem mem_commitStrings {nodes : Smt.Store} (hv : order.Valid o) (hshort : o.ShortDistinct)
    {b : Bytes}
    (hb : (∃ ty, b ∈ Smt.hashedPairs smallCrypto.keccak (Forest.commit smallCrypto noFaults
        insertionSortSlice o order (fun _ => Smt.Contents.empty) ty) Smt.treeDepth) ∨
      ((smallCrypto.keccak b).1, b) ∈ nodes) :
    b ∈ commitStrings order o nodes := by
  rcases hb with ⟨ty, hb⟩ | hb
  · rcases Smt.hashedPairs_insertAll (nodup_inserts hv hshort ty) hb with hb | hb
    · refine List.mem_append_left _ (List.mem_append_right _ (List.mem_flatMap.mpr ⟨ty, ?_, hb⟩))
      cases ty <;> simp [TreeType.flushed]
    · exact List.mem_append_left _ (List.mem_append_left _ (mem_emptyStrings le_rfl hb))
  · refine List.mem_append_right _ (List.mem_map.mpr ⟨_, List.mem_filter.mpr ⟨hb, ?_⟩, rfl⟩)
    exact decide_eq_true rfl

/-- An entry of a store in numbers. -/
def entryCode (x : Bytes × Bytes) : (ℕ × ℕ) × ℕ × ℕ :=
  ((x.1.length, Bytes.ofBE x.1), x.2.length, Bytes.ofBE x.2)

theorem entryCode_injective : Function.Injective entryCode := by
  intro x y h
  obtain ⟨h₁, h₂⟩ := Prod.mk.inj h
  obtain ⟨hlen₁, hnum₁⟩ := Prod.mk.inj h₁
  obtain ⟨hlen₂, hnum₂⟩ := Prod.mk.inj h₂
  exact Prod.ext (Bytes.ofBE_inj hlen₁ hnum₁) (Bytes.ofBE_inj hlen₂ hnum₂)

/-- Two orders of the same accounts that are tried out. -/
theorem exists_commitNew (o : Objects) (l l' : List Address)
    (P : Header → TreeStorage → Header → TreeStorage → Bool)
    (h : (match commitNew o l, commitNew o l' with
      | .ok (.ok hd₁, st₁), .ok (.ok hd₂, st₂) => P hd₁ st₁ hd₂ st₂
      | _, _ => false) = true) :
    ∃ hd₁ st₁ hd₂ st₂, commitNew o l = .ok (.ok hd₁, st₁) ∧ commitNew o l' = .ok (.ok hd₂, st₂) ∧
      P hd₁ st₁ hd₂ st₂ = true := by
  split at h
  · rename_i hd₁ st₁ hd₂ st₂ h₁ h₂
    exact ⟨hd₁, st₁, hd₂, st₂, h₁, h₂, h⟩
  · cases h

def firstOwner : Address := shortAddress 0x1000000000000000

def secondOwner : Address := shortAddress 0x2000000000000000

theorem twoAccounts_shortDistinct : (twoAccounts firstOwner secondOwner).ShortDistinct := by
  intro a ha b hb heq
  simp only [twoAccounts, Finmap.mem_insert, Finmap.mem_singleton] at ha hb
  rcases ha with rfl | rfl <;> rcases hb with rfl | rfl
  · rfl
  · exact absurd heq (by decide)
  · exact absurd heq (by decide)
  · rfl

theorem commit_order_independent_accounts : ∃ hd,
    (∃ st', commitNew (twoAccounts firstOwner secondOwner) [firstOwner, secondOwner]
      = .ok (.ok hd, st')) ∧
    ∃ st', commitNew (twoAccounts firstOwner secondOwner) [secondOwner, firstOwner]
      = .ok (.ok hd, st') := by
  -- both orders lead to the same store, and no two of the strings that are hashed collide
  obtain ⟨hd₁, st₁, hd₂, st₂, h₁, h₂, h⟩ := exists_commitNew (twoAccounts firstOwner secondOwner)
    [firstOwner, secondOwner] [secondOwner, firstOwner]
    (fun _ st₁ _ st₂ =>
      decide (st₂.chunkStore.nodes.map entryCode = st₁.chunkStore.nodes.map entryCode) &&
        Smt.distinctMod 1000003 (0 :: (commitStrings (accountOrder [firstOwner, secondOwner])
          (twoAccounts firstOwner secondOwner) st₁.chunkStore.nodes).map fun x =>
            Bytes.ofBE (Contract.smallHash x).1) 0) (by decide +kernel)
  rw [Bool.and_eq_true, decide_eq_true_eq] at h
  have hnodes := List.map_injective_iff.mpr entryCode_injective h.1
  have hcf : Smt.CollisionFree smallCrypto.keccak _ := Smt.CollisionFree.of_distinct h.2
  obtain ⟨hv₁, hv₂⟩ := accountOrder_valid (a := firstOwner) (b := secondOwner) (by decide)
  have hshort := twoAccounts_shortDistinct
  refine ⟨hd₁, ⟨st₁, h₁⟩, ?_⟩
  refine (commit_order_independent (L := fun _ => Smt.Contents.empty) hv₁ hv₂ ?_ ?_ hshort
    (hcf.mono ?_) 0 1 zeroHash (.ok hd₁)).mp ⟨st₁, h₁⟩
  · intro ty
    cases ty <;> exact (Smt.standsFor_new _).treeOf
  · intro id s hs
    cases hs
  · rintro x (hx | hx)
    · exact mem_commitStrings hv₁ hshort (commitHashed_subset h₁ hx)
    · -- the other order leads to the same trees and the same store
      have hx' := commitHashed_subset h₂ hx
      rw [hnodes] at hx'
      refine mem_commitStrings hv₁ hshort (hx'.imp_left fun ⟨ty, hty⟩ => ⟨ty, ?_⟩)
      have hsame := Smt.Contents.insertAll_perm
        (inserts_perm smallCrypto noFaults insertionSortSlice hv₁ hv₂ ty)
        (nodup_inserts hv₁ hshort ty) Smt.holds_empty
      rw [Forest.commit, hsame]
      exact hty

/-- The address with the same last eight bytes as the first owner. -/
def namesake : Address :=
  ⟨Bytes.zeros 11 ++ [1] ++ uInt64ToByte 0x1000000000000000, by
    rw [List.length_append, length_uInt64ToByte]; rfl⟩

/-- Of two accounts with the same last eight bytes, the tree has the one that is visited last. -/
theorem accountRoot_depends_on_order : ∃ hd₁ st₁ hd₂ st₂,
    (accountOrder [firstOwner, namesake]).Valid (twoAccounts firstOwner namesake) ∧
    (accountOrder [namesake, firstOwner]).Valid (twoAccounts firstOwner namesake) ∧
    commitNew (twoAccounts firstOwner namesake) [firstOwner, namesake] = .ok (.ok hd₁, st₁) ∧
    commitNew (twoAccounts firstOwner namesake) [namesake, firstOwner] = .ok (.ok hd₂, st₂) ∧
    hd₁.accountRoot ≠ hd₂.accountRoot := by
  obtain ⟨hv₁, hv₂⟩ := accountOrder_valid (a := firstOwner) (b := namesake) (by decide)
  obtain ⟨hd₁, st₁, hd₂, st₂, h₁, h₂, h⟩ := exists_commitNew (twoAccounts firstOwner namesake)
    [firstOwner, namesake] [namesake, firstOwner]
    (fun hd₁ _ hd₂ _ => decide (hd₁.accountRoot ≠ hd₂.accountRoot)) (by decide +kernel)
  exact ⟨hd₁, st₁, hd₂, st₂, hv₁, hv₂, h₁, h₂, of_decide_eq_true h⟩

end GoPlasma.Plasma
