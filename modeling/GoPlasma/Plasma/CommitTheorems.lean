import GoPlasma.Plasma.Commit
import GoPlasma.Smt.SharedStore

/-!
# What `Commit` inserts

Each loop of `Commit` is a list of insertions into one or two trees (`inserts`), which the objects
and the order of the visits determine. `Visited` says what holds after some of the visits, and each
round of a loop visits one more key (`Visited.token`, `Visited.account`, `Visited.chain`,
`Visited.anchor`). `commitTrees_returns` puts the loops together: what is left of `Commit` then is
the flush of the five trees, which is `Disk.flushAll` on their list.
-/

namespace GoPlasma.Plasma

variable {C : Crypto} {F : Faults} {sort : SortSlice} {order : CommitOrder} {o : Objects}
  {st st' : TreeStorage}

/-! ## The stages -/

variable (C F sort order o) in
/-- The storage right before the flush. -/
def BeforeFlush (st st₃ : TreeStorage) : Prop :=
  ∃ st₁ bloomID st₂,
    order.tokens.foldlM (fun st tokenID => st.updateTokenObject C F o tokenID) st = .ok st₁ ∧
    st₁.storeBloom C F order.tokens = .ok (bloomID, st₂) ∧
    commitObjects C F sort order o st₂ = .ok st₃

/-- The stages of a `Commit` that returns a header. -/
theorem commitTrees_ok {time : UInt64} {n : ℕ} {parentHash : Hash} {hd : Header}
    (h : commitTrees C F sort order time n parentHash o st = .ok (.ok hd, st')) :
    ∃ st₁ bloomID st₂ st₃,
      order.tokens.foldlM (fun st tokenID => st.updateTokenObject C F o tokenID) st = .ok st₁ ∧
      st₁.storeBloom C F order.tokens = .ok (bloomID, st₂) ∧
      commitObjects C F sort order o st₂ = .ok st₃ ∧ st₃.flush C F = .ok st' ∧
      hd = st'.makeHeaderHash time n parentHash bloomID := by
  rw [commitTrees, bind_eq_ok] at h
  obtain ⟨st₁, h₁, h⟩ := h
  rcases hb : st₁.storeBloom C F order.tokens with e | ⟨bloomID, st₂⟩
  · rw [hb] at h
    cases (Prod.mk.inj (Except.ok.inj h)).1
  · simp only [hb, bind_eq_ok] at h
    obtain ⟨st₃, h₃, st₄, h₄, h⟩ := h
    obtain ⟨hhd, rfl⟩ := Prod.mk.inj (Except.ok.inj h)
    exact ⟨st₁, bloomID, st₂, st₃, h₁, hb, h₃, h₄, (Except.ok.inj hhd).symm⟩

/-- The store with one more chunk. -/
def Disk.put (C : Crypto) (chunk : Bytes) (cs : Disk) : Disk :=
  { cs with chunks := (chunkKey C chunk, chunk) :: cs.chunks }

theorem Disk.setChunk_cases (C : Crypto) (F : Faults) (chunk : Bytes) (cs : Disk) :
    (∃ e, F (chunkKey C chunk) = some e ∧ cs.setChunk C F chunk = .error e) ∨
      F (chunkKey C chunk) = none ∧ cs.setChunk C F chunk = .ok (cs.put C chunk) := by
  unfold Disk.setChunk
  rcases hF : F (chunkKey C chunk) with _ | e
  · exact Or.inr ⟨rfl, rfl⟩
  · exact Or.inl ⟨e, rfl, rfl⟩

/-- There are more chunks, all under their own hashes. -/
def Disk.Extends (C : Crypto) (cs cs' : Disk) : Prop :=
  ∃ new, cs'.chunks = new ++ cs.chunks ∧ ∀ x ∈ new, x.1 = chunkKey C x.2

theorem Disk.Extends.refl (cs : Disk) : cs.Extends C cs := ⟨[], rfl, fun _ hx => (by cases hx)⟩

theorem Disk.Extends.put {cs cs' : Disk} (h : cs.Extends C cs') (chunk : Bytes) :
    cs.Extends C (cs'.put C chunk) := by
  obtain ⟨new, hnew, hfiled⟩ := h
  refine ⟨(chunkKey C chunk, chunk) :: new, by rw [Disk.put, hnew]; rfl, ?_⟩
  intro x hx
  rcases List.mem_cons.mp hx with rfl | hx
  · rfl
  · exact hfiled x hx

theorem Disk.Extends.mem {cs cs' : Disk} (h : cs.Extends C cs') {x : Bytes × Bytes}
    (hx : x ∈ cs.chunks) : x ∈ cs'.chunks := by
  obtain ⟨new, hnew, -⟩ := h
  rw [hnew]
  exact List.mem_append_right _ hx

theorem idKey_inj {i j : UInt64} (h : idKey i = idKey j) : i = j := by
  have hnum := congrArg Smt.num h
  rw [idKey, idKey, Smt.num_keyOf i.toNat_lt, Smt.num_keyOf j.toNat_lt] at hnum
  exact UInt64.toNat_inj.mp hnum

/-! ## The insertions -/

/-- The tree of a kind. -/
def TreeStorage.tree (st : TreeStorage) : TreeType → Smt.Node
  | .account => st.accountStorage
  | .token => st.tokenStorage
  | .anchor => st.anchorStorage
  | .chain => st.chainStorage
  | .transaction => st.transactionStorage

/-- The contents of the trees. -/
abbrev Forest := TreeType → Smt.Contents

/-- The tree has the hashes of what is stored under its keys. -/
def TreeType.hashed : TreeType → Bool
  | .account | .token | .chain => true
  | .anchor | .transaction => false

section
variable (C : Crypto) (F : Faults) (sort : SortSlice) (o : Objects)

/-- A record that `SetChunk` accepts. -/
def accepted (key : Smt.Key) (encoded : Bytes) : Option (Smt.Key × Bytes) :=
  if F (chunkKey C encoded) = none then some (key, encoded) else none

def tokenEntry (tokenID : UInt64) : Option (Smt.Key × Bytes) :=
  (o.tokenObjects.lookup tokenID).bind fun s => accepted C F (idKey tokenID) s.token.encode

def accountEntry (addr : Address) : Option (Smt.Key × Bytes) :=
  (o.accountObjects.lookup addr).bind fun a => a.bind fun a =>
    accepted C F (shortAddr addr) (TreeStorage.encodedAccount a)

def chainEntry (chainID : UInt64) : Option (Smt.Key × Bytes) :=
  (o.chainObjects.lookup chainID).bind fun c => accepted C F (idKey chainID) c.bytes

/-- The hash of the transaction is noted together with the token. -/
def transactionEntry (tokenID : UInt64) : Option (Smt.Key × Bytes) :=
  (tokenEntry C F o tokenID).map fun x =>
    (x.1, ((o.thashList.lookup tokenID).getD zeroHash).1)

def anchorEntry (chainID : UInt64) : Option (Smt.Key × Bytes) :=
  (o.atxList.lookup chainID).bind fun a =>
    match a.sort (sort.1 a.anchors) with
    | .ok b => some (idKey chainID, b.bytes)
    | .error _ => none

/-- The records that the visits find, with their keys in the tree. -/
def records (order : CommitOrder) : TreeType → List (Smt.Key × Bytes)
  | .account => order.accounts.filterMap (accountEntry C F o)
  | .token => order.tokens.filterMap (tokenEntry C F o)
  | .anchor => order.anchors.filterMap (anchorEntry sort o)
  | .chain => order.chains.filterMap (chainEntry C F o)
  | .transaction => order.tokens.filterMap (transactionEntry C F o)

/-- The value in the tree. -/
def TreeType.value (ty : TreeType) (b : Bytes) : Bytes := if ty.hashed then chunkKey C b else b

/-- The insertions into a tree. -/
def inserts (order : CommitOrder) (ty : TreeType) : List (Smt.Key × Bytes) :=
  (records C F sort o order ty).map fun x => (x.1, ty.value C x.2)

/-- The contents after the insertions. -/
def Forest.commit (order : CommitOrder) (L : Forest) : Forest :=
  fun ty => (L ty).insertAll (inserts C F sort o order ty)

end

/-! ## The visits -/

/-- No token is marked as exited. -/
def Objects.NoneDeleted (o : Objects) : Prop :=
  ∀ id s, o.tokenObjects.lookup id = some s → s.deleted = false

/-- No round of a loop panics. -/
structure Objects.Regular (sort : SortSlice) (o : Objects) : Prop where
  accounts : ∀ addr, o.accountObjects.lookup addr ≠ some none
  anchors : ∀ id a, o.atxList.lookup id = some a → ∃ b, a.sort (sort.1 a.anchors) = .ok b

/-- If `Commit` returns a header, no round of a loop has panicked. -/
theorem regular_of_commitTrees {time : UInt64} {n : ℕ} {parentHash : Hash} {hd : Header}
    (hv : order.Valid o)
    (h : commitTrees C F sort order time n parentHash o st = .ok (.ok hd, st')) :
    o.Regular sort := by
  obtain ⟨-, -, st₂, st₃, -, -, h₃, -, -⟩ := commitTrees_ok h
  simp only [commitObjects, bind_eq_ok] at h₃
  obtain ⟨st₄, haccounts, st₅, -, hanchors⟩ := h₃
  refine ⟨?_, ?_⟩
  · intro addr ha
    have hmem : addr ∈ order.accounts := by
      rw [← List.mem_toFinset, hv.1.2.1.2, Finmap.mem_keys]
      exact Finmap.mem_of_lookup_eq_some ha
    obtain ⟨st₁, st₂, hround⟩ := foldlM_visits haccounts hmem
    rw [TreeStorage.updateAccountObject, ha] at hround
    cases hround
  · intro id a ha
    have hmem : id ∈ order.anchors := by
      rw [← List.mem_toFinset, hv.2.2, Finmap.mem_keys]
      exact Finmap.mem_of_lookup_eq_some ha
    obtain ⟨st₁, st₂, hround⟩ := foldlM_visits hanchors hmem
    simp only [TreeStorage.updateAnchor, ha, bind_eq_ok] at hround
    obtain ⟨b, hb, -⟩ := hround
    exact ⟨b, hb⟩

variable (C F sort o) in
/-- The storage after some of the visits. -/
structure Visited (st₀ : TreeStorage) (T : TreeType → Smt.EntryTrie) (L : Forest)
    (done : CommitOrder) (st : TreeStorage) : Prop where
  nodes : st.chunkStore.nodes = st₀.chunkStore.nodes
  trees : ∀ ty, Smt.StandsFor C.keccak st₀.chunkStore.nodes (st.tree ty)
    (Smt.upsertAll (inserts C F sort o done ty) (T ty)) (L.commit C F sort o done ty)
  chunks : st₀.chunkStore.Extends C st.chunkStore
  stored : ∀ ty : TreeType, ty.hashed = true → ∀ x ∈ records C F sort o done ty,
    (chunkKey C x.2, x.2) ∈ st.chunkStore.chunks

section
variable {st₀ : TreeStorage} {T : TreeType → Smt.EntryTrie} {L : Forest} {done : CommitOrder}

/-- Nothing has been visited. -/
theorem visited_nil
    (h : ∀ ty, Smt.StandsFor C.keccak st.chunkStore.nodes (st.tree ty) (T ty) (L ty)) :
    Visited C F sort o st T L ⟨⟨[], [], []⟩, []⟩ st where
  nodes := rfl
  trees := fun ty => by cases ty <;> exact h _
  chunks := .refl _
  stored := fun ty _ x hx => by cases ty <;> cases hx

variable (C F sort o) in
/-- What a round does to one tree: it inserts the records that the visit finds. -/
def TreeGrows (s : Smt.Store) (chunks : Smt.Store) (ty : TreeType) (done done' : CommitOrder)
    (n n' : Smt.Node) : Prop :=
  ∃ new, records C F sort o done' ty = records C F sort o done ty ++ new ∧
    (∀ t m, Smt.StandsFor C.keccak s n t m → Smt.StandsFor C.keccak s n'
      (Smt.upsertAll (new.map fun x => (x.1, ty.value C x.2)) t)
      (m.insertAll (new.map fun x => (x.1, ty.value C x.2)))) ∧
    (ty.hashed = true → ∀ x ∈ new, (chunkKey C x.2, x.2) ∈ chunks)

theorem treeGrows_same {s chunks : Smt.Store} {ty : TreeType} {done done' : CommitOrder}
    {n : Smt.Node} (h : records C F sort o done' ty = records C F sort o done ty) :
    TreeGrows C F sort o s chunks ty done done' n n :=
  ⟨[], by rw [h, List.append_nil], fun _ _ h => h, fun _ _ hx => (by cases hx)⟩

theorem treeGrows_one {s chunks : Smt.Store} {ty : TreeType} {done done' : CommitOrder}
    {n n' : Smt.Node} {k : Smt.Key} {b : Bytes}
    (hrec : records C F sort o done' ty = records C F sort o done ty ++ [(k, b)])
    (hn : Smt.SparseMerkleTree.insert s.getChunk k (ty.value C b) 0 0 n = .ok n')
    (hb : ty.hashed = true → (chunkKey C b, b) ∈ chunks) :
    TreeGrows C F sort o s chunks ty done done' n n' := by
  refine ⟨[(k, b)], hrec, ?_, ?_⟩
  · intro t m h
    obtain ⟨n₁, hn₁, h₁⟩ := h.insert k (ty.value C b)
    obtain rfl := Except.ok.inj (hn.symm.trans hn₁)
    exact h₁
  · intro hty x hx
    rw [List.mem_singleton.mp hx]
    exact hb hty

/-- The bloom filter is one more chunk. -/
theorem Visited.chunk (h : Visited C F sort o st₀ T L done st) (chunk : Bytes) :
    Visited C F sort o st₀ T L done { st with chunkStore := st.chunkStore.put C chunk } where
  nodes := h.nodes
  trees := by
    intro ty
    have hty := h.trees ty
    cases ty <;> exact hty
  chunks := h.chunks.put chunk
  stored := fun ty hty x hx => List.mem_cons_of_mem _ (h.stored ty hty x hx)

/-- The end of a round, after the chunk of a record has been stored. -/
theorem Visited.step (h : Visited C F sort o st₀ T L done st) {done' : CommitOrder}
    (hstore : st'.chunkStore = st.chunkStore)
    (htrees : ∀ ty, TreeGrows C F sort o st₀.chunkStore.nodes st.chunkStore.chunks ty done done'
      (st.tree ty) (st'.tree ty)) :
    Visited C F sort o st₀ T L done' st' where
  nodes := hstore ▸ h.nodes
  trees := by
    intro ty
    obtain ⟨new, hrec, hstep, -⟩ := htrees ty
    have hins : inserts C F sort o done' ty
        = inserts C F sort o done ty ++ new.map fun x => (x.1, ty.value C x.2) := by
      rw [inserts, hrec, List.map_append]
      rfl
    rw [Forest.commit, hins, Smt.upsertAll_append, Smt.Contents.insertAll_append]
    exact hstep _ _ (h.trees ty)
  chunks := hstore ▸ h.chunks
  stored := by
    intro ty hty x hx
    obtain ⟨new, hrec, -, hnew⟩ := htrees ty
    rw [hrec] at hx
    rw [hstore]
    rcases List.mem_append.mp hx with hx | hx
    · exact h.stored ty hty x hx
    · exact hnew hty x hx

/-- A round that does nothing, since it finds no record. -/
theorem Visited.skip (h : Visited C F sort o st₀ T L done st) {done' : CommitOrder}
    (hrec : ∀ ty, records C F sort o done' ty = records C F sort o done ty) :
    Visited C F sort o st₀ T L done' st :=
  h.step rfl fun ty => treeGrows_same (hrec ty)

theorem insert_of_nodes {cs : Disk} {s : Smt.Store} (hcs : cs.nodes = s) {k : Smt.Key} {v : Bytes}
    {n n' : Smt.Node} (h : Smt.SparseMerkleTree.insert s.getChunk k v 0 0 n = .ok n') :
    TreeStorage.insert cs k v n = .ok n' := by
  rw [TreeStorage.insert, hcs]
  exact h

/-- A round of the loop over the tokens. -/
theorem Visited.token (h : Visited C F sort o st₀ T L done st) (hdel : o.NoneDeleted)
    (tokenID : UInt64) : ∃ st', st.updateTokenObject C F o tokenID = .ok st' ∧
      Visited C F sort o st₀ T L { done with tokens := done.tokens ++ [tokenID] } st' := by
  unfold TreeStorage.updateTokenObject
  rcases hs : o.tokenObjects.lookup tokenID with _ | s
  · have hrec : tokenEntry C F o tokenID = none := by rw [tokenEntry, hs]; rfl
    refine ⟨st, rfl, h.skip fun ty => ?_⟩
    cases ty <;> simp [records, transactionEntry, hrec]
  -- an error of the store is dropped, and the token is not inserted
  · rcases Disk.setChunk_cases C F s.token.encode st.chunkStore with ⟨e, hF, hset⟩ | ⟨hF, hset⟩
    · have hrec : tokenEntry C F o tokenID = none := by
        rw [tokenEntry, hs, Option.bind_some, accepted, hF, if_neg (by simp)]
      refine ⟨st, by simp only [hset], h.skip fun ty => ?_⟩
      cases ty <;> simp [records, transactionEntry, hrec]
    · have hrec : tokenEntry C F o tokenID = some (idKey tokenID, s.token.encode) := by
        rw [tokenEntry, hs, Option.bind_some, accepted, if_pos hF]
      have hc := h.chunk s.token.encode
      obtain ⟨n₁, hn₁, -⟩ := (hc.trees .token).insert (idKey tokenID) (chunkKey C s.token.encode)
      obtain ⟨n₂, hn₂, -⟩ := (hc.trees .transaction).insert (idKey tokenID)
        ((o.thashList.lookup tokenID).getD zeroHash).1
      have hi₁ := insert_of_nodes hc.nodes hn₁
      have hi₂ := insert_of_nodes hc.nodes hn₂
      refine ⟨{ st with
        chunkStore := st.chunkStore.put C s.token.encode
        tokenStorage := n₁
        transactionStorage := n₂ }, ?_, hc.step rfl ?_⟩
      · simp only [hset, TreeStorage.putToken, hdel tokenID s hs, Bool.false_eq_true,
          if_false, bind_eq_ok]
        exact ⟨n₁, hi₁, n₂, hi₂, rfl⟩
      · intro ty
        cases ty with
        | token =>
          refine treeGrows_one ?_ hn₁ (fun _ => List.mem_cons_self)
          simp [records, hrec]
        | transaction =>
          refine treeGrows_one ?_ hn₂ (by simp [TreeType.hashed])
          simp [records, transactionEntry, hrec]
        | _ => exact treeGrows_same rfl

/-- A round of the loop over the accounts. -/
theorem Visited.account (h : Visited C F sort o st₀ T L done st) (hreg : o.Regular sort)
    (addr : Address) : ∃ st', st.updateAccountObject C F o addr = .ok st' ∧
      Visited C F sort o st₀ T L { done with accounts := done.accounts ++ [addr] } st' := by
  unfold TreeStorage.updateAccountObject
  rcases ha : o.accountObjects.lookup addr with _ | _ | a
  · have hrec : accountEntry C F o addr = none := by rw [accountEntry, ha]; rfl
    refine ⟨st, rfl, h.skip fun ty => ?_⟩
    cases ty <;> simp [records, hrec]
  · exact (hreg.accounts addr ha).elim
  -- an error of the store is dropped, and the account is not inserted
  · rcases Disk.setChunk_cases C F (TreeStorage.encodedAccount a) st.chunkStore with
      ⟨e, hF, hset⟩ | ⟨hF, hset⟩
    · have hrec : accountEntry C F o addr = none := by
        rw [accountEntry, ha, Option.bind_some, Option.bind_some, accepted, hF, if_neg (by simp)]
      refine ⟨st, by simp only [hset], h.skip fun ty => ?_⟩
      cases ty <;> simp [records, hrec]
    · have hrec : accountEntry C F o addr
          = some (shortAddr addr, TreeStorage.encodedAccount a) := by
        rw [accountEntry, ha, Option.bind_some, Option.bind_some, accepted, if_pos hF]
      have hc := h.chunk (TreeStorage.encodedAccount a)
      obtain ⟨n, hn, -⟩ := (hc.trees .account).insert (shortAddr addr)
        (chunkKey C (TreeStorage.encodedAccount a))
      have hi := insert_of_nodes hc.nodes hn
      refine ⟨{ st with
        chunkStore := st.chunkStore.put C (TreeStorage.encodedAccount a)
        accountStorage := n }, ?_, hc.step rfl ?_⟩
      · simp only [hset, bind_eq_ok]
        exact ⟨n, hi, rfl⟩
      · intro ty
        cases ty with
        | account =>
          refine treeGrows_one ?_ hn (fun _ => List.mem_cons_self)
          simp [records, hrec]
        | _ => exact treeGrows_same rfl

/-- A round of the loop over the chains. -/
theorem Visited.chain (h : Visited C F sort o st₀ T L done st) (chainID : UInt64) :
    ∃ st', st.updateChainObject C F o chainID = .ok st' ∧
      Visited C F sort o st₀ T L { done with chains := done.chains ++ [chainID] } st' := by
  unfold TreeStorage.updateChainObject
  rcases hs : o.chainObjects.lookup chainID with _ | c
  · have hrec : chainEntry C F o chainID = none := by rw [chainEntry, hs]; rfl
    refine ⟨st, rfl, h.skip fun ty => ?_⟩
    cases ty <;> simp [records, hrec]
  -- an error of the store is dropped, and the chain is not inserted
  · rcases Disk.setChunk_cases C F c.bytes st.chunkStore with ⟨e, hF, hset⟩ | ⟨hF, hset⟩
    · have hrec : chainEntry C F o chainID = none := by
        rw [chainEntry, hs, Option.bind_some, accepted, hF, if_neg (by simp)]
      refine ⟨st, by simp only [hset], h.skip fun ty => ?_⟩
      cases ty <;> simp [records, hrec]
    · have hrec : chainEntry C F o chainID = some (idKey chainID, c.bytes) := by
        rw [chainEntry, hs, Option.bind_some, accepted, if_pos hF]
      have hc := h.chunk c.bytes
      obtain ⟨n, hn, -⟩ := (hc.trees .chain).insert (idKey chainID) (chunkKey C c.bytes)
      have hi := insert_of_nodes hc.nodes hn
      refine ⟨{ st with
        chunkStore := st.chunkStore.put C c.bytes
        chainStorage := n }, ?_, hc.step rfl ?_⟩
      · simp only [hset, bind_eq_ok]
        exact ⟨n, hi, rfl⟩
      · intro ty
        cases ty with
        | chain =>
          refine treeGrows_one ?_ hn (fun _ => List.mem_cons_self)
          simp [records, hrec]
        | _ => exact treeGrows_same rfl

/-- The insertion of an anchor block, whether its chunk could be stored or not. -/
theorem Visited.insertAnchor {cs : Disk} {chainID : UInt64} {b : AnchorBlock}
    (h : Visited C F sort o st₀ T L done { st with chunkStore := cs })
    (hrec : anchorEntry sort o chainID = some (idKey chainID, b.bytes)) :
    ∃ n, TreeStorage.insert cs (idKey chainID) b.bytes st.anchorStorage = .ok n ∧
      Visited C F sort o st₀ T L { done with anchors := done.anchors ++ [chainID] }
        { st with chunkStore := cs, anchorStorage := n } := by
  obtain ⟨n, hn, -⟩ := (h.trees .anchor).insert (idKey chainID) b.bytes
  refine ⟨n, insert_of_nodes h.nodes hn, h.step rfl ?_⟩
  intro ty
  cases ty with
  | anchor =>
    refine treeGrows_one (b := b.bytes) ?_ hn (by simp [TreeType.hashed])
    simp [records, hrec]
  | _ => exact treeGrows_same rfl

/-- A round of the loop over the anchors. -/
theorem Visited.anchor (h : Visited C F sort o st₀ T L done st) (hreg : o.Regular sort)
    (chainID : UInt64) : ∃ st', st.updateAnchor C F sort o chainID = .ok st' ∧
      Visited C F sort o st₀ T L { done with anchors := done.anchors ++ [chainID] } st' := by
  unfold TreeStorage.updateAnchor
  rcases hs : o.atxList.lookup chainID with _ | a
  · have hrec : anchorEntry sort o chainID = none := by rw [anchorEntry, hs]; rfl
    refine ⟨st, rfl, h.skip fun ty => ?_⟩
    cases ty <;> simp [records, hrec]
  · obtain ⟨b, hb⟩ := hreg.anchors chainID a hs
    have hrec : anchorEntry sort o chainID = some (idKey chainID, b.bytes) := by
      rw [anchorEntry, hs, Option.bind_some, hb]
    simp only [bind_eq_ok]
    -- the chunk of the anchor block is stored if it can be
    rcases Disk.setChunk_cases C F b.bytes st.chunkStore with ⟨e, -, hset⟩ | ⟨-, hset⟩
    · obtain ⟨n, hn, hv⟩ := h.insertAnchor hrec
      exact ⟨_, ⟨b, hb, n, by rw [hset]; exact hn, rfl⟩, by rw [hset]; exact hv⟩
    · obtain ⟨n, hn, hv⟩ := (h.chunk b.bytes).insertAnchor hrec
      exact ⟨_, ⟨b, hb, n, by rw [hset]; exact hn, rfl⟩, by rw [hset]; exact hv⟩

/-! ## The loops -/

/-- The loop over the tokens. -/
theorem tokens_returns (F : Faults) (sort : SortSlice) (hdel : o.NoneDeleted)
    (hst : ∀ ty, Smt.StandsFor C.keccak st.chunkStore.nodes (st.tree ty) (T ty) (L ty))
    (tokens : List UInt64) :
    ∃ st', tokens.foldlM (fun st tokenID => st.updateTokenObject C F o tokenID) st = .ok st' ∧
      Visited C F sort o st T L ⟨⟨tokens, [], []⟩, []⟩ st' :=
  foldlM_returns (P := fun done st' => Visited C F sort o st T L ⟨⟨done, [], []⟩, []⟩ st')
    (fun _ a _ _ h => h.token hdel a) (visited_nil hst)

/-- The other loops. -/
theorem commitObjects_returns (order : CommitOrder) (hreg : o.Regular sort)
    (h : Visited C F sort o st₀ T L ⟨⟨order.tokens, [], []⟩, []⟩ st) :
    ∃ st', commitObjects C F sort order o st = .ok st' ∧ Visited C F sort o st₀ T L order st' := by
  obtain ⟨st₁, h₁, hv₁⟩ := foldlM_returns (l := order.accounts)
    (P := fun done st' => Visited C F sort o st₀ T L ⟨⟨order.tokens, done, []⟩, []⟩ st')
    (fun _ a _ _ h => h.account hreg a) h
  obtain ⟨st₂, h₂, hv₂⟩ := foldlM_returns (l := order.chains)
    (P := fun done st' => Visited C F sort o st₀ T L ⟨⟨order.tokens, order.accounts, done⟩, []⟩ st')
    (fun _ a _ _ h => h.chain a) hv₁
  obtain ⟨st₃, h₃, hv₃⟩ := foldlM_returns (l := order.anchors)
    (P := fun done st' => Visited C F sort o st₀ T L ⟨order.toMapOrder, done⟩ st')
    (fun _ a _ _ h => h.anchor hreg a) hv₂
  refine ⟨st₃, ?_, hv₃⟩
  simp only [commitObjects, bind_eq_ok]
  exact ⟨st₁, h₁, st₂, h₂, h₃⟩

end

/-! ## The bloom filter -/

section
variable (C : Crypto) (F : Faults)

/-- The name of the bloom filter in the header. -/
def bloomID (tokens : List UInt64) : Hash :=
  if tokens = [] then zeroHash else C.keccak (newBloom tokens)

/-- The error with which the bloom filter is not stored. -/
def bloomFault (tokens : List UInt64) : Option String :=
  if tokens = [] then none else F (chunkKey C (newBloom tokens))

end

theorem storeBloom_cases (C : Crypto) (F : Faults) (tokens : List UInt64) (st : TreeStorage) :
    (∃ e, bloomFault C F tokens = some e ∧ st.storeBloom C F tokens = .error e) ∨
      bloomFault C F tokens = none ∧ ∃ cs, (cs = st.chunkStore ∨
          cs = st.chunkStore.put C (newBloom tokens)) ∧
        st.storeBloom C F tokens = .ok (bloomID C tokens, { st with chunkStore := cs }) := by
  unfold TreeStorage.storeBloom bloomFault bloomID
  by_cases ht : tokens = []
  · rw [if_pos ht, if_pos ht, if_pos ht]
    exact Or.inr ⟨rfl, _, Or.inl rfl, rfl⟩
  · rw [if_neg ht, if_neg ht, if_neg ht]
    rcases Disk.setChunk_cases C F (newBloom tokens) st.chunkStore with ⟨e, hF, hset⟩ | ⟨hF, hset⟩
    · exact Or.inl ⟨e, hF, by rw [hset]⟩
    · exact Or.inr ⟨hF, _, Or.inr rfl, by rw [hset]⟩

/-- `Commit`, where nothing is deleted: the error of the bloom filter, or else, if no round of a
loop panics, the flush after all visits. -/
theorem commitTrees_returns {T : TreeType → Smt.EntryTrie} {L : Forest} (F : Faults)
    (sort : SortSlice) (order : CommitOrder) (hdel : o.NoneDeleted)
    (hst : ∀ ty, Smt.StandsFor C.keccak st.chunkStore.nodes (st.tree ty) (T ty) (L ty))
    (time : UInt64) (n : ℕ) (parentHash : Hash) :
    (∃ e st₁, bloomFault C F order.tokens = some e ∧
      commitTrees C F sort order time n parentHash o st = .ok (.error e, st₁)) ∨
    bloomFault C F order.tokens = none ∧ (o.Regular sort → ∃ st₃,
      BeforeFlush C F sort order o st st₃ ∧ Visited C F sort o st T L order st₃ ∧
      commitTrees C F sort order time n parentHash o st = (do
        let st' ← st₃.flush C F
        .ok (.ok (st'.makeHeaderHash time n parentHash (bloomID C order.tokens)), st'))) := by
  obtain ⟨st₁, h₁, hv₁⟩ := tokens_returns F sort hdel hst order.tokens
  -- the filter is the only thing whose error `Commit` returns
  rcases storeBloom_cases C F order.tokens st₁ with ⟨e, hfault, hb⟩ | ⟨hfault, cs, hcs, hb⟩
  · refine Or.inl ⟨e, st₁, hfault, ?_⟩
    rw [commitTrees, h₁]
    simp only [bind, Except.bind, hb]
  · have hv₂ : Visited C F sort o st T L ⟨⟨order.tokens, [], []⟩, []⟩
        { st₁ with chunkStore := cs } := by
      rcases hcs with rfl | rfl
      · exact hv₁
      · exact hv₁.chunk _
    refine Or.inr ⟨hfault, fun hreg => ?_⟩
    obtain ⟨st₃, h₃, hv₃⟩ := commitObjects_returns order hreg hv₂
    refine ⟨st₃, ⟨st₁, _, _, h₁, hb, h₃⟩, hv₃, ?_⟩
    rw [commitTrees, h₁]
    simp only [bind, Except.bind, hb, h₃]

/-! ## The flush -/

/-- The trees in the order in which they are flushed. -/
def TreeType.flushed : List TreeType := [.transaction, .account, .token, .anchor, .chain]

/-- Flushes of several trees into one store. -/
def Disk.flushAll (C : Crypto) (F : Faults) : List Smt.Node → Disk → Go (List Smt.Node × Disk)
  | [], cs => .ok ([], cs)
  | t :: ts, cs => do
      let (t, cs) ← cs.flush C F t
      let (ts, cs) ← flushAll C F ts cs
      .ok (t :: ts, cs)

/-- `Flush` of the storage is a flush of its trees. -/
theorem TreeStorage.flush_eq_ok : st.flush C F = .ok st' ↔
    Disk.flushAll C F (TreeType.flushed.map st.tree) st.chunkStore
      = .ok (TreeType.flushed.map st'.tree, st'.chunkStore) := by
  simp only [TreeStorage.flush, TreeType.flushed, List.map_cons, List.map_nil, Disk.flushAll,
    bind_eq_ok]
  constructor
  · rintro ⟨x₁, h₁, x₂, h₂, x₃, h₃, x₄, h₄, x₅, h₅, h⟩
    obtain rfl := Except.ok.inj h
    exact ⟨x₁, h₁, _, ⟨x₂, h₂, _, ⟨x₃, h₃, _, ⟨x₄, h₄, _, ⟨x₅, h₅, _, rfl, rfl⟩, rfl⟩, rfl⟩, rfl⟩,
      rfl⟩
  · rintro ⟨x₁, h₁, y₁, ⟨x₂, h₂, y₂,
      ⟨x₃, h₃, y₃, ⟨x₄, h₄, y₄, ⟨x₅, h₅, y₅, e₅, e₄⟩, e₃⟩, e₂⟩, e₁⟩, h⟩
    obtain rfl := Except.ok.inj e₅
    obtain rfl := Except.ok.inj e₄
    obtain rfl := Except.ok.inj e₃
    obtain rfl := Except.ok.inj e₂
    obtain rfl := Except.ok.inj e₁
    refine ⟨x₁, h₁, x₂, h₂, x₃, h₃, x₄, h₄, x₅, h₅, ?_⟩
    simp only [Except.ok.injEq, Prod.mk.injEq, List.cons.injEq, and_true] at h
    obtain ⟨⟨hx₁, hx₂, hx₃, hx₄, hx₅⟩, hcs⟩ := h
    rw [hx₁, hx₂, hx₃, hx₄, hx₅, hcs]
    rfl

section
variable {H : Set Bytes} (hcf : Smt.CollisionFree C.keccak H) {tree : TreeType → Smt.Node}
  {T : TreeType → Smt.EntryTrie} {L : Forest}
include hcf

/-- The flushes return exactly when no terminal of any tree is at the bottom; then the roots are
those of the contents. -/
theorem flushAll_decided {l : List TreeType} {cs : Disk}
    (hn : ∀ ty ∈ l, Smt.StandsFor C.keccak cs.nodes (tree ty) (T ty) (L ty))
    (hpairs : ∀ ty, Smt.hashedPairs C.keccak (L ty) Smt.treeDepth ⊆ H)
    (hH : ∀ i r, Disk.flushAll C F ((l.map tree).take i) cs = .ok r →
      r.2.nodes.ChunksIn C.keccak H) :
    ((∀ ty ∈ l, (T ty).Shallow Smt.nkeypieces) ∧ ∃ nodes cs',
      Disk.flushAll C F (l.map tree) cs = .ok (nodes, cs') ∧
      nodes.map Smt.SparseMerkleTree.rootMerkle = l.map fun ty => (L ty).root C.keccak) ∨
    (¬ (∀ ty ∈ l, (T ty).Shallow Smt.nkeypieces) ∧
      ∃ e, Disk.flushAll C F (l.map tree) cs = .error e) := by
  induction l generalizing cs with
  | nil => exact Or.inl ⟨fun _ hty => (by cases hty), [], cs, rfl, rfl⟩
  | cons ty l ih =>
    rw [List.forall_mem_cons] at hn ⊢
    obtain ⟨hty, hrest⟩ := hn
    rw [List.map_cons] at hH ⊢
    rcases hty.flush with ⟨hsh, n', writes, hf, hmerkle, hwrites⟩ | ⟨hsh, e, hf⟩
    · set cs₁ : Disk := { cs with
        nodes := cs.nodes.setChunks (writes.filter fun w => (F w.1).isNone) } with hcs₁
      have hflush : cs.flush C F (tree ty) = .ok (n', cs₁) := by
        rw [Disk.flush, hf]
        rfl
      have hcons : ∀ ts r, Disk.flushAll C F ts cs₁ = .ok r →
          Disk.flushAll C F (tree ty :: ts) cs = .ok (n' :: r.1, r.2) := by
        intro ts r h
        rw [Disk.flushAll, hflush]
        simp only [bind, Except.bind, h]
      -- the other trees still stand for the same
      have hkeep : cs.nodes.Keeps C.keccak cs₁.nodes := by
        apply Smt.keeps_setChunks hcf (hpairs ty)
        · intro w hw
          exact hwrites w (List.mem_filter.mp hw).1
        · exact hH 1 _ (hcons [] ([], cs₁) rfl)
      rcases @ih cs₁ (fun ty hty => (hrest ty hty).keeps hkeep)
          (fun i r h => hH (i + 1) (n' :: r.1, r.2) (hcons _ r h)) with
        ⟨hall, nodes, cs', hr, hroots⟩ | ⟨hall, e, hr⟩
      · refine Or.inl ⟨⟨hsh, hall⟩, n' :: nodes, cs', hcons _ _ hr, ?_⟩
        rw [List.map_cons, List.map_cons, hmerkle, hroots]
      · refine Or.inr ⟨fun h => hall h.2, e, ?_⟩
        rw [Disk.flushAll, hflush]
        simp only [bind, Except.bind, hr]
    · refine Or.inr ⟨fun h => hsh h.1, e, ?_⟩
      rw [Disk.flushAll, Disk.flush, hf]
      rfl

/-- The flush of the storage. -/
theorem TreeStorage.flush_decided
    (hn : ∀ ty, Smt.StandsFor C.keccak st.chunkStore.nodes (st.tree ty) (T ty) (L ty))
    (hpairs : ∀ ty, Smt.hashedPairs C.keccak (L ty) Smt.treeDepth ⊆ H)
    (hH : ∀ i r, Disk.flushAll C F ((TreeType.flushed.map st.tree).take i) st.chunkStore = .ok r →
      r.2.nodes.ChunksIn C.keccak H) :
    ((∀ ty, (T ty).Shallow Smt.nkeypieces) ∧ ∃ st', st.flush C F = .ok st' ∧
      ∀ ty, Smt.SparseMerkleTree.rootMerkle (st'.tree ty) = (L ty).root C.keccak) ∨
    (¬ (∀ ty, (T ty).Shallow Smt.nkeypieces) ∧ ∀ st', st.flush C F ≠ .ok st') := by
  have hall : ∀ ty, ty ∈ TreeType.flushed := by
    intro ty
    cases ty <;> simp [TreeType.flushed]
  rcases flushAll_decided hcf (fun ty _ => hn ty) hpairs hH with
    ⟨hsh, nodes, cs, hf, hroots⟩ | ⟨hsh, e, hf⟩
  · refine Or.inl ⟨fun ty => hsh ty (hall ty), ?_⟩
    have hlen := congrArg List.length hroots
    rw [List.length_map, List.length_map] at hlen
    -- the five trees, in the order in which they are flushed
    match nodes, hlen with
    | [n₁, n₂, n₃, n₄, n₅], _ =>
      simp only [TreeType.flushed, List.map_cons, List.map_nil, List.cons.injEq, and_true] at hroots
      obtain ⟨h₁, h₂, h₃, h₄, h₅⟩ := hroots
      refine ⟨⟨cs, n₁, n₂, n₃, n₄, n₅⟩, TreeStorage.flush_eq_ok.mpr hf, fun ty => ?_⟩
      cases ty with
      | transaction => exact h₁
      | account => exact h₂
      | token => exact h₃
      | anchor => exact h₄
      | chain => exact h₅
  · refine Or.inr ⟨fun h => hsh fun ty _ => h ty, fun st' hst' => ?_⟩
    rw [TreeStorage.flush_eq_ok.mp hst'] at hf
    cases hf

end

end GoPlasma.Plasma
