import GoPlasma.Plasma.OrderTheorems

/-!
# Reading what was committed

A run of commits into one chunk store: each opens the trees at the header of an earlier commit, uses
them and commits objects to them (`CommitRun`). With each header goes what its trees hold. The
invariant is `Committed`: every header can be opened, and the trees have what they should
(`Committed.opened`). So a state database that is opened at the header of a commit reads every
object that was committed, and everything else as at the header before (`commit_readable`).

This needs that no `SetChunk` fails and that every object can be stored at all (`Objects.Storable`):
`Commit` drops the errors of its calls.
-/

namespace GoPlasma.Plasma

variable {C : Crypto} {sort : SortSlice} {o : Objects} {disk disk' : Disk} {st st' : TreeStorage}

/-! ## Reading at a header -/

section
variable (C : Crypto) (disk : Disk) (hd : Header)

/-- What a new state database at the header reads of a token. -/
def tokenAt (tokenID : UInt64) : Go (RecordRead Token) := do
  let (r, _) ← (treeStorage C Smt.Store.getChunk).getToken tokenID (openStorage hd disk)
  .ok r

/-- What it reads of an account. -/
def accountAt (key : Smt.Key) : Go (RecordRead Account) := do
  let (r, _) ← (treeStorage C Smt.Store.getChunk).getAccount key (openStorage hd disk)
  .ok r

/-- What it reads of a chain. -/
def chainAt (chainID : UInt64) : Go (RecordRead AnchorBlock) := do
  let (r, _) ← (treeStorage C Smt.Store.getChunk).getChain chainID (openStorage hd disk)
  .ok r

end

/-- What is read for an entry of a tree. -/
def recordOf {α : Type} (decode : Bytes → Option α) (chunks : Smt.Store) :
    Option Smt.Entry → RecordRead α
  | none => .notFound
  | some e =>
    match chunks.getChunk e.value with
    | .err => .chunkErr "chunk not read"
    | .notFound => .chunkMissing
    | .found encoded =>
      match decode encoded with
      | none => .decodeErr (decodeError encoded)
      | some a => .record a

theorem readRecord_eq {α : Type} {decode : Bytes → Option α} {chunks : Smt.Store}
    {res : Smt.SparseMerkleTree.Found} {e : Option Smt.Entry}
    (hans : res.answer = Smt.answerOf e) (herr : res.err = none) :
    readRecord decode chunks.getChunk res = recordOf decode chunks e := by
  unfold readRecord
  rw [herr]
  rcases e with _ | e
  · have hfound : res.found = false := congrArg (·.2.1) hans
    rw [hfound]
    rfl
  · have hfound : res.found = true := congrArg (·.2.1) hans
    have hv : res.v0 = e.value := congrArg (·.1) hans
    rw [hfound, hv]
    rfl

variable (C) in
/-- The trees of the storage stand for the contents. -/
def Standing (L : Forest) (st : TreeStorage) : Prop :=
  ∀ ty, ∃ t, Smt.StandsFor C.keccak st.chunkStore.nodes (st.tree ty) t (L ty)

section
variable {L : Forest} {st : TreeStorage} (h : Standing C L st)
include h

theorem Standing.getToken (tokenID : UInt64) :
    ∃ st', (treeStorage C Smt.Store.getChunk).getToken tokenID st
      = .ok (recordOf Token.decode st.chunkStore.chunks (L .token (idKey tokenID)), st') := by
  obtain ⟨t, ht⟩ := h .token
  obtain ⟨res, n, hget, -, hans, herr⟩ := ht.get (idKey tokenID)
  refine ⟨{ st with tokenStorage := n }, ?_⟩
  simp only [treeStorage, bind_eq_ok]
  exact ⟨(res, n), hget, by rw [readRecord_eq hans herr]⟩

theorem Standing.getAccount (key : Smt.Key) :
    ∃ st', (treeStorage C Smt.Store.getChunk).getAccount key st
      = .ok (recordOf Account.decode st.chunkStore.chunks (L .account key), st') := by
  obtain ⟨t, ht⟩ := h .account
  obtain ⟨res, n, hget, -, hans, herr⟩ := ht.get key
  refine ⟨{ st with accountStorage := n }, ?_⟩
  simp only [treeStorage, bind_eq_ok]
  exact ⟨(res, n), hget, by rw [readRecord_eq hans herr]⟩

theorem Standing.getChain (chainID : UInt64) :
    ∃ st', (treeStorage C Smt.Store.getChunk).getChain chainID st
      = .ok (recordOf AnchorBlock.decode st.chunkStore.chunks (L .chain (idKey chainID)), st') := by
  obtain ⟨t, ht⟩ := h .chain
  obtain ⟨res, n, hget, -, hans, herr⟩ := ht.get (idKey chainID)
  refine ⟨{ st with chainStorage := n }, ?_⟩
  simp only [treeStorage, bind_eq_ok]
  exact ⟨(res, n), hget, by rw [readRecord_eq hans herr]⟩

end

section
variable {L : Forest} {hd : Header} (h : Standing C L (openStorage hd disk))
include h

theorem tokenAt_eq (tokenID : UInt64) :
    tokenAt C disk hd tokenID
      = .ok (recordOf Token.decode disk.chunks (L .token (idKey tokenID))) := by
  obtain ⟨st', hread⟩ := h.getToken tokenID
  rw [tokenAt, hread]
  rfl

theorem accountAt_eq (key : Smt.Key) :
    accountAt C disk hd key = .ok (recordOf Account.decode disk.chunks (L .account key)) := by
  obtain ⟨st', hread⟩ := h.getAccount key
  rw [accountAt, hread]
  rfl

theorem chainAt_eq (chainID : UInt64) :
    chainAt C disk hd chainID
      = .ok (recordOf AnchorBlock.decode disk.chunks (L .chain (idKey chainID))) := by
  obtain ⟨st', hread⟩ := h.getChain chainID
  rw [chainAt, hread]
  rfl

end

/-! ## The chunks -/

variable (C) in
/-- The strings that are stored under their own hashes. -/
def Disk.filed (disk : Disk) : Set Bytes := {b | (chunkKey C b, b) ∈ disk.chunks}

variable (C) in
/-- Every string that is stored under its own hash is found there. -/
def Disk.Finds (disk : Disk) : Prop :=
  ∀ b ∈ disk.filed C, disk.chunks.lookup (chunkKey C b) = some b

variable (C) in
/-- A chunk that may be stored next to these: it has its own hash, or a key under which no string is
stored that has this hash. -/
def Disk.Admits (k v : Bytes) (disk : Disk) : Prop :=
  k = chunkKey C v ∨ ∀ b ∈ disk.filed C, k ≠ chunkKey C b

theorem Disk.Finds.write {k v : Bytes} (h : disk.Finds C) (hadm : disk.Admits C k v)
    (hcf : Smt.CollisionFree C.keccak
      (Disk.filed C { disk with chunks := (k, v) :: disk.chunks })) :
    Disk.Finds C { disk with chunks := (k, v) :: disk.chunks } := by
  intro b hb
  rw [List.lookup_cons]
  by_cases hk : chunkKey C b = k
  · -- whatever is stored under this hash is the string itself
    rw [beq_iff_eq.mpr hk]
    have hown : k = chunkKey C v := by
      rcases List.mem_cons.mp hb with heq | hold
      · obtain ⟨-, hv⟩ := Prod.mk.inj heq
        rw [← hk, hv]
      · rcases hadm with hown | hfree
        · exact hown
        · exact (hfree b hold hk.symm).elim
    have hv : v ∈ Disk.filed C { disk with chunks := (k, v) :: disk.chunks } := by
      change (chunkKey C v, v) ∈ (k, v) :: disk.chunks
      rw [← hown]
      exact List.mem_cons_self
    have hkey : chunkKey C b = chunkKey C v := hk.trans hown
    rw [hcf.inj hb hv (Subtype.ext hkey)]
  · rw [beq_eq_false_iff_ne.mpr hk]
    rcases List.mem_cons.mp hb with heq | hold
    · exact (hk (Prod.mk.inj heq).1).elim
    · exact h b hold

/-- What is stored under the hash of a string is the string. -/
theorem Disk.eq_of_lookup {new : Smt.Store} {b v : Bytes} (hsub : ∀ x ∈ new, x ∈ disk'.chunks)
    (hown : ∀ x ∈ new, x.1 = chunkKey C x.2)
    (hcf : Smt.CollisionFree C.keccak (disk'.filed C)) (hb : b ∈ disk'.filed C)
    (hl : new.lookup (chunkKey C b) = some v) : v = b := by
  have hmem := Smt.mem_of_lookup hl
  have hkey : chunkKey C b = chunkKey C v := hown _ hmem
  have hv : v ∈ disk'.filed C := by
    change (chunkKey C v, v) ∈ disk'.chunks
    rw [← hkey]
    exact hsub _ hmem
  exact (hcf.inj hb hv (Subtype.ext hkey)).symm

theorem Disk.Finds.extends (h : disk.Finds C) (hext : disk.Extends C disk')
    (hcf : Smt.CollisionFree C.keccak (disk'.filed C)) : disk'.Finds C := by
  obtain ⟨new, hnew, hown⟩ := hext
  intro b hb
  rw [hnew, List.lookup_append]
  rcases hl : new.lookup (chunkKey C b) with _ | v
  · have hold : b ∈ disk.filed C := by
      have hb' : (chunkKey C b, b) ∈ disk'.chunks := hb
      rw [hnew] at hb'
      rcases List.mem_append.mp hb' with hmem | hmem
      · have := List.lookup_eq_none_iff.mp hl _ hmem
        simp at this
      · exact hmem
    exact h b hold
  · rw [Disk.eq_of_lookup (fun x hx => by rw [hnew]; exact List.mem_append_left _ hx)
      hown hcf hb hl]
    rfl

/-- A string that is found is found in a store with more chunks. -/
theorem Disk.Extends.lookup {b : Bytes} (hext : disk.Extends C disk')
    (hcf : Smt.CollisionFree C.keccak (disk'.filed C))
    (hb : disk.chunks.lookup (chunkKey C b) = some b) :
    disk'.chunks.lookup (chunkKey C b) = some b := by
  have hfiled : b ∈ disk'.filed C := hext.mem (Smt.mem_of_lookup hb)
  obtain ⟨new, hnew, hown⟩ := hext
  rw [hnew, List.lookup_append]
  rcases hl : new.lookup (chunkKey C b) with _ | v
  · exact hb
  · rw [Disk.eq_of_lookup (fun x hx => by rw [hnew]; exact List.mem_append_left _ hx) hown hcf
      hfiled hl]
    rfl

variable (C) in
/-- The values of the contents are hashes of stored strings. -/
def FiledIn (disk : Disk) (m : Smt.Contents) : Prop :=
  ∀ k e, m k = some e → ∃ b ∈ disk.filed C, e.value = chunkKey C b

/-- The same is read for an entry after more has been stored. -/
theorem recordOf_eq {α : Type} {decode : Bytes → Option α} {m : Smt.Contents}
    (hm : FiledIn C disk m) (hf : disk.Finds C) (hf' : disk'.Finds C)
    (hsub : disk.filed C ⊆ disk'.filed C) (k : Smt.Key) :
    recordOf decode disk'.chunks (m k) = recordOf decode disk.chunks (m k) := by
  rcases he : m k with _ | e
  · rfl
  · obtain ⟨b, hb, hv⟩ := hm k e he
    simp only [recordOf, Smt.Store.getChunk, hv, hf b hb, hf' b (hsub hb)]

/-- A stored record is read. -/
theorem recordOf_record {α : Type} {decode : Bytes → Option α} {m : Smt.Contents} {k : Smt.Key}
    {b : Bytes} {a : α} (hm : (m k).map Smt.Entry.value = some (chunkKey C b))
    (hf : disk.Finds C) (hb : b ∈ disk.filed C) (hdec : decode b = some a) :
    recordOf decode disk.chunks (m k) = .record a := by
  obtain ⟨e, he, hv⟩ := Option.map_eq_some_iff.mp hm
  simp only [he, recordOf, Smt.Store.getChunk, hv, hf b hb, hdec]

/-! ## Using the storage -/

variable (C) in
/-- What a state database does with its storage before `Commit`: it reads, and it stores chunks. -/
inductive Used (st : TreeStorage) : TreeStorage → Prop
  | refl : Used st st
  | getToken {st₁ st₂ : TreeStorage} {r : RecordRead Token} (tokenID : UInt64) :
      Used st st₁ → (treeStorage C Smt.Store.getChunk).getToken tokenID st₁ = .ok (r, st₂) →
      Used st st₂
  | hasToken {st₁ st₂ : TreeStorage} {r : Except String Bool} (tokenID : UInt64) :
      Used st st₁ → (treeStorage C Smt.Store.getChunk).hasToken tokenID st₁ = .ok (r, st₂) →
      Used st st₂
  | getAccount {st₁ st₂ : TreeStorage} {r : RecordRead Account} (key : Smt.Key) :
      Used st st₁ → (treeStorage C Smt.Store.getChunk).getAccount key st₁ = .ok (r, st₂) →
      Used st st₂
  | getChain {st₁ st₂ : TreeStorage} {r : RecordRead AnchorBlock} (chainID : UInt64) :
      Used st st₁ → (treeStorage C Smt.Store.getChunk).getChain chainID st₁ = .ok (r, st₂) →
      Used st st₂
  | setChunk {st₁ st₂ : TreeStorage} {r : Except String Unit} (k v : Bytes) :
      Used st st₁ → st₁.chunkStore.Admits C k v →
      (treeStorage C Smt.Store.getChunk).setChunk k v st₁ = .ok (r, st₂) → Used st st₂

/-- A read of one tree. -/
theorem Standing.read {L : Forest} {st₁ st₂ : TreeStorage} (h : Standing C L st₁) (ty : TreeType)
    {k : Smt.Key} {res : Smt.SparseMerkleTree.Found}
    (hget : Smt.SparseMerkleTree.get C.keccak st₁.chunkStore.nodes.getChunk k (st₁.tree ty)
      = .ok (res, st₂.tree ty))
    (hstore : st₂.chunkStore = st₁.chunkStore)
    (hother : ∀ ty', ty' ≠ ty → st₂.tree ty' = st₁.tree ty') : Standing C L st₂ := by
  intro ty'
  rw [hstore]
  by_cases hty : ty' = ty
  · subst hty
    obtain ⟨t, ht⟩ := h ty'
    obtain ⟨res', n, hget', hn, -⟩ := ht.get k
    obtain ⟨-, rfl⟩ := Prod.mk.inj (Except.ok.inj (hget.symm.trans hget'))
    exact ⟨t, hn⟩
  · rw [hother ty' hty]
    exact h ty'

/-- What is left of a storage that has been used. -/
structure Untouched (C : Crypto) (st st' : TreeStorage) : Prop where
  nodes : st'.chunkStore.nodes = st.chunkStore.nodes
  chunks : ∀ x ∈ st.chunkStore.chunks, x ∈ st'.chunkStore.chunks
  standing : ∀ L, Standing C L st → Standing C L st'
  finds : Smt.CollisionFree C.keccak (st'.chunkStore.filed C) → st.chunkStore.Finds C →
    st'.chunkStore.Finds C

theorem Untouched.read {st₁ st₂ : TreeStorage} (h : Untouched C st st₁)
    (hstore : st₂.chunkStore = st₁.chunkStore)
    (hstanding : ∀ L, Standing C L st₁ → Standing C L st₂) : Untouched C st st₂ where
  nodes := by rw [hstore, h.nodes]
  chunks := by rw [hstore]; exact h.chunks
  standing := fun L hL => hstanding L (h.standing L hL)
  finds := by rw [hstore]; exact h.finds

theorem Used.untouched (h : Used C st st') : Untouched C st st' := by
  -- a read may load nodes of its tree, and leaves the other trees and the store alone
  induction h with
  | refl => exact ⟨rfl, fun _ hx => hx, fun _ h => h, fun _ h => h⟩
  | getToken _ _ h ih | hasToken _ _ h ih =>
    simp only [treeStorage, bind_eq_ok] at h
    obtain ⟨⟨res, t⟩, hget, h⟩ := h
    obtain ⟨-, rfl⟩ := Prod.mk.inj (Except.ok.inj h)
    refine ih.read rfl fun L hL => hL.read .token hget rfl fun ty hty => ?_
    cases ty <;> first | rfl | exact (hty rfl).elim
  | getAccount k _ h ih =>
    simp only [treeStorage, bind_eq_ok] at h
    obtain ⟨⟨res, t⟩, hget, h⟩ := h
    obtain ⟨-, rfl⟩ := Prod.mk.inj (Except.ok.inj h)
    refine ih.read rfl fun L hL => hL.read .account hget rfl fun ty hty => ?_
    cases ty <;> first | rfl | exact (hty rfl).elim
  | getChain id _ h ih =>
    simp only [treeStorage, bind_eq_ok] at h
    obtain ⟨⟨res, t⟩, hget, h⟩ := h
    obtain ⟨-, rfl⟩ := Prod.mk.inj (Except.ok.inj h)
    refine ih.read rfl fun L hL => hL.read .chain hget rfl fun ty hty => ?_
    cases ty <;> first | rfl | exact (hty rfl).elim
  | @setChunk st₁ st₂ r k v _ hadm h ih =>
    obtain ⟨-, rfl⟩ := Prod.mk.inj (Except.ok.inj h)
    refine ⟨ih.nodes, fun x hx => List.mem_cons_of_mem _ (ih.chunks x hx), ?_, ?_⟩
    · intro L hL ty
      have hty := ih.standing L hL ty
      cases ty <;> exact hty
    · intro hcf hf
      refine Disk.Finds.write (ih.finds (hcf.mono ?_) hf) hadm hcf
      exact fun b hb => List.mem_cons_of_mem _ hb

/-! ## What can be stored -/

variable (C) in
/-- The objects can be stored and read back: nothing is marked as exited, no two accounts share
their key, no key is all zero, all numbers and encodings are in the range of the format, and no hash
of a transaction is the one that stands for an absent key. -/
structure Objects.Storable (o : Objects) : Prop where
  noneDeleted : o.NoneDeleted
  shortDistinct : o.ShortDistinct
  token : ∀ id s, o.tokenObjects.lookup id = some s → id ≠ 0 ∧ s.token.prevBlock < 2 ^ 64
  transaction : ∀ id h, o.thashList.lookup id = some h → h ≠ C.keccak []
  account : ∀ addr a, o.accountObjects.lookup addr = some (some a) →
    shortAddr addr ≠ Smt.zeroKey ∧ 0 ≤ a.denomination ∧ 0 ≤ a.balance ∧
      (TreeStorage.encodedAccount a).length < 2 ^ 64
  chain : ∀ id c, o.chainObjects.lookup id = some c →
    id ≠ 0 ∧ c.bytes.length < 2 ^ 64 ∧ ∀ tx ∈ c.anchors, tx.blockHash.isSome
  anchor : ∀ id a, o.atxList.lookup id = some a → ∀ tx ∈ a.anchors, tx.blockHash.isSome

theorem idKey_ne_zeroKey {id : UInt64} (h : id ≠ 0) : idKey id ≠ Smt.zeroKey := by
  intro heq
  apply h
  have hnum := congrArg Smt.num heq
  rw [idKey, Smt.num_keyOf id.toNat_lt, Smt.num_zeroKey] at hnum
  exact UInt64.toNat_inj.mp hnum

section
variable {order : CommitOrder} {x : Smt.Key × Bytes}

theorem accepted_noFaults (k : Smt.Key) (b : Bytes) : accepted C noFaults k b = some (k, b) :=
  if_pos rfl

theorem mem_records_token : x ∈ records C noFaults sort o order .token ↔
    ∃ id ∈ order.tokens, ∃ s, o.tokenObjects.lookup id = some s ∧
      x = (idKey id, s.token.encode) := by
  simp only [records, List.mem_filterMap, tokenEntry, Option.bind_eq_some_iff, accepted_noFaults,
    Option.some.injEq, eq_comm (b := x)]

theorem mem_records_account : x ∈ records C noFaults sort o order .account ↔
    ∃ addr ∈ order.accounts, ∃ a, o.accountObjects.lookup addr = some (some a) ∧
      x = (shortAddr addr, TreeStorage.encodedAccount a) := by
  simp only [records, List.mem_filterMap, accountEntry, Option.bind_eq_some_iff, accepted_noFaults,
    Option.some.injEq]
  constructor
  · rintro ⟨addr, haddr, _, hlook, a, rfl, rfl⟩
    exact ⟨addr, haddr, a, hlook, rfl⟩
  · rintro ⟨addr, haddr, a, hlook, rfl⟩
    exact ⟨addr, haddr, _, hlook, a, rfl, rfl⟩

theorem mem_records_chain : x ∈ records C noFaults sort o order .chain ↔
    ∃ id ∈ order.chains, ∃ c, o.chainObjects.lookup id = some c ∧ x = (idKey id, c.bytes) := by
  simp only [records, List.mem_filterMap, chainEntry, Option.bind_eq_some_iff, accepted_noFaults,
    Option.some.injEq, eq_comm (b := x)]

/-- The keys of the records are not zero, and no record is empty. -/
theorem Objects.Storable.records (hs : o.Storable C) {ty : TreeType} (hty : ty.hashed = true)
    (hx : x ∈ records C noFaults sort o order ty) : x.1 ≠ Smt.zeroKey ∧ x.2 ≠ [] := by
  have hencode : ∀ i : Rlp.Item, Rlp.encode i ≠ [] :=
    fun i => List.ne_nil_of_length_pos (Rlp.length_encode_pos i)
  cases ty with
  | token =>
    obtain ⟨id, -, s, hlook, rfl⟩ := mem_records_token.mp hx
    exact ⟨idKey_ne_zeroKey (hs.token id s hlook).1, hencode _⟩
  | account =>
    obtain ⟨addr, -, a, hlook, rfl⟩ := mem_records_account.mp hx
    obtain ⟨hkey, hden, hbal, -⟩ := hs.account addr a hlook
    refine ⟨hkey, ?_⟩
    rw [TreeStorage.encodedAccount, Account.encode, if_neg (by omega)]
    exact hencode _
  | chain =>
    obtain ⟨id, -, c, hlook, rfl⟩ := mem_records_chain.mp hx
    exact ⟨idKey_ne_zeroKey (hs.chain id c hlook).1, hencode _⟩
  | anchor => cases hty
  | transaction => cases hty

/-- The values that are inserted can be the values of leaves. -/
theorem Objects.Storable.inserts (hs : o.Storable C) {H : Set Bytes}
    (hcf : Smt.CollisionFree C.keccak H) (hnil : [] ∈ H)
    (hH : ∀ ty : TreeType, ty.hashed = true →
      ∀ x ∈ Plasma.records C noFaults sort o order ty, x.2 ∈ H)
    (ty : TreeType) (hx : x ∈ inserts C noFaults sort o order ty) :
    32 ≤ x.2.length ∧ x.2 ≠ (C.keccak []).1 := by
  obtain ⟨y, hy, rfl⟩ := List.mem_map.mp hx
  -- two trees hold the records themselves, the others the hashes of their chunks
  by_cases hty : ty.hashed = true
  · have hval : ty.value C y.2 = chunkKey C y.2 := if_pos hty
    rw [hval]
    refine ⟨(C.keccak _).2.ge, ?_⟩
    intro heq
    exact (hs.records hty hy).2 (hcf.inj (hH ty hty y hy) hnil (Subtype.ext heq))
  · have hval : ty.value C y.2 = y.2 := if_neg hty
    rw [hval]
    cases ty with
    | transaction =>
      simp only [Plasma.records, List.mem_filterMap, transactionEntry, Option.map_eq_some_iff] at hy
      obtain ⟨id, -, z, -, rfl⟩ := hy
      refine ⟨((o.thashList.lookup id).getD zeroHash).2.ge, ?_⟩
      intro heq
      rcases hl : o.thashList.lookup id with _ | h
      · rw [hl] at heq
        exact hcf.ne_zero [] hnil (Subtype.ext heq.symm)
      · rw [hl] at heq
        exact hs.transaction id h hl (Subtype.ext heq)
    | anchor =>
      simp only [Plasma.records, List.mem_filterMap, anchorEntry, Option.bind_eq_some_iff] at hy
      obtain ⟨id, -, a, hlook, hy⟩ := hy
      split at hy
      · rename_i b hb
        obtain rfl := Option.some.inj hy
        obtain ⟨hanchors, hne⟩ := AnchorBlock.sort_anchors hb
        obtain ⟨tx, htx⟩ := List.exists_mem_of_ne_nil _ hne
        have hmem : tx ∈ a.anchors := (sort.2 a.anchors).1.mem_iff.mp htx
        obtain ⟨h, hh⟩ := Option.isSome_iff_exists.mp (hs.anchor id a hlook tx hmem)
        have hlen := AnchorBlock.length_bytes (hanchors ▸ htx) hh
        refine ⟨hlen.le, ?_⟩
        intro (heq : b.bytes = (C.keccak []).1)
        rw [heq, (C.keccak []).2] at hlen
        omega
      · cases hy
    | token => exact (hty rfl).elim
    | account => exact (hty rfl).elim
    | chain => exact (hty rfl).elim

end

/-! ## The store grows -/

/-- Nothing is lost. -/
structure Disk.Sub (cs cs' : Disk) : Prop where
  chunks : ∀ x ∈ cs.chunks, x ∈ cs'.chunks
  nodes : ∀ x ∈ cs.nodes, x ∈ cs'.nodes

theorem Disk.Sub.trans {cs cs₁ cs₂ : Disk} (h : cs.Sub cs₁) (h' : cs₁.Sub cs₂) : cs.Sub cs₂ :=
  ⟨fun x hx => h'.chunks x (h.chunks x hx), fun x hx => h'.nodes x (h.nodes x hx)⟩

variable (C) in
/-- More chunks are stored under their own hashes, and no nodes. -/
structure Disk.Grows (cs cs' : Disk) : Prop where
  chunks : cs.Extends C cs'
  nodes : cs'.nodes = cs.nodes

theorem Disk.Grows.refl (cs : Disk) : cs.Grows C cs := ⟨.refl cs, rfl⟩

theorem Disk.grows_put (chunk : Bytes) (cs : Disk) : cs.Grows C (cs.put C chunk) :=
  ⟨(Disk.Extends.refl cs).put chunk, rfl⟩

theorem Disk.Grows.trans {cs cs₁ cs₂ : Disk} (h : cs.Grows C cs₁) (h' : cs₁.Grows C cs₂) :
    cs.Grows C cs₂ := by
  obtain ⟨new, hnew, hown⟩ := h.chunks
  obtain ⟨new', hnew', hown'⟩ := h'.chunks
  refine ⟨⟨new' ++ new, by rw [hnew', hnew, List.append_assoc], ?_⟩, h'.nodes.trans h.nodes⟩
  intro x hx
  rcases List.mem_append.mp hx with hx | hx
  · exact hown' x hx
  · exact hown x hx

theorem Disk.Grows.sub {cs cs' : Disk} (h : cs.Grows C cs') : cs.Sub cs' :=
  ⟨fun _ hx => h.chunks.mem hx, fun x hx => by rwa [h.nodes]⟩

section
variable {F : Faults}

theorem StoresOne.grows (h : StoresOne C st st') : st.chunkStore.Grows C st'.chunkStore := by
  rcases h.chunkStore with hsame | ⟨chunk, hput⟩
  · rw [hsame]
    exact .refl _
  · rw [hput]
    exact Disk.grows_put _ _

theorem updateAnchor_grows {chainID : UInt64} (h : st.updateAnchor C F sort o chainID = .ok st') :
    st.chunkStore.Grows C st'.chunkStore := by
  unfold TreeStorage.updateAnchor at h
  split at h
  · rw [← Except.ok.inj h]
    exact .refl _
  · simp only [bind_eq_ok] at h
    obtain ⟨b, -, t, -, h⟩ := h
    rw [← Except.ok.inj h]
    rcases Disk.setChunk_cases C F b.bytes st.chunkStore with ⟨e, -, hset⟩ | ⟨-, hset⟩
    · simp only [hset]
      exact .refl _
    · simp only [hset]
      exact Disk.grows_put _ _

/-- A loop whose rounds only store chunks. -/
theorem foldlM_grows {α : Type} {f : TreeStorage → α → Go TreeStorage} {l : List α}
    (hf : ∀ {st st' : TreeStorage} {a}, f st a = .ok st' → st.chunkStore.Grows C st'.chunkStore)
    (h : l.foldlM f st = .ok st') : st.chunkStore.Grows C st'.chunkStore :=
  foldlM_invariant (P := fun s => st.chunkStore.Grows C s.chunkStore)
    (fun _ _ _ hs hstep => hs.trans (hf hstep)) (.refl _) h

theorem commitObjects_grows {order : CommitOrder}
    (h : commitObjects C F sort order o st = .ok st') :
    st.chunkStore.Grows C st'.chunkStore := by
  simp only [commitObjects, bind_eq_ok] at h
  obtain ⟨st₁, haccounts, st₂, hchains, hanchors⟩ := h
  exact (foldlM_grows (fun h => (updateAccountObject_storesOne h).grows) haccounts).trans
    ((foldlM_grows (fun h => (updateChainObject_storesOne h).grows) hchains).trans
      (foldlM_grows updateAnchor_grows hanchors))

theorem Disk.flush_chunks {t t' : Smt.Node} {cs cs' : Disk} (h : cs.flush C F t = .ok (t', cs')) :
    cs'.chunks = cs.chunks := by
  simp only [Disk.flush, bind_eq_ok] at h
  obtain ⟨⟨t₁, writes⟩, -, h⟩ := h
  obtain ⟨-, rfl⟩ := Prod.mk.inj (Except.ok.inj h)
  rfl

theorem flushAll_chunks {l : List Smt.Node} {cs : Disk} {r : List Smt.Node × Disk}
    (h : Disk.flushAll C F l cs = .ok r) : r.2.chunks = cs.chunks := by
  induction l generalizing cs r with
  | nil =>
    rw [← Except.ok.inj h]
  | cons t l ih =>
    simp only [Disk.flushAll, bind_eq_ok] at h
    obtain ⟨⟨t₁, cs₁⟩, hf, r', hrest, h⟩ := h
    obtain rfl := Except.ok.inj h
    exact (ih hrest).trans (Disk.flush_chunks hf)

/-- `Commit` loses nothing. -/
theorem commitTrees_sub {order : CommitOrder} {time : UInt64} {n : ℕ} {parentHash : Hash}
    {hd : Header} (h : commitTrees C F sort order time n parentHash o st = .ok (.ok hd, st')) :
    st.chunkStore.Sub st'.chunkStore := by
  obtain ⟨st₁, bid, st₂, st₃, h₁, h₂, h₃, h₄, -⟩ := commitTrees_ok h
  have hbloom : st₁.chunkStore.Grows C st₂.chunkStore := by
    rcases storeBloom_cases C F order.tokens st₁ with ⟨e, -, hb⟩ | ⟨-, cs, hcs, hb⟩
    · rw [hb] at h₂
      cases h₂
    · rw [hb] at h₂
      obtain ⟨-, rfl⟩ := Prod.mk.inj (Except.ok.inj h₂)
      rcases hcs with rfl | rfl
      · exact .refl _
      · exact Disk.grows_put _ _
  have hflush : st₃.chunkStore.Sub st'.chunkStore := by
    have hf := TreeStorage.flush_eq_ok.mp h₄
    exact ⟨fun x hx => by rwa [← flushAll_chunks hf] at hx, flushAll_grows hf 0 rfl⟩
  have hgrows := (foldlM_grows (fun h => (updateTokenObject_storesOne h).grows) h₁).trans
    (hbloom.trans (commitObjects_grows h₃))
  exact hgrows.sub.trans hflush

end

/-! ## Runs of commits -/

/-- What the trees hold when they are opened: those of transactions and of anchors are new. -/
def Forest.opened (L : Forest) : Forest :=
  fun ty => if ty.hashed then L ty else Smt.Contents.empty

/-- What the trees hold that are opened at a header: nothing if there is no block, or else what an
earlier commit has left. -/
def Opens (hs : List (Header × Forest)) (hd : Header) (L : Forest) : Prop :=
  (hd = zeroHeader ∧ L = fun _ => Smt.Contents.empty) ∨ ∃ L₀, (hd, L₀) ∈ hs ∧ L = L₀.opened

/-- The contents that were flushed for the commits. -/
def flushedContents (hs : List (Header × Forest)) : List Smt.Contents :=
  hs.flatMap fun x => TreeType.flushed.map x.2

section
variable (C : Crypto) (sort : SortSlice)

/-- A commit to trees that were opened at a header of the run and used. No `SetChunk` fails. -/
structure CommitStep (hs : List (Header × Forest)) (disk : Disk) (hd : Header) (L : Forest)
    (order : CommitOrder) (o : Objects) (hd' : Header) (disk' : Disk) : Prop where
  opens : Opens hs hd L
  valid : order.Valid o
  storable : o.Storable C
  exec : ∃ st st' time n parentHash, Used C (openStorage hd disk) st ∧
    commitTrees C noFaults sort order time n parentHash o st = .ok (.ok hd', st') ∧
    st'.chunkStore = disk'

/-- Commits into one store, and other chunks in between. -/
inductive CommitRun : List (Header × Forest) → Disk → Prop
  | start : CommitRun [] ⟨[], []⟩
  | write {hs : List (Header × Forest)} {disk : Disk} (k v : Bytes) : CommitRun hs disk →
      disk.Admits C k v → CommitRun hs { disk with chunks := (k, v) :: disk.chunks }
  | commit {hs : List (Header × Forest)} {disk disk' : Disk} {hd hd' : Header} {L : Forest}
      {order : CommitOrder} {o : Objects} : CommitRun hs disk →
      CommitStep C sort hs disk hd L order o hd' disk' →
      CommitRun (hs ++ [(hd', L.commit C noFaults sort o order)]) disk'

/-- The strings that have been hashed. -/
def runHashed (hs : List (Header × Forest)) (disk : Disk) : Set Bytes :=
  Smt.hashedInto C.keccak disk.nodes (flushedContents hs) ∪ disk.filed C

/-- Every header of the run can be opened, and its records can be read. -/
structure Committed (hs : List (Header × Forest)) (disk : Disk) : Prop where
  shared : Smt.Shared C.keccak disk.nodes (flushedContents hs)
  roots : ∀ x ∈ hs, ∀ ty, (x.1.root ty).1 = (x.2 ty).root C.keccak
  readable : ∀ x ∈ hs, ∀ ty : TreeType, ty.hashed = true → (x.2 ty).Readable ∧ (x.2 ty).Values32
  filed : ∀ x ∈ hs, ∀ ty : TreeType, ty.hashed = true → FiledIn C disk (x.2 ty)
  finds : disk.Finds C

end

section
variable {hs : List (Header × Forest)} {hd hd' : Header} {L : Forest} {order : CommitOrder}

theorem runHashed_mono {hs' : List (Header × Forest)} (hsub : disk.Sub disk')
    (hhs : ∀ x ∈ hs, x ∈ hs') : runHashed C hs disk ⊆ runHashed C hs' disk' := by
  refine Set.union_subset_union ?_ fun b hb => hsub.chunks _ hb
  refine Smt.hashedInto_mono hsub.nodes fun m hm => ?_
  obtain ⟨x, hx, hm⟩ := List.mem_flatMap.mp hm
  exact List.mem_flatMap.mpr ⟨x, hhs x hx, hm⟩

theorem TreeType.mem_flushed (ty : TreeType) : ty ∈ TreeType.flushed := by
  cases ty <;> simp [TreeType.flushed]

/-- What is known of the contents that are opened. -/
theorem Committed.of_opens (h : Committed C hs disk) (ho : Opens hs hd L) (ty : TreeType) :
    (L ty).Bare C.keccak ∧
      (ty.hashed = true → (L ty).Readable ∧ (L ty).Values32 ∧ FiledIn C disk (L ty)) := by
  have hempty : Smt.Contents.empty.Bare C.keccak ∧ (ty.hashed = true →
      Smt.Contents.empty.Readable ∧ Smt.Contents.empty.Values32 ∧
        FiledIn C disk Smt.Contents.empty) :=
    ⟨Smt.Contents.bare_empty, fun _ => ⟨fun k e hk => (by cases hk), fun k e hk => (by cases hk),
      fun k e hk => (by cases hk)⟩⟩
  rcases ho with ⟨-, rfl⟩ | ⟨L₀, hmem, rfl⟩
  · exact hempty
  · unfold Forest.opened
    split_ifs with hty
    · have hbare := h.shared.bare (L₀ ty) (List.mem_flatMap.mpr ⟨_, hmem,
        List.mem_map_of_mem (TreeType.mem_flushed ty)⟩)
      obtain ⟨hread, h32⟩ := h.readable _ hmem ty hty
      exact ⟨hbare, fun _ => ⟨hread, h32, h.filed _ hmem ty hty⟩⟩
    · exact hempty

/-- The trees that are opened at a header hold what they should. -/
theorem Committed.opened (h : Committed C hs disk)
    (hcf : Smt.CollisionFree C.keccak (runHashed C hs disk)) (ho : Opens hs hd L) :
    Standing C L (openStorage hd disk) := by
  have hcf' := hcf.mono Set.subset_union_left
  have hnew : ∀ ty : TreeType, ty.hashed = false →
      (openStorage hd disk).tree ty = Smt.SparseMerkleTree.new := by
    intro ty hty
    cases ty <;> first | rfl | cases hty
  have hopen : ∀ ty : TreeType, ty.hashed = true → (openStorage hd disk).tree ty
      = (Smt.SparseMerkleTree.initWithRoot disk.nodes.getChunk (hd.root ty)
          Smt.SparseMerkleTree.new).2 := by
    intro ty hty
    cases ty <;> first | rfl | cases hty
  -- two trees are not opened at the header: they stay new
  intro ty
  rcases hty : ty.hashed with _ | _
  · rw [hnew ty hty]
    have hL : L ty = Smt.Contents.empty := by
      rcases ho with ⟨-, rfl⟩ | ⟨L₀, -, rfl⟩
      · rfl
      · exact if_neg (by simp [hty])
    rw [hL]
    exact ⟨_, Smt.standsFor_new _⟩
  · rw [hopen ty hty]
    rcases ho with ⟨rfl, rfl⟩ | ⟨L₀, hmem, rfl⟩
    · have hzero : zeroHeader.root ty = zeroHash := by cases ty <;> rfl
      rw [hzero, h.shared.opened_zero hcf']
      exact ⟨_, Smt.standsFor_new _⟩
    · obtain ⟨hread, h32⟩ := h.readable _ hmem ty hty
      have hL : L₀.opened ty = L₀ ty := if_pos hty
      rw [hL]
      exact h.shared.opened hcf' (List.mem_flatMap.mpr ⟨_, hmem,
        List.mem_map_of_mem (TreeType.mem_flushed ty)⟩) hread h32 (h.roots _ hmem ty)

/-- The flushes of the trees of a commit. -/
theorem flushAll_shared {tree : TreeType → Smt.Node} {T : TreeType → Smt.EntryTrie}
    {ms : List Smt.Contents} {l : List TreeType} {cs : Disk} {r : List Smt.Node × Disk}
    (hsh : Smt.Shared C.keccak cs.nodes ms)
    (hn : ∀ ty ∈ l, Smt.StandsFor C.keccak cs.nodes (tree ty) (T ty) (L ty))
    (hbare : ∀ ty, (L ty).Bare C.keccak)
    (hf : Disk.flushAll C noFaults (l.map tree) cs = .ok r)
    (hcf : Smt.CollisionFree C.keccak (Smt.hashedInto C.keccak r.2.nodes (ms ++ l.map L))) :
    Smt.Shared C.keccak r.2.nodes (ms ++ l.map L) ∧
      r.1.map Smt.SparseMerkleTree.rootMerkle = l.map fun ty => (L ty).root C.keccak := by
  induction l generalizing cs r ms with
  | nil =>
    obtain rfl := Except.ok.inj hf
    rw [List.map_nil, List.append_nil]
    exact ⟨hsh, rfl⟩
  | cons ty l ih =>
    rw [List.forall_mem_cons] at hn
    rw [List.map_cons] at hf
    simp only [Disk.flushAll, bind_eq_ok] at hf
    obtain ⟨⟨n', cs₁⟩, hflush, r', hrest, hr⟩ := hf
    obtain rfl := Except.ok.inj hr
    rw [List.map_cons, List.append_cons] at hcf ⊢
    have hgrow := flushAll_grows hrest 0 rfl
    simp only [Disk.flush, bind_eq_ok] at hflush
    obtain ⟨⟨n₁, writes⟩, hflush, hcs₁⟩ := hflush
    obtain ⟨rfl, rfl⟩ := Prod.mk.inj (Except.ok.inj hcs₁)
    -- no write is dropped
    have hall : (writes.filter fun w => (noFaults w.1).isNone) = writes :=
      List.filter_eq_self.mpr fun _ _ => rfl
    simp only [hall] at hrest hgrow
    obtain ⟨hsh₁, hkeep, hroot⟩ := hsh.flush hn.1 (hbare ty) hflush
      (hcf.mono (Smt.hashedInto_mono hgrow fun m hm => List.mem_append_left _ hm))
    obtain ⟨hsh', hroots⟩ := ih hsh₁ (fun ty hty => (hn.2 ty hty).keeps hkeep) hrest hcf
    refine ⟨hsh', ?_⟩
    rw [List.map_cons, List.map_cons, hroot, hroots]

theorem CommitStep.sub (h : CommitStep C sort hs disk hd L order o hd' disk') :
    disk.Sub disk' := by
  obtain ⟨st, st', time, n, parentHash, hused, hcommit, rfl⟩ := h.exec
  have hun := hused.untouched
  have hfirst : disk.Sub st.chunkStore := ⟨hun.chunks, fun x hx => by rw [hun.nodes]; exact hx⟩
  exact hfirst.trans (commitTrees_sub hcommit)

/-- What a commit leaves in the store. -/
structure Stored (C : Crypto) (sort : SortSlice) (hs : List (Header × Forest)) (L : Forest)
    (order : CommitOrder) (o : Objects) (hd' : Header) (disk' : Disk) : Prop where
  shared : Smt.Shared C.keccak disk'.nodes
    (flushedContents (hs ++ [(hd', L.commit C noFaults sort o order)]))
  roots : ∀ ty, (hd'.root ty).1 = (L.commit C noFaults sort o order ty).root C.keccak
  records : ∀ ty : TreeType, ty.hashed = true → ∀ x ∈ records C noFaults sort o order ty,
    x.2 ∈ disk'.filed C
  finds : disk'.Finds C

theorem CommitStep.stored (hstep : CommitStep C sort hs disk hd L order o hd' disk')
    (h : Committed C hs disk)
    (hcf : Smt.CollisionFree C.keccak
      (runHashed C (hs ++ [(hd', L.commit C noFaults sort o order)]) disk')) :
    Stored C sort hs L order o hd' disk' := by
  have hcf₀ := hcf.mono (runHashed_mono hstep.sub fun x hx => List.mem_append_left _ hx)
  have hbare₀ := fun ty => (h.of_opens hstep.opens ty).1
  have hopen := h.opened hcf₀ hstep.opens
  obtain ⟨st, st', time, n, parentHash, hused, hcommit, rfl⟩ := hstep.exec
  have hun := hused.untouched
  choose T hT using hun.standing L hopen
  have hreg := regular_of_commitTrees hstep.valid hcommit
  have hnone : bloomFault C noFaults order.tokens = none := ite_self none
  -- up to the flush
  rcases commitTrees_returns noFaults sort order hstep.storable.noneDeleted hT time n parentHash
    with ⟨e, st₁, he, -⟩ | ⟨-, hret⟩
  · rw [hnone] at he
    cases he
  obtain ⟨st₃, -, hv, heq⟩ := hret hreg
  rw [heq, bind_eq_ok] at hcommit
  obtain ⟨st₄, hflush, hst₄⟩ := hcommit
  obtain ⟨hhd, rfl⟩ := Prod.mk.inj (Except.ok.inj hst₄)
  have hf := TreeStorage.flush_eq_ok.mp hflush
  have hchunks : st₄.chunkStore.chunks = st₃.chunkStore.chunks := flushAll_chunks hf
  have hfiled : st₄.chunkStore.filed C = st₃.chunkStore.filed C := by
    unfold Disk.filed
    rw [hchunks]
  have hrecords : ∀ ty : TreeType, ty.hashed = true →
      ∀ x ∈ records C noFaults sort o order ty, x.2 ∈ st₄.chunkStore.filed C := by
    intro ty hty x hx
    rw [hfiled]
    exact hv.stored ty hty x hx
  have hnodes : st₃.chunkStore.nodes = disk.nodes := hv.nodes.trans hun.nodes
  have hbare : ∀ ty, (L.commit C noFaults sort o order ty).Bare C.keccak := by
    intro ty
    refine (hbare₀ ty).insertAll fun x hx => ?_
    exact hstep.storable.inserts hcf (Or.inl (Or.inl rfl))
      (fun ty hty x hx => Or.inr (hrecords ty hty x hx)) ty hx
  have hlist : flushedContents (hs ++ [(hd', L.commit C noFaults sort o order)])
      = flushedContents hs ++ TreeType.flushed.map (L.commit C noFaults sort o order) := by
    rw [flushedContents, List.flatMap_append, List.flatMap_singleton]
    rfl
  -- the flush
  have hshared := h.shared
  rw [← hnodes] at hshared
  have htrees := hv.trees
  rw [← hv.nodes] at htrees
  obtain ⟨hsh, hroots⟩ := flushAll_shared hshared (fun ty _ => htrees ty) hbare hf
    (hcf.mono (by rw [← hlist]; exact Set.subset_union_left))
  refine ⟨by rw [hlist]; exact hsh, ?_, hrecords, ?_⟩
  · intro ty
    have hroot : Smt.SparseMerkleTree.rootMerkle (st₄.tree ty)
        = (L.commit C noFaults sort o order ty).root C.keccak := by
      rw [List.map_map] at hroots
      exact List.map_inj_left.mp hroots ty (TreeType.mem_flushed ty)
    have hheader : hd'.root ty = Smt.SparseMerkleTree.merkleRoot (st₄.tree ty) := by
      rw [← Except.ok.inj hhd]
      cases ty <;> rfl
    rw [hheader, Smt.SparseMerkleTree.merkleRoot, hroot]
    exact bytesToHash_of_length (Smt.length_hashPair _ _)
  · have hcf₃ : Smt.CollisionFree C.keccak (st₃.chunkStore.filed C) := by
      rw [← hfiled]
      exact hcf.mono Set.subset_union_right
    have hfinds : st.chunkStore.Finds C :=
      hun.finds (hcf₃.mono fun b hb => hv.chunks.mem hb) h.finds
    have hfinds₃ := hfinds.extends hv.chunks hcf₃
    intro b hb
    rw [hchunks]
    rw [hfiled] at hb
    exact hfinds₃ b hb

/-- A commit keeps the invariant. -/
theorem Committed.commit (h : Committed C hs disk)
    (hstep : CommitStep C sort hs disk hd L order o hd' disk')
    (hcf : Smt.CollisionFree C.keccak
      (runHashed C (hs ++ [(hd', L.commit C noFaults sort o order)]) disk')) :
    Committed C (hs ++ [(hd', L.commit C noFaults sort o order)]) disk' := by
  have hs' := hstep.stored h hcf
  have hsub := hstep.sub
  -- the entries of the new trees
  have hnew : ∀ ty : TreeType, ty.hashed = true →
      ∀ k e, L.commit C noFaults sort o order ty k = some e →
        k ≠ Smt.zeroKey ∧ ∃ b ∈ disk'.filed C, e.value = chunkKey C b := by
    intro ty hty
    obtain ⟨-, hold⟩ := h.of_opens hstep.opens ty
    obtain ⟨hread, -, hfiled⟩ := hold hty
    refine Smt.Contents.insertAll_forall
      (P := fun k v => k ≠ Smt.zeroKey ∧ ∃ b ∈ disk'.filed C, v = chunkKey C b) ?_ ?_
    · intro k e hk
      obtain ⟨b, hb, hv⟩ := hfiled k e hk
      exact ⟨(hread k e hk).1, b, hsub.chunks _ hb, hv⟩
    · intro x hx
      obtain ⟨y, hy, rfl⟩ := List.mem_map.mp hx
      exact ⟨(hstep.storable.records hty hy).1, y.2, hs'.records ty hty y hy, if_pos hty⟩
  refine ⟨hs'.shared, ?_, ?_, ?_, hs'.finds⟩
  · intro x hx
    rcases List.mem_append.mp hx with hx | hx
    · exact h.roots x hx
    · rw [List.mem_singleton.mp hx]
      exact hs'.roots
  · intro x hx ty hty
    rcases List.mem_append.mp hx with hx | hx
    · exact h.readable x hx ty hty
    · rw [List.mem_singleton.mp hx]
      refine ⟨?_, ?_⟩
      · intro k e hk
        obtain ⟨hkey, b, hb, hv⟩ := hnew ty hty k e hk
        refine ⟨hkey, ?_⟩
        rw [hv]
        intro hzero
        exact hcf.ne_zero b (Or.inr hb) (Subtype.ext hzero)
      · intro k e hk
        obtain ⟨-, b, -, hv⟩ := hnew ty hty k e hk
        rw [hv]
        exact (C.keccak b).2
  · intro x hx ty hty
    rcases List.mem_append.mp hx with hx | hx
    · intro k e hk
      obtain ⟨b, hb, hv⟩ := h.filed x hx ty hty k e hk
      exact ⟨b, hsub.chunks _ hb, hv⟩
    · rw [List.mem_singleton.mp hx]
      exact fun k e hk => (hnew ty hty k e hk).2

theorem CommitRun.committed (h : CommitRun C sort hs disk)
    (hcf : Smt.CollisionFree C.keccak (runHashed C hs disk)) : Committed C hs disk := by
  induction h with
  | start =>
    exact ⟨Smt.shared_empty, fun _ hx => (by cases hx), fun _ hx => (by cases hx),
      fun _ hx => (by cases hx), fun _ hb => (by cases hb)⟩
  | @write hs disk k v _ hadm ih =>
    have hsub : disk.Sub { disk with chunks := (k, v) :: disk.chunks } :=
      ⟨fun _ hx => List.mem_cons_of_mem _ hx, fun _ hx => hx⟩
    have h := ih (hcf.mono (runHashed_mono hsub fun _ hx => hx))
    refine ⟨h.shared, h.roots, h.readable, ?_, ?_⟩
    · intro x hx ty hty k' e hk
      obtain ⟨b, hb, hv⟩ := h.filed x hx ty hty k' e hk
      exact ⟨b, hsub.chunks _ hb, hv⟩
    · exact h.finds.write hadm (hcf.mono Set.subset_union_right)
  | commit _ hstep ih =>
    exact (ih (hcf.mono (runHashed_mono hstep.sub fun x hx => List.mem_append_left _ hx))).commit
      hstep hcf

/-! ## Reading a commit -/

/-- The headers of the commit and of the trees that it was made to, both in the store after it. -/
theorem CommitStep.standing (hrun : CommitRun C sort hs disk)
    (hstep : CommitStep C sort hs disk hd L order o hd' disk')
    (hcf : Smt.CollisionFree C.keccak
      (runHashed C (hs ++ [(hd', L.commit C noFaults sort o order)]) disk')) :
    Standing C L (openStorage hd disk) ∧
      Standing C (Forest.opened (L.commit C noFaults sort o order)) (openStorage hd' disk') := by
  have hcf₀ := hcf.mono (runHashed_mono hstep.sub fun x hx => List.mem_append_left _ hx)
  have h := hrun.committed hcf₀
  refine ⟨h.opened hcf₀ hstep.opens, (h.commit hstep hcf).opened hcf (Or.inr ⟨_, ?_, rfl⟩)⟩
  simp

section
variable {α : Type} {decode : Bytes → Option α} {ty : TreeType} {k : Smt.Key}
  (hrun : CommitRun C sort hs disk)
  (hstep : CommitStep C sort hs disk hd L order o hd' disk')
  (hcf : Smt.CollisionFree C.keccak
    (runHashed C (hs ++ [(hd', L.commit C noFaults sort o order)]) disk')) (hty : ty.hashed = true)
include hrun hstep hcf hty

/-- A record that was committed. -/
theorem recordOf_committed {b : Bytes} {a : α} (hb : (k, b) ∈ records C noFaults sort o order ty)
    (hdec : decode b = some a) :
    recordOf decode disk'.chunks ((L.commit C noFaults sort o order).opened ty k) = .record a := by
  have hcf₀ := hcf.mono (runHashed_mono hstep.sub fun x hx => List.mem_append_left _ hx)
  have hs' := hstep.stored (hrun.committed hcf₀) hcf
  have hopen : (L.commit C noFaults sort o order).opened ty
      = (L ty).insertAll (inserts C noFaults sort o order ty) := if_pos hty
  refine recordOf_record ?_ hs'.finds (hs'.records ty hty _ hb) hdec
  rw [hopen]
  refine Smt.Contents.insertAll_of_mem
    (nodup_inserts hstep.valid hstep.storable.shortDistinct ty) ?_ (L ty)
  refine List.mem_map.mpr ⟨_, hb, ?_⟩
  rw [TreeType.value, if_pos hty]

/-- A record that the commit does not touch. -/
theorem recordOf_untouched (hk : ∀ x ∈ records C noFaults sort o order ty, x.1 ≠ k) :
    recordOf decode disk'.chunks ((L.commit C noFaults sort o order).opened ty k)
      = recordOf decode disk.chunks (L ty k) := by
  have hcf₀ := hcf.mono (runHashed_mono hstep.sub fun x hx => List.mem_append_left _ hx)
  have h := hrun.committed hcf₀
  have hopen : (L.commit C noFaults sort o order).opened ty
      = (L ty).insertAll (inserts C noFaults sort o order ty) := if_pos hty
  rw [hopen, Smt.Contents.insertAll_of_notMem]
  · exact recordOf_eq ((h.of_opens hstep.opens ty).2 hty).2.2 h.finds (hstep.stored h hcf).finds
      (fun b hb => hstep.sub.chunks _ hb) k
  · intro x hx
    obtain ⟨y, hy, rfl⟩ := List.mem_map.mp hx
    exact hk y hy

end

section
variable (hrun : CommitRun C sort hs disk)
  (hstep : CommitStep C sort hs disk hd L order o hd' disk')
  (hcf : Smt.CollisionFree C.keccak
    (runHashed C (hs ++ [(hd', L.commit C noFaults sort o order)]) disk'))
include hrun hstep hcf

theorem recordOf_token {id : UInt64} {s : TokenObject} (hs : o.tokenObjects.lookup id = some s) :
    recordOf Token.decode disk'.chunks
      ((L.commit C noFaults sort o order).opened .token (idKey id)) = .record s.token := by
  have hmem : id ∈ order.tokens :=
    (hstep.valid.1.1.mem id).mpr (by rw [hs]; exact Option.some_ne_none _)
  exact recordOf_committed hrun hstep hcf rfl (mem_records_token.mpr ⟨id, hmem, s, hs, rfl⟩)
    (Token.decode_encode (hstep.storable.token id s hs).2)

theorem recordOf_token_of_none {id : UInt64} (hnone : o.tokenObjects.lookup id = none) :
    recordOf Token.decode disk'.chunks
        ((L.commit C noFaults sort o order).opened .token (idKey id))
      = recordOf Token.decode disk.chunks (L .token (idKey id)) := by
  refine recordOf_untouched hrun hstep hcf rfl fun x hx heq => ?_
  -- no object of the block has this key
  obtain ⟨id', -, s, hs, rfl⟩ := mem_records_token.mp hx
  rw [idKey_inj heq, hnone] at hs
  cases hs

theorem recordOf_account {addr : Address} {a : Account}
    (ha : o.accountObjects.lookup addr = some (some a)) :
    recordOf Account.decode disk'.chunks
      ((L.commit C noFaults sort o order).opened .account (shortAddr addr)) = .record a := by
  obtain ⟨-, hden, hbal, hlen⟩ := hstep.storable.account addr a ha
  have hencode : a.encode = .ok (TreeStorage.encodedAccount a) := by
    rw [TreeStorage.encodedAccount, Account.encode, if_neg (by omega)]
  have hmem : addr ∈ order.accounts :=
    (hstep.valid.1.2.1.mem addr).mpr (by rw [ha]; exact Option.some_ne_none _)
  exact recordOf_committed hrun hstep hcf rfl (mem_records_account.mpr ⟨addr, hmem, a, ha, rfl⟩)
    (Account.decode_encode hencode hlen)

theorem recordOf_account_of_none {key : Smt.Key}
    (hkey : ∀ addr ∈ o.accountObjects, shortAddr addr ≠ key) :
    recordOf Account.decode disk'.chunks ((L.commit C noFaults sort o order).opened .account key)
      = recordOf Account.decode disk.chunks (L .account key) := by
  refine recordOf_untouched hrun hstep hcf rfl fun x hx heq => ?_
  obtain ⟨addr, -, a, ha, rfl⟩ := mem_records_account.mp hx
  exact hkey addr (Finmap.mem_of_lookup_eq_some ha) heq

theorem recordOf_chain {id : UInt64} {c : AnchorBlock} (hc : o.chainObjects.lookup id = some c) :
    recordOf AnchorBlock.decode disk'.chunks
      ((L.commit C noFaults sort o order).opened .chain (idKey id)) = .record c := by
  obtain ⟨-, hlen, hanchors⟩ := hstep.storable.chain id c hc
  have hmem : id ∈ order.chains :=
    (hstep.valid.1.2.2.mem id).mpr (by rw [hc]; exact Option.some_ne_none _)
  exact recordOf_committed hrun hstep hcf rfl (mem_records_chain.mpr ⟨id, hmem, c, hc, rfl⟩)
    ((AnchorBlock.decode_bytes hlen).mpr hanchors)

theorem recordOf_chain_of_none {id : UInt64} (hnone : o.chainObjects.lookup id = none) :
    recordOf AnchorBlock.decode disk'.chunks
        ((L.commit C noFaults sort o order).opened .chain (idKey id))
      = recordOf AnchorBlock.decode disk.chunks (L .chain (idKey id)) := by
  refine recordOf_untouched hrun hstep hcf rfl fun x hx heq => ?_
  obtain ⟨id', -, c, hc, rfl⟩ := mem_records_chain.mp hx
  rw [idKey_inj heq, hnone] at hc
  cases hc

end

/-- A successful `Commit` can be read: in a run of commits in which no `SetChunk` fails and every
object can be stored, a new state database at the header of a commit reads every object that was
held in memory, and every other record as at the header that the commit was made to. -/
theorem commit_readable (hrun : CommitRun C sort hs disk)
    (hstep : CommitStep C sort hs disk hd L order o hd' disk')
    (hcf : Smt.CollisionFree C.keccak
      (runHashed C (hs ++ [(hd', L.commit C noFaults sort o order)]) disk')) :
    (∀ id, tokenAt C disk' hd' id = match o.tokenObjects.lookup id with
      | some s => .ok (.record s.token)
      | none => tokenAt C disk hd id) ∧
    (∀ addr a, o.accountObjects.lookup addr = some (some a) →
      accountAt C disk' hd' (shortAddr addr) = .ok (.record a)) ∧
    (∀ key, (∀ addr ∈ o.accountObjects, shortAddr addr ≠ key) →
      accountAt C disk' hd' key = accountAt C disk hd key) ∧
    ∀ id, chainAt C disk' hd' id = match o.chainObjects.lookup id with
      | some c => .ok (.record c)
      | none => chainAt C disk hd id := by
  obtain ⟨hold, hnew⟩ := hstep.standing hrun hcf
  refine ⟨?_, ?_, ?_, ?_⟩
  · intro id
    rw [tokenAt_eq hnew]
    rcases hs : o.tokenObjects.lookup id with _ | s
    · rw [tokenAt_eq hold, recordOf_token_of_none hrun hstep hcf hs]
    · rw [recordOf_token hrun hstep hcf hs]
  · intro addr a ha
    rw [accountAt_eq hnew, recordOf_account hrun hstep hcf ha]
  · intro key hkey
    rw [accountAt_eq hnew, accountAt_eq hold, recordOf_account_of_none hrun hstep hcf hkey]
  · intro id
    rw [chainAt_eq hnew]
    rcases hs : o.chainObjects.lookup id with _ | c
    · rw [chainAt_eq hold, recordOf_chain_of_none hrun hstep hcf hs]
    · rw [recordOf_chain hrun hstep hcf hs]

end

/-- The token of the first owner. -/
def firstToken : Token := ⟨5, 0, firstOwner, 5, 0, 0⟩

/-- A state database with a token, the account of its owner, and a chain. -/
def oneEach : Objects where
  tokenObjects := Finmap.singleton 0x1000000000000000 ⟨firstToken, false⟩
  tokenIsSet := ∅
  accountObjects := Finmap.singleton firstOwner (some ⟨[0x1000000000000000], 5, 5⟩)
  chainObjects := Finmap.singleton 0x3000000000000000 ⟨[], [firstOwner], 0, 4⟩
  chainIsSet := ∅
  thashList := Finmap.singleton 0x1000000000000000 (Contract.smallHash [7])
  atxList := ∅

def oneEachOrder : CommitOrder :=
  ⟨⟨[0x1000000000000000], [firstOwner], [0x3000000000000000]⟩, []⟩

theorem oneEachOrder_valid : oneEachOrder.Valid oneEach :=
  ⟨⟨⟨List.nodup_singleton _, by decide⟩, ⟨List.nodup_singleton _, by decide⟩,
    ⟨List.nodup_singleton _, by decide⟩⟩, ⟨List.nodup_nil, rfl⟩⟩

/-- What is looked up in a map with one key. -/
theorem lookup_singleton {κ α : Type} [DecidableEq κ] {k k' : κ} {a a' : α}
    (h : (Finmap.singleton k a : GoMap κ α).lookup k' = some a') : k' = k ∧ a' = a := by
  have hk : k' = k := Finmap.mem_singleton _ _ _ |>.mp (Finmap.mem_of_lookup_eq_some h)
  subst hk
  rw [Finmap.lookup_singleton_eq] at h
  exact ⟨rfl, (Option.some.inj h).symm⟩

theorem oneEach_storable : oneEach.Storable smallCrypto where
  noneDeleted := by
    intro id s hs
    obtain ⟨-, rfl⟩ := lookup_singleton hs
    rfl
  shortDistinct := by
    intro a ha b hb _
    rw [oneEach, Finmap.mem_singleton] at ha hb
    rw [ha, hb]
  token := by
    intro id s hs
    obtain ⟨rfl, rfl⟩ := lookup_singleton hs
    decide
  transaction := by
    intro id h hh
    obtain ⟨-, rfl⟩ := lookup_singleton hh
    decide
  account := by
    intro addr a ha
    obtain ⟨rfl, hsome⟩ := lookup_singleton ha
    obtain rfl := Option.some.inj hsome
    decide
  chain := by
    intro id c hc
    obtain ⟨rfl, rfl⟩ := lookup_singleton hc
    decide
  anchor := by
    intro id a ha
    cases ha

/-- The strings that are hashed for a commit to a new store, with the records. -/
def recordStrings (order : CommitOrder) (o : Objects) (disk : Disk) : List Bytes :=
  [] :: commitStrings order o disk.nodes ++ disk.chunks.map Prod.snd

theorem runHashed_subset {order : CommitOrder} {hd : Header} (hv : order.Valid o)
    (hshort : o.ShortDistinct) :
    runHashed smallCrypto [(hd, Forest.commit smallCrypto noFaults insertionSortSlice o order
      fun _ => Smt.Contents.empty)] disk ⊆ {b | b ∈ recordStrings order o disk} := by
  have hcommit : ∀ {b}, b ∈ commitStrings order o disk.nodes → b ∈ recordStrings order o disk :=
    fun hb => List.mem_cons_of_mem _ (List.mem_append_left _ hb)
  rintro b ((rfl | hb | hb | ⟨m, hm, hb⟩) | hb)
  · exact List.mem_cons_self
  · exact hcommit (mem_commitStrings hv hshort (Or.inr hb))
  · exact hcommit
      (List.mem_append_left _ (List.mem_append_left _ (mem_emptyStrings (by decide) hb)))
  · simp only [flushedContents, List.flatMap_cons, List.flatMap_nil, List.append_nil,
      List.mem_map] at hm
    obtain ⟨ty, -, rfl⟩ := hm
    exact hcommit (mem_commitStrings hv hshort (Or.inl ⟨ty, hb⟩))
  · exact List.mem_cons_of_mem _ (List.mem_append_right _ (List.mem_map_of_mem hb))

theorem commit_readable_oneEach : ∃ hd st',
    commitTrees smallCrypto noFaults insertionSortSlice oneEachOrder 0 1 zeroHash oneEach
      (openStorage zeroHeader ⟨[], []⟩) = .ok (.ok hd, st') ∧
    tokenAt smallCrypto st'.chunkStore hd 0x1000000000000000 = .ok (.record firstToken) ∧
    accountAt smallCrypto st'.chunkStore hd (shortAddr firstOwner)
      = .ok (.record ⟨[0x1000000000000000], 5, 5⟩) ∧
    chainAt smallCrypto st'.chunkStore hd 0x3000000000000000
      = .ok (.record ⟨[], [firstOwner], 0, 4⟩) := by
  obtain ⟨hd, st', hrun, hP⟩ := exists_commitTrees smallCrypto noFaults insertionSortSlice
    oneEachOrder oneEach (openStorage zeroHeader ⟨[], []⟩)
    (fun _ st' => Smt.distinctMod 1000003 (0 :: (recordStrings oneEachOrder oneEach
      st'.chunkStore).map fun x => Bytes.ofBE (Contract.smallHash x).1) 0) (by decide +kernel)
  have hcf : Smt.CollisionFree smallCrypto.keccak _ := Smt.CollisionFree.of_distinct hP
  have hstep : CommitStep smallCrypto insertionSortSlice [] ⟨[], []⟩ zeroHeader
      (fun _ => Smt.Contents.empty) oneEachOrder oneEach hd st'.chunkStore :=
    ⟨Or.inl ⟨rfl, rfl⟩, oneEachOrder_valid, oneEach_storable, _, st', 0, 1, zeroHash,
      Used.refl, hrun, rfl⟩
  obtain ⟨htoken, haccount, -, hchain⟩ := commit_readable CommitRun.start hstep
    (hcf.mono (runHashed_subset oneEachOrder_valid oneEach_storable.shortDistinct))
  exact ⟨hd, st', hrun, htoken _, haccount _ _ Finmap.lookup_singleton_eq, hchain _⟩

/-- The store fails for this chunk. -/
def failsFor (C : Crypto) (chunk : Bytes) : Faults :=
  fun k => if k = chunkKey C chunk then some "chunk not stored" else none

/-- `Commit` returns a header although the token could not be stored, and the token is not found at
it; of two accounts with the same last eight bytes, both are read as the one that was visited
last. -/
theorem committed_not_readable :
    (∃ hd st', commitTrees smallCrypto (failsFor smallCrypto firstToken.encode) insertionSortSlice
        oneEachOrder 0 1 zeroHash oneEach (openStorage zeroHeader ⟨[], []⟩) = .ok (.ok hd, st') ∧
      tokenAt smallCrypto st'.chunkStore hd 0x1000000000000000 = .ok .notFound) ∧
    ∃ hd st', commitTrees smallCrypto noFaults insertionSortSlice
        (accountOrder [firstOwner, namesake]) 0 1 zeroHash (twoAccounts firstOwner namesake)
        (openStorage zeroHeader ⟨[], []⟩) = .ok (.ok hd, st') ∧
      (twoAccounts firstOwner namesake).accountObjects.lookup firstOwner
        = some (some ⟨[1], 5, 5⟩) ∧
      accountAt smallCrypto st'.chunkStore hd (shortAddr firstOwner)
        = .ok (.record ⟨[2], 7, 7⟩) := by
  constructor
  · obtain ⟨hd, st', hrun, hP⟩ := exists_commitTrees smallCrypto
      (failsFor smallCrypto firstToken.encode) insertionSortSlice oneEachOrder oneEach
      (openStorage zeroHeader ⟨[], []⟩)
      (fun hd st' => decide
        (tokenAt smallCrypto st'.chunkStore hd 0x1000000000000000 = .ok .notFound))
          (by decide +kernel)
    exact ⟨hd, st', hrun, of_decide_eq_true hP⟩
  · obtain ⟨hd, st', hrun, hP⟩ := exists_commitTrees smallCrypto noFaults insertionSortSlice
      (accountOrder [firstOwner, namesake]) (twoAccounts firstOwner namesake)
      (openStorage zeroHeader ⟨[], []⟩)
      (fun hd st' => decide (accountAt smallCrypto st'.chunkStore hd (shortAddr firstOwner)
        = .ok (.record ⟨[2], 7, 7⟩))) (by decide +kernel)
    exact ⟨hd, st', hrun, by decide, of_decide_eq_true hP⟩

end GoPlasma.Plasma
