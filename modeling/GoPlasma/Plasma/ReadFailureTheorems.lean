import GoPlasma.Smt.LostWrites
import GoPlasma.Plasma.BloomTheorems

/-!
# What a missing chunk looks like

`InitTrie` opens the trees of the last block, `createDeposit` looks for the token of a deposit, and
`Commit` inserts into the trees and flushes them. All of them read chunks, and none of them is told
when a read fails: `load` drops the error. This module says for which failures a token that is
stored is taken for absent (`read_failure_iff`).
-/

namespace GoPlasma.Plasma

/-- The reads of the calls: one reader for each of them, since no call reads a node twice. -/
structure Readers where
  initWithRoot : Smt.Reader
  get : Smt.Reader
  insert : Smt.Reader
  flush : Smt.Reader

/-- Any of the reads may fail, or find nothing. -/
structure Readers.Lossy (R : Readers) (s : Smt.Store) : Prop where
  initWithRoot : Smt.Lossy s R.initWithRoot
  get : Smt.Lossy s R.get
  insert : Smt.Lossy s R.insert
  flush : Smt.Lossy s R.flush

section
variable (C : Crypto) (R : Readers) (s : Smt.Store) (h : Bytes) (root : Hash)

/-- `Get` on the tree that is opened again finds nothing only where nothing is stored. -/
def Readers.GetsAll (k : Smt.Key) : Prop :=
  ∀ x t', Smt.SparseMerkleTree.get C.keccak R.get k (openTree R.initWithRoot root) = .ok (x, t') →
    x.found = false → x.err = none → s.contents h k = none

/-- `Insert` and `Flush` leave a root under which every stored key is found. -/
def Readers.KeepsAll (k : Smt.Key) (v : Bytes) (storageBytes blockNum : UInt64) : Prop :=
  ∀ n n' writes,
    Smt.SparseMerkleTree.insert R.insert k v storageBytes blockNum (openTree R.initWithRoot root)
      = .ok n →
    Smt.SparseMerkleTree.flush C.keccak R.flush n = .ok (n', writes) →
    ∀ q, s.contents h q ≠ none → ∀ via : Smt.Handle,
      ∃ x t', Smt.SparseMerkleTree.get C.keccak (s.setChunks writes).getChunk q
          (via.open (s.setChunks writes) ⟨n', s.setChunks writes⟩) = .ok (x, t')
        ∧ x.found = true

/-- `createDeposit` makes a new token only where none is stored. -/
def Readers.CreatesNew (tokenID : UInt64) : Prop :=
  ∀ (denomination : UInt64) (owner : Address) (w w' : Env TreeStorage) (obj : TokenObject),
    w.store.tokenStorage = openTree R.initWithRoot root →
    createDeposit (treeStorage C fun _ => R.get) tokenID denomination owner w = .ok (.ok obj, w') →
    s.contents h (idKey tokenID) = none

/-- The key is not stored, or the chunk hash of the root and every chunk on the way of the key can
be read. -/
def Readers.Reaches (k : Smt.Key) : Prop :=
  s.contents h k = none ∨
    (Smt.reads R.initWithRoot root.1 = true ∧ ∀ g ∈ s.path h k, Smt.reads R.get g = true)

/-- No key that is stored is lost: the chunk hash of the root can be read, and the first chunk on
the way of the inserted key that `Insert` cannot read is not on the way of the other key, or can be
read by `Flush`. -/
def Readers.LosesNone (k : Smt.Key) : Prop :=
  ∀ q, q ≠ k → s.contents h q ≠ none →
    s.loses R.initWithRoot R.insert R.flush root h k q = false

end

section
variable {C : Crypto} {R : Readers} {s : Smt.Store} {h : Bytes} {root : Hash}

/-- `createDeposit` asks for nothing but the flag `found`. -/
theorem createDeposit_eq {pcs : Smt.Reader} {tokenID : UInt64} {w : Env TreeStorage}
    {x : Smt.SparseMerkleTree.Found} {t' : Smt.Node}
    (hget : Smt.SparseMerkleTree.get C.keccak pcs (idKey tokenID) w.store.tokenStorage
      = .ok (x, t')) (herr : x.err = none) (denomination : UInt64) (owner : Address) :
    createDeposit (treeStorage C fun _ => pcs) tokenID denomination owner w
      = .ok (if x.found then .error "tokenID collation"
          else .ok ⟨⟨denomination, 0, owner, denomination, 0, 0⟩, false⟩,
        { w with store := { w.store with tokenStorage := t' } }) := by
  have hread : (treeStorage C fun _ => pcs).hasToken tokenID w.store
      = .ok (.ok x.found, { w.store with tokenStorage := t' }) := by
    simp only [treeStorage, hget, herr, bind, Except.bind]
  simp only [createDeposit, bind, Act.bind, onStore, hread]
  cases x.found <;> rfl

/-- `Get` is right about a key exactly when it can read all of its way. -/
theorem getsAll_iff (hR : R.Lossy s) (ht : Smt.StoredTree C.keccak s h)
    (hroot : s.lookup root.1 = some h) (k : Smt.Key) :
    R.GetsAll C s h root k ↔ R.Reaches s h root k := by
  obtain ⟨x, t', hget, herr, hfound⟩ := Smt.get_reopened hR.initWithRoot hR.get ht hroot k
  refine ⟨fun hall => ?_, fun hreach x' t'' hget' hnot _ => ?_⟩
  · by_contra hno
    obtain ⟨hstored, hunread⟩ := not_or.mp hno
    refine hstored (hall x t' hget ?_ herr)
    rw [Bool.eq_false_iff]
    intro htrue
    exact hunread (hfound.mp htrue).1
  · obtain ⟨rfl, rfl⟩ := Prod.mk.inj (Except.ok.inj (hget.symm.trans hget'))
    by_contra hstored
    rw [hfound.mpr ⟨hreach.resolve_left hstored, hstored⟩] at hnot
    cases hnot

/-- What is found in the flushed tree, after an insertion into the tree that was opened again. -/
theorem get_after_insert (hR : R.Lossy s) {k : Smt.Key} {b : ℕ} {d : Smt.NodeData}
    {c : Fin 16 → Smt.Node}
    (hins : Smt.InsertedAt C.keccak s b R.initWithRoot R.insert R.flush root h k d c)
    {n' : Smt.Node} {writes : List (Bytes × Bytes)}
    (hflush : Smt.SparseMerkleTree.flush C.keccak R.flush (.mk d c) = .ok (n', writes))
    (hcf : Smt.CollisionFree C.keccak
      (Smt.flushedStrings C.keccak (s.setChunks writes) n')) (q : Smt.Key) (via : Smt.Handle) :
    ∃ x t', Smt.SparseMerkleTree.get C.keccak (s.setChunks writes).getChunk q
        (via.open (s.setChunks writes) ⟨n', s.setChunks writes⟩) = .ok (x, t')
      ∧ (x.found = true ↔ Smt.kept R.flush s Smt.nkeypieces q (.mk d c) ≠ none) := by
  obtain ⟨ht', hkept, hopen⟩ := Smt.flush_contents hR.flush hins.terminal hins.backed hflush hcf
  obtain ⟨d', hset, hd'⟩ := Smt.setHash_unread (Smt.SparseMerkleTree.rootHash n')
  obtain ⟨x, t', hget, -, hfound⟩ := Smt.get_unread (Smt.lossy_getChunk _) ht' hd' q
  rw [hopen via, hset]
  refine ⟨x, t', hget, hfound.trans ?_⟩
  rw [← hkept q]
  exact ⟨fun hx => hx.2, fun hx => ⟨ht'.reads_way, hx⟩⟩

/-- `Insert` and `Flush` keep every stored key exactly when no way of such a key is torn. -/
theorem keepsAll_iff (hR : R.Lossy s) (ht : Smt.StoredTree C.keccak s h)
    (hroot : s.lookup root.1 = some h) {k : Smt.Key} {v : Bytes} {sb bn : UInt64}
    (hv : Smt.ReadableEntry (Smt.num k) ⟨v, sb, bn⟩)
    (hcf : ∀ n n' writes,
      Smt.SparseMerkleTree.insert R.insert k v sb bn (openTree R.initWithRoot root) = .ok n →
      Smt.SparseMerkleTree.flush C.keccak R.flush n = .ok (n', writes) →
      Smt.CollisionFree C.keccak (Smt.flushedStrings C.keccak (s.setChunks writes) n')) :
    R.KeepsAll C s h root k v sb bn ↔ R.LosesNone s h root k := by
  constructor
  · intro hkeeps q hq hstored
    rw [Bool.eq_false_iff]
    intro hloses
    -- a key is lost: then no terminal is at the bottom, and the flush returns
    obtain ⟨d, c, hins, hres⟩ := Smt.insert_reopened hR.initWithRoot hR.insert hR.flush ht hroot hv
      (Or.inr ⟨rfl, q, hloses, hstored⟩)
    obtain ⟨n', writes, hflush⟩ := Smt.flush_returns hR.flush hres.backed
    obtain ⟨x, t', hget, hfound⟩ := get_after_insert hR hres hflush (hcf _ _ _ hins hflush) q
      .chunkHash
    obtain ⟨x', t'', hget', hfound'⟩ := hkeeps _ _ _ hins hflush q hstored .chunkHash
    obtain ⟨rfl, rfl⟩ := Prod.mk.inj (Except.ok.inj (hget.symm.trans hget'))
    refine hfound.mp hfound' ?_
    rw [hres.others q hq, hloses]
    rfl
  · intro hnone n n' writes hins hflush q hstored via
    obtain ⟨d, c, hins', hres⟩ := Smt.insert_reopened hR.initWithRoot hR.insert hR.flush ht hroot hv
      (Or.inl rfl)
    obtain rfl := Except.ok.inj (hins'.symm.trans hins)
    obtain ⟨x, t', hget, hfound⟩ := get_after_insert hR hres hflush (hcf _ _ _ hins hflush) q via
    refine ⟨x, t', hget, hfound.mpr ?_⟩
    by_cases hq : q = k
    · subst hq
      exact hres.own hstored
    · rw [hres.others q hq, hnone q hq hstored]
      exact hstored

/-- A chunk that cannot be read looks like absence: for every stored tree and all readers, the
three calls are right exactly when the way of the token can be read, and no stored key is on a way
that the insertion tears. -/
theorem read_failure_iff (hR : R.Lossy s) (ht : Smt.StoredTree C.keccak s h)
    (hroot : s.lookup root.1 = some h) (tokenID : UInt64) {k : Smt.Key} {v : Bytes}
    {sb bn : UInt64} (hv : Smt.ReadableEntry (Smt.num k) ⟨v, sb, bn⟩)
    (hcf : ∀ n n' writes,
      Smt.SparseMerkleTree.insert R.insert k v sb bn (openTree R.initWithRoot root) = .ok n →
      Smt.SparseMerkleTree.flush C.keccak R.flush n = .ok (n', writes) →
      Smt.CollisionFree C.keccak (Smt.flushedStrings C.keccak (s.setChunks writes) n')) :
    (R.GetsAll C s h root (idKey tokenID) ∧ R.KeepsAll C s h root k v sb bn
        ∧ R.CreatesNew C s h root tokenID)
      ↔ R.Reaches s h root (idKey tokenID) ∧ R.LosesNone s h root k := by
  have hgets := getsAll_iff hR ht hroot (idKey tokenID)
  have hkeeps := keepsAll_iff hR ht hroot hv hcf
  refine ⟨fun ⟨hg, hk, _⟩ => ⟨hgets.mp hg, hkeeps.mp hk⟩, fun ⟨hreach, hnone⟩ => ?_⟩
  refine ⟨hgets.mpr hreach, hkeeps.mpr hnone, ?_⟩
  -- a deposit is created where `Get` says that there is none
  intro denomination owner w w' obj hw hdep
  obtain ⟨x, t', hget, herr, -⟩ := Smt.get_reopened hR.initWithRoot hR.get ht hroot (idKey tokenID)
  have hget' : Smt.SparseMerkleTree.get C.keccak R.get (idKey tokenID) w.store.tokenStorage
      = .ok (x, t') := by
    rw [hw]
    exact hget
  rw [createDeposit_eq hget' herr] at hdep
  refine hgets.mpr hreach x t' hget ?_ herr
  rw [Bool.eq_false_iff]
  intro hfound
  rw [hfound] at hdep
  cases (Prod.mk.inj (Except.ok.inj hdep)).1

end

/-! ## One token -/

/-- A tree with the token 5 is flushed into an empty store. -/
def storeToken : Go (Smt.Node × List (Bytes × Bytes)) := do
  let n ← Smt.SparseMerkleTree.insert (Smt.Store.getChunk []) (idKey 5) (smallCrypto.keccak [5]).1
    0 0 Smt.SparseMerkleTree.new
  Smt.SparseMerkleTree.flush smallCrypto.keccak (Smt.Store.getChunk []) n

/-- A token whose ID differs from it in the first piece is inserted into the tree that is opened
again. -/
def insertToken (R : Readers) (root : Hash) : Go (Smt.Node × List (Bytes × Bytes)) := do
  let n ← Smt.SparseMerkleTree.insert R.insert (idKey 0x1000000000000000)
    (smallCrypto.keccak [7]).1 0 0
    (openTree R.initWithRoot root)
  Smt.SparseMerkleTree.flush smallCrypto.keccak R.flush n

/-- The strings that have been hashed have different hashes. -/
def distinctStrings (s : Smt.Store) (n : Smt.Node) : Bool :=
  Smt.distinctMod 1000003 (0 :: (Smt.rootPair smallCrypto.keccak n :: s.map Prod.snd).map fun x =>
    Bytes.ofBE (smallCrypto.keccak x).1) 0

theorem distinctStrings.collisionFree {s : Smt.Store} {n : Smt.Node}
    (h : distinctStrings s n = true) :
    Smt.CollisionFree smallCrypto.keccak (Smt.flushedStrings smallCrypto.keccak s n) := by
  refine (Smt.CollisionFree.of_distinct h).mono ?_
  rintro x (hx | rfl)
  · exact List.mem_cons_of_mem _ (List.mem_map_of_mem hx)
  · exact List.mem_cons_self

/-- What is known of the store with the token 5. -/
theorem storeToken_spec {n' : Smt.Node} {writes : List (Bytes × Bytes)}
    (h : storeToken = .ok (n', writes))
    (hd : distinctStrings (Smt.Store.setChunks [] writes) n' = true) :
    Smt.StoredTree smallCrypto.keccak (Smt.Store.setChunks [] writes)
        (Smt.SparseMerkleTree.rootHash n')
      ∧ (Smt.Store.setChunks [] writes).lookup (Smt.SparseMerkleTree.merkleRoot n').1
        = some (Smt.SparseMerkleTree.rootHash n')
      ∧ (Smt.Store.setChunks [] writes).contents (Smt.SparseMerkleTree.rootHash n') (idKey 5)
        ≠ none := by
  obtain ⟨n, hins, hflush⟩ := bind_eq_ok.mp h
  have hv : Smt.ReadableEntry (Smt.num (idKey 5)) ⟨(smallCrypto.keccak [5]).1, 0, 0⟩ :=
    ⟨by decide +kernel, (smallCrypto.keccak [5]).2, by decide +kernel⟩
  obtain ⟨ht, hlook, hcontents⟩ := Smt.storedTree_single hv hins hflush
    (distinctStrings.collisionFree hd)
  refine ⟨ht, hlook, ?_⟩
  rw [hcontents, if_pos rfl]
  exact Option.some_ne_none _

/-- The entry that is inserted can be read back. -/
theorem insertToken_readable : Smt.ReadableEntry (Smt.num (idKey 0x1000000000000000))
    ⟨(smallCrypto.keccak [7]).1, 0, 0⟩ :=
  ⟨by decide +kernel, (smallCrypto.keccak [7]).2, by decide +kernel⟩

/-- Nothing collides when the second token is inserted. -/
theorem insertToken_collisionFree {R : Readers} {root : Hash} {s : Smt.Store}
    (h : (insertToken R root).toOption.any
      (fun r => distinctStrings (s.setChunks r.2) r.1) = true) (n n' : Smt.Node)
    (writes : List (Bytes × Bytes))
    (hins : Smt.SparseMerkleTree.insert R.insert (idKey 0x1000000000000000)
      (smallCrypto.keccak [7]).1 0 0 (openTree R.initWithRoot root) = .ok n)
    (hflush : Smt.SparseMerkleTree.flush smallCrypto.keccak R.flush n = .ok (n', writes)) :
    Smt.CollisionFree smallCrypto.keccak
      (Smt.flushedStrings smallCrypto.keccak (s.setChunks writes) n') := by
  have hrun : insertToken R root = .ok (n', writes) := bind_eq_ok.mpr ⟨n, hins, hflush⟩
  rw [hrun] at h
  exact distinctStrings.collisionFree h

/-- Every read succeeds. -/
def allRead (s : Smt.Store) : Readers := ⟨s.getChunk, s.getChunk, s.getChunk, s.getChunk⟩

/-- The tree is opened, and then every read fails. -/
def noneRead (s : Smt.Store) : Readers := ⟨s.getChunk, Smt.noReads, Smt.noReads, Smt.noReads⟩

theorem allRead_lossy (s : Smt.Store) : (allRead s).Lossy s :=
  ⟨Smt.lossy_getChunk s, Smt.lossy_getChunk s, Smt.lossy_getChunk s, Smt.lossy_getChunk s⟩

theorem noneRead_lossy (s : Smt.Store) : (noneRead s).Lossy s := by
  have hnone : Smt.Lossy s Smt.noReads := by
    intro h chunk hfound
    cases hfound
  exact ⟨Smt.lossy_getChunk s, hnone, hnone, hnone⟩

/-- Both flushes return, and nothing collides. -/
theorem storeToken_run : storeToken.toOption.any (fun r =>
    distinctStrings (Smt.Store.setChunks [] r.2) r.1 &&
      [allRead (Smt.Store.setChunks [] r.2), noneRead (Smt.Store.setChunks [] r.2)].all fun R =>
        (insertToken R (Smt.SparseMerkleTree.merkleRoot r.1)).toOption.any fun r' =>
          distinctStrings ((Smt.Store.setChunks [] r.2).setChunks r'.2) r'.1) = true := by
  decide +kernel

theorem read_failure_iff_allRead : ∃ n' writes, storeToken = .ok (n', writes)
    ∧ (allRead (Smt.Store.setChunks [] writes)).GetsAll smallCrypto (Smt.Store.setChunks [] writes)
      (Smt.SparseMerkleTree.rootHash n') (Smt.SparseMerkleTree.merkleRoot n') (idKey 5)
    ∧ (allRead (Smt.Store.setChunks [] writes)).KeepsAll smallCrypto (Smt.Store.setChunks [] writes)
      (Smt.SparseMerkleTree.rootHash n') (Smt.SparseMerkleTree.merkleRoot n')
      (idKey 0x1000000000000000) (smallCrypto.keccak [7]).1 0 0
    ∧ (allRead (Smt.Store.setChunks [] writes)).CreatesNew smallCrypto
      (Smt.Store.setChunks [] writes) (Smt.SparseMerkleTree.rootHash n')
      (Smt.SparseMerkleTree.merkleRoot n') 5 := by
  obtain ⟨⟨n', writes⟩, hrun, hd⟩ := exists_ok _ storeToken_run
  rw [Bool.and_eq_true, List.all_cons, Bool.and_eq_true] at hd
  obtain ⟨ht, hroot, -⟩ := storeToken_spec hrun hd.1
  refine ⟨n', writes, hrun, (read_failure_iff (allRead_lossy _) ht hroot 5 insertToken_readable
    (insertToken_collisionFree hd.2.1)).mpr ⟨?_, ?_⟩⟩
  · exact Or.inr ⟨Smt.reads_getChunk hroot, Smt.ChunkTree.reads_way ht⟩
  · intro q _ _
    rw [Smt.Store.loses, Bool.or_eq_false_iff]
    refine ⟨?_, Smt.torn_of_way (Smt.ChunkTree.reads_way ht) q⟩
    rw [allRead, Smt.reads_getChunk hroot]
    rfl

/-- When the chunk of the root node cannot be read, the stored token is taken for absent by `Get`
and by `createDeposit`, and is lost by an insertion of another one. -/
theorem read_failure_loses_token : ∃ n' writes, storeToken = .ok (n', writes)
    ∧ Smt.StoredTree smallCrypto.keccak (Smt.Store.setChunks [] writes)
      (Smt.SparseMerkleTree.rootHash n')
    ∧ (noneRead (Smt.Store.setChunks [] writes)).Lossy (Smt.Store.setChunks [] writes)
    ∧ ¬ (noneRead (Smt.Store.setChunks [] writes)).GetsAll smallCrypto
      (Smt.Store.setChunks [] writes) (Smt.SparseMerkleTree.rootHash n')
      (Smt.SparseMerkleTree.merkleRoot n') (idKey 5)
    ∧ ¬ (noneRead (Smt.Store.setChunks [] writes)).KeepsAll smallCrypto
      (Smt.Store.setChunks [] writes) (Smt.SparseMerkleTree.rootHash n')
      (Smt.SparseMerkleTree.merkleRoot n') (idKey 0x1000000000000000) (smallCrypto.keccak [7]).1 0 0
    ∧ ¬ (noneRead (Smt.Store.setChunks [] writes)).CreatesNew smallCrypto
      (Smt.Store.setChunks [] writes) (Smt.SparseMerkleTree.rootHash n')
      (Smt.SparseMerkleTree.merkleRoot n') 5 := by
  obtain ⟨⟨n', writes⟩, hrun, hd⟩ := exists_ok _ storeToken_run
  rw [Bool.and_eq_true, List.all_cons, Bool.and_eq_true, List.all_cons, Bool.and_eq_true] at hd
  obtain ⟨ht, hroot, hstored⟩ := storeToken_spec hrun hd.1
  have hR := noneRead_lossy (Smt.Store.setChunks [] writes)
  have hunread : ¬ (noneRead (Smt.Store.setChunks [] writes)).Reaches
      (Smt.Store.setChunks [] writes) (Smt.SparseMerkleTree.rootHash n')
      (Smt.SparseMerkleTree.merkleRoot n') (idKey 5) := by
    rintro (hnone | ⟨-, hway⟩)
    · exact hstored hnone
    · cases hway _ List.mem_cons_self
  -- the token is stored, and `Get` reports neither it nor an error
  obtain ⟨x, t', hget, herr, hfound⟩ := Smt.get_reopened hR.initWithRoot hR.get ht hroot (idKey 5)
  have hnot : x.found = false := by
    rw [Bool.eq_false_iff]
    exact fun htrue => hunread (Or.inr (hfound.mp htrue).1)
  refine ⟨n', writes, hrun, ht, hR, ?_, ?_, ?_⟩
  · exact fun h => hstored (h x t' hget hnot herr)
  · rw [keepsAll_iff hR ht hroot insertToken_readable (insertToken_collisionFree hd.2.2.1)]
    intro hnone
    have hloses := hnone (idKey 5) (by decide +kernel) hstored
    rw [Smt.Store.loses, Bool.or_eq_false_iff] at hloses
    cases hloses.2
  · intro hnew
    have hdep := createDeposit_eq (w := ⟨newStateDB, { newStorage ⟨[], []⟩ with
      tokenStorage := openTree (noneRead (Smt.Store.setChunks [] writes)).initWithRoot
        (Smt.SparseMerkleTree.merkleRoot n') }⟩) hget herr 1 zeroAddress
    rw [hnot] at hdep
    exact hstored (hnew _ _ _ _ _ rfl hdep)

end GoPlasma.Plasma
