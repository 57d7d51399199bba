import GoPlasma.Plasma.ReadableTheorems
import GoPlasma.Plasma.SelectionTheorems
import GoPlasma.Plasma.SnapshotTheorems

/-!
# The bloom filter of a block

`NewBloom` only ever sets bits, so that every key of its list is found by `CheckBloom`
(`checkBloom_newBloom`), and since setting bits commutes and setting one twice is setting it once,
the filter depends on the set of keys only (`newBloom_congr`).

`Commit` makes the filter from the keys of the map of token objects. A transaction that succeeds
puts its token there, and nothing takes it away again, not even a revert (`Minting.Covers`), so
that the filter that `commitTrees_bloom` finds under `BloomID` has every token of the block.
-/

namespace GoPlasma.Plasma

open Act

/-! ## Folds of operations that commute -/

section
variable {α β : Type} {f : β → α → β}

theorem foldl_step (hcomm : ∀ b x y, f (f b x) y = f (f b y) x) (l : List α) (b : β) (a : α) :
    f (l.foldl f b) a = l.foldl f (f b a) := by
  induction l generalizing b with
  | nil => rfl
  | cons x l ih => rw [List.foldl_cons, List.foldl_cons, ih, hcomm]

/-- What has been done is not done again. -/
theorem foldl_absorb (hcomm : ∀ b x y, f (f b x) y = f (f b y) x)
    (hidem : ∀ b x, f (f b x) x = f b x) {l : List α} {a : α} (ha : a ∈ l) (b : β) :
    f (l.foldl f b) a = l.foldl f b := by
  induction l generalizing b with
  | nil => cases ha
  | cons x l ih =>
    rw [List.foldl_cons]
    rcases List.mem_cons.mp ha with rfl | ha
    · rw [foldl_step hcomm, hidem]
    · exact ih ha _

theorem foldl_absorb_all (hcomm : ∀ b x y, f (f b x) y = f (f b y) x)
    (hidem : ∀ b x, f (f b x) x = f b x) {l l' : List α} (hsub : l' ⊆ l) (b : β) :
    l'.foldl f (l.foldl f b) = l.foldl f b := by
  induction l' with
  | nil => rfl
  | cons x l' ih =>
    obtain ⟨hx, hsub⟩ := List.cons_subset.mp hsub
    rw [List.foldl_cons, foldl_absorb hcomm hidem hx, ih hsub]

/-- Only the set of the operations matters. -/
theorem foldl_congr_set (hcomm : ∀ b x y, f (f b x) y = f (f b y) x)
    (hidem : ∀ b x, f (f b x) x = f b x) {l l' : List α} (hmem : ∀ x, x ∈ l ↔ x ∈ l') (b : β) :
    l.foldl f b = l'.foldl f b := by
  have hswap : (l ++ l').foldl f b = (l' ++ l).foldl f b :=
    List.perm_append_comm.foldl_eq' (fun x _ y _ b => hcomm b x y) b
  rw [List.foldl_append, List.foldl_append] at hswap
  rw [← foldl_absorb_all hcomm hidem (fun x hx => (hmem x).mpr hx) b, hswap]
  exact foldl_absorb_all hcomm hidem (fun x hx => (hmem x).mp hx) b

end

/-! ## The bits -/

theorem bloomNumber_lt (key : Bytes) (i : ℕ) : bloomNumber key i < 8 * Smt.chunkSize :=
  lt_of_le_of_lt Nat.and_le_right (by decide)

/-- Every bit of a key is in the chunk. -/
theorem bloomBits_lt {k : UInt64} {n : ℕ} (hn : n ∈ bloomBits k) : n / 8 < Smt.chunkSize := by
  obtain ⟨i, -, hi⟩ := List.mem_flatMap.mp hn
  rw [Nat.div_lt_iff_lt_mul (by decide), Nat.mul_comm]
  rcases List.mem_cons.mp hi with rfl | hi
  · exact bloomNumber_lt _ _
  · rw [List.mem_singleton.mp hi]
    exact bloomNumber_lt _ _

theorem length_setBloomBit (b : Bytes) (n : ℕ) : (setBloomBit b n).length = b.length :=
  List.length_modify _ _ _

theorem setBloomBit_idem (b : Bytes) (n : ℕ) :
    setBloomBit (setBloomBit b n) n = setBloomBit b n := by
  unfold setBloomBit
  rw [List.modify_modify_eq]
  congr 1
  funext x
  rw [Function.comp_apply, UInt8.or_assoc, UInt8.or_self]

theorem getD_setBloomBit (b : Bytes) (n i : ℕ) :
    (setBloomBit b n).getD i 0 =
      if n / 8 = i ∧ i < b.length then b.getD i 0 ||| (1 : UInt8) <<< UInt8.ofNat (n % 8)
      else b.getD i 0 := by
  unfold setBloomBit
  rw [List.getD_eq_getElem?_getD, List.getD_eq_getElem?_getD, List.getElem?_modify]
  rcases lt_or_ge i b.length with hi | hi
  · rw [List.getElem?_eq_getElem hi]
    by_cases hn : n / 8 = i
    · simp [hn, hi]
    · simp [hn]
  · rw [List.getElem?_eq_none hi]
    simp [Nat.not_lt.mpr hi]

theorem or_and_eq_zero (x y z : UInt8) : (x ||| y) &&& z = 0 ↔ x &&& z = 0 ∧ y &&& z = 0 := by
  have hdist : (x ||| y) &&& z = (x &&& z) ||| (y &&& z) := by
    apply UInt8.toBitVec_inj.mp
    simp only [UInt8.toBitVec_and, UInt8.toBitVec_or, BitVec.and_or_distrib_right]
  rw [hdist, UInt8.or_eq_zero_iff]

/-- A bit that was set stays set. -/
theorem bloomBit_mono {b : Bytes} {m : ℕ} (h : bloomBit b m = true) (n : ℕ) :
    bloomBit (setBloomBit b n) m = true := by
  simp only [bloomBit, decide_eq_true_eq, getD_setBloomBit] at h ⊢
  split_ifs with hn
  · intro hzero
    exact h ((or_and_eq_zero _ _ _).mp hzero).1
  · exact h

theorem shiftLeft_ne_zero : ∀ i < 8, (1 : UInt8) <<< UInt8.ofNat i ≠ 0 := by decide

theorem bloomBit_setBloomBit {b : Bytes} {n : ℕ} (hn : n / 8 < b.length) :
    bloomBit (setBloomBit b n) n = true := by
  simp only [bloomBit, decide_eq_true_eq, getD_setBloomBit, hn, and_self, if_true]
  intro hzero
  rw [or_and_eq_zero, UInt8.and_self] at hzero
  exact shiftLeft_ne_zero _ (Nat.mod_lt _ (by decide)) hzero.2

/-! ## `NewBloom` and `CheckBloom` -/

theorem newBloom_eq (l : List UInt64) :
    newBloom l = (l.flatMap bloomBits).foldl setBloomBit (Bytes.zeros Smt.chunkSize) := by
  unfold newBloom
  rw [← List.foldl_flatMap]

theorem length_setBloomBits (ns : List ℕ) (b : Bytes) :
    (ns.foldl setBloomBit b).length = b.length := by
  induction ns generalizing b with
  | nil => rfl
  | cons n ns ih => rw [List.foldl_cons, ih, length_setBloomBit]

theorem length_newBloom (l : List UInt64) : (newBloom l).length = Smt.chunkSize := by
  rw [newBloom_eq, length_setBloomBits, Bytes.length_zeros]

/-- The loop sets every bit that it meets inside the chunk, and keeps it. -/
theorem bloomBit_setBloomBits {ns : List ℕ} {b : Bytes} {n : ℕ} (hn : n / 8 < b.length)
    (h : n ∈ ns ∨ bloomBit b n = true) : bloomBit (ns.foldl setBloomBit b) n = true := by
  induction ns generalizing b with
  | nil => exact h.resolve_left List.not_mem_nil
  | cons m ns ih =>
    rw [List.foldl_cons]
    refine ih (by rwa [length_setBloomBit]) ?_
    rcases h with hmem | hset
    · rcases List.mem_cons.mp hmem with rfl | hmem
      · exact Or.inr (bloomBit_setBloomBit hn)
      · exact Or.inl hmem
    · exact Or.inr (bloomBit_mono hset m)

theorem checkBloom_newBloom {l : List UInt64} {k : UInt64} (hk : k ∈ l) :
    checkBloom (newBloom l) k = true := by
  rw [checkBloom, if_neg (not_not.mpr (length_newBloom l)), List.all_eq_true]
  intro n hn
  rw [newBloom_eq]
  refine bloomBit_setBloomBits ?_ (Or.inl (List.mem_flatMap.mpr ⟨k, hk, hn⟩))
  rw [Bytes.length_zeros]
  exact bloomBits_lt hn

theorem newBloom_congr {l l' : List UInt64} (h : ∀ k, k ∈ l ↔ k ∈ l') :
    newBloom l = newBloom l' := by
  rw [newBloom_eq, newBloom_eq]
  refine foldl_congr_set setBloomBit_comm setBloomBit_idem (fun n => ?_) _
  simp only [List.mem_flatMap, h]

/-! ## The tokens of a block -/

variable {σ : Type} {C : Crypto} {S : Storage σ} {n : ℕ} {w w₁ : Env σ}

/-- No token object is taken away. -/
def Objects.KeepsTokens (o o' : Objects) : Prop := ∀ id ∈ o.tokenObjects, id ∈ o'.tokenObjects

theorem Objects.KeepsTokens.of_eq {o o' : Objects} (h : o'.tokenObjects = o.tokenObjects) :
    o.KeepsTokens o' := fun _ hid => by rwa [h]

theorem Objects.KeepsTokens.trans {o o₁ o₂ : Objects} (h : o.KeepsTokens o₁)
    (h' : o₁.KeepsTokens o₂) : o.KeepsTokens o₂ := fun id hid => h' id (h id hid)

/-- The token of the transaction is among the objects. -/
def Tx.Covered (o : Objects) : Tx → Prop
  | .plasma tx => tx.tokenID ∈ o.tokenObjects
  | .anchor _ => True

theorem Objects.KeepsTokens.covered {o o' : Objects} (h : o.KeepsTokens o') {tx : Tx}
    (hc : tx.Covered o) : tx.Covered o' := by
  cases tx with
  | plasma tx => exact h _ hc
  | anchor tx => trivial

theorem Since.tokenObjects (h : Since w w₁) :
    w₁.db.objects.tokenObjects = w.db.objects.tokenObjects := by
  obtain ⟨es, -, hu⟩ := h.undone
  rw [← hu, undo_tokenObjects]

section
variable (C S n)

/-- `ApplyPlasmaTransaction` up to `StoreTransaction` puts the token into the map. -/
theorem sat_updatePlasma_tokens (tx : Transaction) :
    Sat (updatePlasma C S n tx) w
      (fun _ w' => w.db.objects.KeepsTokens w'.db.objects ∧
        tx.tokenID ∈ w'.db.objects.tokenObjects) (fun _ _ => True) := by
  refine (sat_updatePlasma_frame S tx).mono ?_ (fun _ _ h => h)
  rintro _ w' ⟨t, m, hobjects⟩
  rw [hobjects]
  refine ⟨fun id hid => ?_, Finmap.mem_insert.mpr (Or.inl rfl)⟩
  exact Finmap.mem_insert.mpr (Or.inr hid)

theorem sat_updateObjects_tokens (tx : Tx) :
    Sat (updateObjects C S n tx) w
      (fun _ w' => SameRevisions w w' ∧ w.db.objects.KeepsTokens w'.db.objects ∧
        tx.Covered w'.db.objects)
      (fun _ w' => Since w w') := by
  cases tx with
  | plasma tx =>
    exact ((sat_updatePlasma_checks C S n tx).and (sat_updatePlasma_tokens C S n tx)).mono
      (fun _ _ h => ⟨h.1.2.2, h.2⟩) (fun _ _ h => h.1.2)
  | anchor tx =>
    exact (sat_updateAnchor_checks C S tx).mono
      (fun _ _ h => ⟨h.2.2.1, .of_eq h.2.2.2.tokenObjects, trivial⟩) (fun _ _ h => h.2)

/-- `commitTransaction`, also when it fails, takes no token away. -/
theorem sat_commitTransaction_tokens (tx : Tx) (hw : w.db.Ordered) :
    Sat (commitTransaction C S n tx) w
      (fun _ w' => w.db.objects.KeepsTokens w'.db.objects ∧ tx.Covered w'.db.objects)
      (fun _ w' => w.db.objects.KeepsTokens w'.db.objects) := by
  have hrevert : ∀ (e : String) (w₁ : Env σ), SameRevisions w.snap w₁ →
      w.db.objects.KeepsTokens w₁.db.objects →
      Sat (revertFailed S w.db.nextRevisionId e) w₁
        (fun _ w' => w.db.objects.KeepsTokens w'.db.objects ∧ tx.Covered w'.db.objects)
        (fun _ w' => w.db.objects.KeepsTokens w'.db.objects) := by
    intro e w₁ hsame hkeep
    refine (sat_revertFailed S e hw hsame).mono (fun _ _ h => h.elim) ?_
    rintro _ w' ⟨-, ho⟩
    exact hkeep.trans (.of_eq (by rw [ho, undo_tokenObjects]))
  unfold Sat
  rw [commitTransaction, bind_ok (snapshot_eq w)]
  change Sat _ w.snap _ _
  rw [sat_orElse, applyTransaction_eq, sat_bind]
  -- a revert undoes the entries of the journal, and none of them takes a token out
  refine (sat_updateObjects_tokens C S n tx).mono ?_ ?_
  · rintro _ w₁ ⟨hsame, hkeep, hcov⟩
    refine (sat_storeTx C S (n + 1) tx).mono ?_ ?_
    · intro _ w₂ hdb
      rw [hdb]
      exact ⟨hkeep, hcov⟩
    · intro e w₂ hdb
      refine hrevert e w₂ ?_ (by rw [hdb]; exact hkeep)
      rw [SameRevisions, hdb]
      exact hsame
  · intro e w₁ hsince
    exact hrevert e w₁ hsince.sameRevisions (.of_eq hsince.tokenObjects)

end

/-- The tokens of the transactions that are in the block. -/
structure Minting.Covers (s : Minting σ) : Prop where
  ordered : s.env.db.Ordered
  covered : ∀ tx ∈ s.committed, tx.Covered s.env.db.objects

theorem commitTransactions_covers {i : ℕ} {txes : List Tx} {s s' : Minting σ} (hs : s.Covers)
    (h : commitTransactions C S n i txes s = .ok s') : s'.Covers := by
  refine (commitTransactions_invariant (P := fun _ s => s.Covers) ?_ ?_ hs h).choose_spec
  · intro tx _ s env hs hc
    obtain ⟨hkeep, hcov⟩ := (sat_commitTransaction_tokens C S n tx hs.ordered).ok hc
    refine ⟨(sat_commitTransaction C S n tx hs.ordered).ok hc, ?_⟩
    intro tx' htx'
    rcases List.mem_append.mp htx' with htx' | htx'
    · exact hkeep.covered (hs.covered tx' htx')
    · rw [List.mem_singleton.mp htx']
      exact hcov
  · intro tx _ s e env hs hc
    have hkeep := (sat_commitTransaction_tokens C S n tx hs.ordered).error hc
    exact ⟨((sat_commitTransaction C S n tx hs.ordered).error hc).1,
      fun tx' htx' => hkeep.covered (hs.covered tx' htx')⟩

/-! ## The filter of a block -/

/-- `Commit` stores the filter under the name in the header. -/
theorem commitTrees_bloom {F : Faults} {sort : SortSlice} {order : CommitOrder} {o : Objects}
    {st st' : TreeStorage} {time : UInt64} {parentHash : Hash} {hd : Header}
    (h : commitTrees C F sort order time n parentHash o st = .ok (.ok hd, st'))
    (hne : order.tokens ≠ [])
    (hcf : Smt.CollisionFree C.keccak (st'.chunkStore.filed C)) :
    hd.bloomID = C.keccak (newBloom order.tokens) ∧
      st'.chunkStore.chunks.lookup hd.bloomID.1 = some (newBloom order.tokens) := by
  obtain ⟨st₁, bid, st₂, st₃, -, h₂, h₃, h₄, rfl⟩ := commitTrees_ok h
  change bid = _ ∧ st'.chunkStore.chunks.lookup bid.1 = _
  unfold TreeStorage.storeBloom at h₂
  rw [if_neg hne] at h₂
  rcases Disk.setChunk_cases C F (newBloom order.tokens) st₁.chunkStore with
    ⟨e, -, hset⟩ | ⟨-, hset⟩
  · rw [hset] at h₂
    cases h₂
  · rw [hset] at h₂
    obtain ⟨rfl, rfl⟩ := Prod.mk.inj (Except.ok.inj h₂)
    refine ⟨rfl, ?_⟩
    have hchunks := flushAll_chunks (TreeStorage.flush_eq_ok.mp h₄)
    have hcf₃ : Smt.CollisionFree C.keccak (st₃.chunkStore.filed C) := by
      rwa [Disk.filed, hchunks] at hcf
    rw [hchunks]
    -- the chunks that come after it are stored under their own hashes
    refine (commitObjects_grows h₃).chunks.lookup hcf₃ ?_
    exact List.lookup_cons_self

/-- No false negatives: the filter of a list has all of its keys, its bits are in the chunk, it
depends on the set of keys only, and the filter that a block is committed with has the tokens of the
transactions of the block. Reading from the storage and storing in it may fail in any way, as long
as no two of the stored chunks have the same hash. -/
theorem bloom_no_false_negatives (C : Crypto) :
    (∀ (l : List UInt64), ∀ k ∈ l, checkBloom (newBloom l) k = true) ∧
    (∀ (k : UInt64), ∀ n ∈ bloomBits k, n / 8 < Smt.chunkSize) ∧
    (∀ l l' : List UInt64, (∀ k, k ∈ l ↔ k ∈ l') → newBloom l = newBloom l') ∧
    ∀ (S : Storage TreeStorage) (F : Faults) (sort : SortSlice) (order : CommitOrder)
      (blockNumber : ℕ) (txes : List Tx) (pool : Pool) (st st' : TreeStorage)
      (sel : Minting TreeStorage) (time : UInt64) (parentHash : Hash) (hd : Header),
      commitTransactions C S blockNumber txes.length txes ⟨[], pool, ⟨newStateDB, st⟩, []⟩
        = .ok sel →
      order.Valid sel.env.db.objects →
      commitTrees C F sort order time (blockNumber + 1) parentHash sel.env.db.objects sel.env.store
        = .ok (.ok hd, st') →
      Smt.CollisionFree C.keccak (st'.chunkStore.filed C) →
      ∀ tx, .plasma tx ∈ sel.committed →
        ∃ filter, st'.chunkStore.chunks.lookup hd.bloomID.1 = some filter ∧
          checkBloom filter tx.tokenID = true := by
  refine ⟨fun l k hk => checkBloom_newBloom hk, fun k n hn => bloomBits_lt hn,
    fun l l' h => newBloom_congr h, ?_⟩
  intro S F sort order blockNumber txes pool st st' sel time parentHash hd hsel hvalid hcommit hcf
    tx htx
  have hnew : Minting.Covers ⟨[], pool, ⟨newStateDB, st⟩, []⟩ :=
    ⟨fun _ hr => (by cases hr), fun _ htx => (by cases htx)⟩
  -- the filter is made from the keys that `Commit` visits
  have htok : tx.tokenID ∈ order.tokens := by
    have hcov : tx.tokenID ∈ sel.env.db.objects.tokenObjects :=
      (commitTransactions_covers hnew hsel).covered _ htx
    rwa [← Finmap.mem_keys, ← hvalid.1.1.2, List.mem_toFinset] at hcov
  obtain ⟨-, hl⟩ := commitTrees_bloom hcommit (List.ne_nil_of_mem htok) hcf
  exact ⟨_, hl, checkBloom_newBloom htok⟩

/-- A call that can be evaluated. -/
theorem exists_ok {α : Type} {x : Go α} (P : α → Bool) (h : x.toOption.any P = true) :
    ∃ a, x = .ok a ∧ P a = true := by
  rcases x with p | a
  · cases h
  · exact ⟨a, rfl, h⟩

/-- The transactions of the block with the deposit. -/
def depositBlock : Go (Minting TreeStorage) :=
  commitTransactions smallCrypto (treeStorage smallCrypto Smt.Store.getChunk) 0
    [Tx.plasma smallDeposit].length [.plasma smallDeposit]
    ⟨[], ⟨[], []⟩, ⟨newStateDB, newStorage ⟨[], []⟩⟩, []⟩

def depositOrder : CommitOrder := ⟨⟨[smallDeposit.tokenID], [smallCrypto.operatorAddr], []⟩, []⟩

/-- What is stored when the block is committed is distinct, and so are its hashes. -/
def distinctChunks (st : TreeStorage) : Bool :=
  Smt.distinctMod 1000003 (0 :: (st.chunkStore.chunks.map Prod.snd).dedup.map
    fun x => Bytes.ofBE (smallCrypto.keccak x).1) 0

theorem distinctChunks.collisionFree {st : TreeStorage} (h : distinctChunks st = true) :
    Smt.CollisionFree smallCrypto.keccak (st.chunkStore.filed smallCrypto) := by
  refine (Smt.CollisionFree.of_distinct h).mono fun b hb => ?_
  exact List.mem_dedup.mpr (List.mem_map_of_mem hb)

theorem bloom_no_false_negatives_deposit : ∃ sel hd st', depositBlock = .ok sel ∧
    commitTrees smallCrypto noFaults insertionSortSlice depositOrder 0 1 zeroHash
      sel.env.db.objects sel.env.store = .ok (.ok hd, st') ∧
    ∃ filter, st'.chunkStore.chunks.lookup hd.bloomID.1 = some filter ∧
      checkBloom filter smallDeposit.tokenID = true := by
  obtain ⟨sel, hsel, hP⟩ := exists_ok (x := depositBlock) (fun sel =>
    decide (sel.committed = [.plasma smallDeposit]) &&
    decide (depositOrder.toMapOrder.Valid sel.env.db.objects) &&
    decide (Visits depositOrder.anchors sel.env.db.objects.atxList) &&
    (commitTrees smallCrypto noFaults insertionSortSlice depositOrder 0 1 zeroHash
      sel.env.db.objects sel.env.store).toOption.any fun r =>
        r.1.toOption.isSome && distinctChunks r.2) (by decide +kernel)
  simp only [Bool.and_eq_true, decide_eq_true_eq] at hP
  obtain ⟨⟨⟨hcommitted, hvalid⟩, hanchors⟩, hcommit⟩ := hP
  obtain ⟨⟨hd | hd, st'⟩, hrun, hr⟩ := exists_ok _ hcommit
  · cases ((Bool.and_eq_true _ _).mp hr).1
  · have hcf := distinctChunks.collisionFree ((Bool.and_eq_true _ _).mp hr).2
    refine ⟨sel, hd, st', hsel, hrun, ?_⟩
    refine (bloom_no_false_negatives smallCrypto).2.2.2 _ noFaults insertionSortSlice depositOrder
      0 _ _ _ st' sel 0 zeroHash hd hsel ⟨hvalid, hanchors⟩ hrun hcf smallDeposit ?_
    rw [hcommitted]
    exact List.mem_singleton_self _

end GoPlasma.Plasma
