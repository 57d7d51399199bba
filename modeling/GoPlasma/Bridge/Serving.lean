import GoPlasma.Bridge.Backing
import GoPlasma.Smt.MinimalTheorems

/-!
# The proofs that the node serves, before the contract

`GetPlasmaTransactionProof` answers for every transaction of the chain, with the block that has it,
and once the root of the block is published the contract accepts the proof
(`served_proof_accepted`). This is for runs in which no store operation fails and no token has the
number 0, and where no two of the strings that are hashed collide.
-/

namespace GoPlasma.Bridge

open Contract (Event Evm blockContents checkMembership newSparseMerkle smallHash)
open Plasma (Backend BackendOp BackendRun Block ChainInv ChunkStore Completes Crypto Pooled
  SealedBlock Transaction Tx newBackend smallDeposit)

variable {C : Crypto} {E : Evm} {s s' : System} {op : SystemOp}

/-! ## Proofs from a tree that is opened again -/

/-- The proof of an entry has one hash for each bit that is set. -/
structure OneHashPerBit (p : Smt.Proof) : Prop where
  hashes : ∀ x ∈ p.proof, x.length = 32
  count : p.proof.length = BinTree.setBelow p.proofBits.toNat 64

/-- What `GenerateProof` makes for an entry of a flush that is opened by its Merkle root. -/
theorem reopened_shape {keccak : Bytes → Hash} {ops : List Smt.Op} {w : Smt.World} {j : ℕ}
    {f : Smt.Flushed} (hrun : Smt.run keccak ops = .ok w)
    (hok : Smt.Meets keccak (Smt.StepOk keccak) ops)
    (hcf : Smt.CollisionFree keccak (Smt.hashedInputs keccak w (Smt.ideal ops)))
    (hf : w.flushed[j]? = some f)
    (hre : Smt.Reopenable keccak (Smt.ideal ops) j .merkleRoot) {m : Smt.Contents}
    (hm : (Smt.ideal ops).flushed[j]? = some m) (hvalues : m.Values32) {k : Smt.Key}
    {e : Smt.Entry} (hk : m k = some e) :
    ∃ p t, Smt.SparseMerkleTree.generateProof keccak w.store.getChunk k
        (Smt.Handle.merkleRoot.open w.store f) = .ok (p, t) ∧ p.key = k ∧ OneHashPerBit p := by
  have h := Smt.run_refines hrun hok hcf
  obtain ⟨m', hc, hopen | ⟨hvia, -⟩⟩ := h.open hcf hf .merkleRoot fun m' hc => (hre m' hc).1
  · obtain rfl : m = m' := Option.some.inj (hm.symm.trans (hre m' hc).2)
    obtain ⟨ts, hn, hholds, -⟩ := hopen
    have hdown : ∀ r, Smt.FreshBelow (r + 1) → Smt.FreshBelow r := fun _ hr => Nat.lt_of_succ_lt hr
    obtain ⟨p, t, hgen, -, hkey, hcollects⟩ :=
      Smt.treeProof_collects (Smt.Backing.store_serves w.store) hdown hn hholds hk
    have hall := hcollects fun _ hq => hq
    refine ⟨p, t, ?_, hkey, ?_, hall.length_proof⟩
    · simp only [Smt.SparseMerkleTree.generateProof, hgen, bind, Except.bind]
    · intro x hx
      rw [hall.hashes] at hx
      obtain ⟨i, -, rfl⟩ := List.mem_map.mp hx
      exact Smt.length_root hvalues.length_leaf _ _
  · cases hvia

/-- The contract accepts the bytes of a proof that checks. -/
theorem checkMembership_of_check (hempty : E.keccak [] = Contract.emptyHash)
    {smt : Contract.SparseMerkle} (hsmt : newSparseMerkle E = .ok smt) {t : UInt64}
    {leaf root : Hash} {p : Smt.Proof}
    (hkey : p.key = Smt.keyOf t.toNat) (hshape : OneHashPerBit p)
    (hcheck : p.check E.keccak leaf.1 root.1 = .ok true) :
    checkMembership E smt leaf root t p.bytes = .ok true := by
  obtain ⟨smt', hsmt', hdefault⟩ := Contract.newSparseMerkle_defaultHashes hempty
  obtain rfl := Except.ok.inj (hsmt.symm.trans hsmt')
  -- both climb from the leaf along the same siblings
  obtain ⟨r, hr, hclimb⟩ := Contract.getRoot_bytes (E := E) hshape.hashes smt leaf t hshape.count
  obtain ⟨⟨cur, rest⟩, hloop⟩ :=
    Contract.checkLoop_of_enough (E := E) leaf.1 le_rfl hshape.count.ge
  obtain ⟨hcur, -⟩ := Smt.checkLoop_eq_climb le_rfl hloop
  have hsame : r.1 = cur := by
    rw [hclimb, hcur, hkey, Smt.num_keyOf t.toNat_lt]
    apply BinTree.climb_congr
    intro i hi
    rw [Smt.Proof.sibling, BinTree.proofSibling, BinTree.proofSibling, hdefault i (by omega)]
  have hroot : r = root := by
    rw [Smt.Proof.check, show Smt.treeDepth = 64 from rfl, hloop] at hcheck
    simp only [bind, Except.bind, Except.ok.injEq, decide_eq_true_eq] at hcheck
    exact Subtype.ext (hsame.trans hcheck)
  refine Contract.bind_eq_ok.mpr ⟨r, hr, ?_⟩
  rw [hroot, decide_eq_true rfl]

/-! ## What the node has stored -/

/-- A block has the transaction. -/
def Has (b : Block) : Tx → Prop
  | .plasma tx => tx ∈ b.transactions
  | .anchor tx => tx ∈ b.anchors

/-- The receipts of the transactions in the chain are there, and so are the headers of its blocks. A
receipt can be of another transaction with the same hash. -/
structure Answers (C : Crypto) (b : Backend) : Prop where
  receipts : ∀ (n : ℕ) x, n ≠ 0 → b.chain[n]? = some x → ∀ tx ∈ x.block.transactions,
    ∃ y m z, b.store.raw.lookup (tx.hash C) = some y ∧
      b.store.plasmabn.lookup (tx.hash C) = some m ∧ y.hash C = tx.hash C ∧ m ≠ 0 ∧
      b.chain[m]? = some z ∧ Has z.block y
  headers : ∀ (n : ℕ) x, n ≠ 0 → b.chain[n]? = some x →
    (b.store.headers.lookup (x.header.hash C)).isSome

/-- The two chunks of a hash after transactions were stored: those of a transaction with this hash,
or the old ones. -/
theorem storeTransactions_cases (number : ℕ) (txs : List Tx) (cs : ChunkStore) (h : Hash) :
    (∃ x ∈ txs, x.hash C = h ∧
      (txs.foldl (ChunkStore.storeTransaction C number) cs).raw.lookup h = some x ∧
      (txs.foldl (ChunkStore.storeTransaction C number) cs).plasmabn.lookup h = some number) ∨
    (∀ x ∈ txs, x.hash C ≠ h) ∧
      (txs.foldl (ChunkStore.storeTransaction C number) cs).raw.lookup h = cs.raw.lookup h ∧
      (txs.foldl (ChunkStore.storeTransaction C number) cs).plasmabn.lookup h =
        cs.plasmabn.lookup h := by
  induction txs using List.reverseRecOn with
  | nil => exact .inr ⟨by simp, rfl, rfl⟩
  | append_singleton txs x ih =>
    simp only [List.foldl_append, List.foldl_cons, List.foldl_nil, ChunkStore.storeTransaction]
    by_cases hx : h = x.hash C
    · rw [hx, Finmap.lookup_insert, Finmap.lookup_insert]
      exact .inl ⟨x, by simp, rfl, rfl, rfl⟩
    · rw [Finmap.lookup_insert_of_ne _ hx, Finmap.lookup_insert_of_ne _ hx]
      rcases ih with ⟨y, hy, hrest⟩ | ⟨hnone, hrest⟩
      · exact .inl ⟨y, by simp [hy], hrest⟩
      · refine .inr ⟨fun y hy => ?_, hrest⟩
        rcases List.mem_append.mp hy with hy | hy
        · exact hnone y hy
        · rw [List.mem_singleton.mp hy]
          exact Ne.symm hx

section
variable {b b' : Backend}

/-- A new node has nothing to answer for. -/
theorem answers_new : Answers C newBackend := by
  have hlt : ∀ {n : ℕ} {x : SealedBlock}, newBackend.chain[n]? = some x → n = 0 := by
    intro n x hx
    have h := (List.getElem?_eq_some_iff.mp hx).1
    change n < 1 at h
    omega
  exact ⟨fun n x hn hx => absurd (hlt hx) hn, fun n x hn hx => absurd (hlt hx) hn⟩

/-- The answers depend on the chain and the store alone. -/
theorem Answers.unsealed (h : Answers C b) (hchain : b'.chain = b.chain)
    (hstore : b'.store = b.store) : Answers C b' := by
  refine ⟨?_, ?_⟩
  · rw [hchain, hstore]
    exact h.receipts
  · rw [hchain, hstore]
    exact h.headers

section
variable {c : Plasma.MintChoice} {x : Plasma.Sealing} {m : Plasma.Minting Unit} {tree : Smt.Node}
  {trees : Smt.Store}

/-- What was committed is in the new block. -/
theorem has_of_committed (hs : b.Seals C c x b' m tree trees) {y : Tx} (hy : y ∈ m.committed) :
    Has b'.head.block y := by
  obtain ⟨T', hm⟩ := hs.mints
  rw [hs.head]
  change Has b'.node.currentBlock y
  rw [hm.block]
  cases y with
  | plasma tx => exact Plasma.mem_plasmaTxs.mpr hy
  | anchor tx => exact List.mem_filterMap.mpr ⟨_, hy, rfl⟩

/-- A sealed block keeps the answers. -/
theorem Answers.seals (h : Answers C b) (hok : b.Ok C) (hs : b.Seals C c x b' m tree trees) :
    Answers C b' := by
  have hlen : b.chain.length ≠ 0 := by
    rw [hok.length]
    exact Nat.succ_ne_zero _
  have hstore := hs.store_eq hok
  refine ⟨fun n y hn hy tx htx => ?_, fun n y hn hy => ?_⟩
  · have hcases := storeTransactions_cases (C := C) b.chain.length m.committed b.store
      (tx.hash C)
    rw [hstore, hs.chain]
    rcases hcases with ⟨z, hz, hhash, hraw, hbn⟩ | ⟨hnone, hraw, hbn⟩
    · exact ⟨z, b.chain.length, b'.head, hraw, hbn, hhash, hlen, List.getElem?_concat_length,
        has_of_committed hs hz⟩
    · rw [hs.chain] at hy
      rcases ListRel.getElem?_concat hy with hy | ⟨-, rfl⟩
      · obtain ⟨z, k, w, hraw', hbn', hhash, hk, hw, hhas⟩ := h.receipts n y hn hy tx htx
        exact ⟨z, k, w, hraw.trans hraw', hbn.trans hbn', hhash, hk,
          ListRel.getElem?_concat_of_some hw _, hhas⟩
      · rw [hs.body] at htx
        exact absurd rfl (hnone _ (Plasma.mem_plasmaTxs.mp htx))
  · rw [hstore]
    change ((Finmap.insert _ _ _).lookup _).isSome
    by_cases hhash : y.header.hash C = b'.head.header.hash C
    · rw [hhash, Finmap.lookup_insert]
      rfl
    · rw [Finmap.lookup_insert_of_ne _ hhash]
      rw [hs.chain] at hy
      rcases ListRel.getElem?_concat hy with hy | ⟨-, rfl⟩
      · exact h.headers n y hn hy
      · exact absurd rfl hhash

end

/-- Over every run in which all attempts complete. -/
theorem answers_of_run (h : BackendRun C (Completes C) b) : Answers C b := by
  induction h with
  | new => exact answers_new
  | @step b b' op hrun hp hs ih =>
    by_cases hmint : ∃ c x fault, op = .mint c x fault
    · obtain ⟨c, x, fault, rfl⟩ := hmint
      rcases Backend.mint_cases hs with hu | ⟨m, tree, trees, hseal⟩
      · exact ih.unsealed hu.chain (hu.store hp)
      · exact ih.seals hrun.ok hseal
    · obtain ⟨-, -, -, -, hchain, hstore⟩ :=
        Backend.step_submission hs fun c x fault heq => hmint ⟨c, x, fault, heq⟩
      exact ih.unsealed hchain hstore

/-- The blocks of the node. -/
structure Aligned (C : Crypto) (b : Backend) : Prop where
  chain : ChainInv C b.node
  blocks : b.node.chain = b.chain.map SealedBlock.block
  checked : ∀ x ∈ b.node.chain, ∀ tx ∈ x.transactions, Pooled C tx

/-- Over every run, the node and the headers have the same blocks. -/
theorem aligned_of_run {P : BackendOp → Prop} (h : BackendRun C P b) : Aligned C b := by
  induction h with
  | new =>
    refine ⟨Plasma.chainInv_new C, rfl, fun x hx tx htx => ?_⟩
    rw [List.mem_singleton.mp hx] at htx
    cases htx
  | @step b b' op hrun hp hs ih =>
    refine ⟨?_, ?_, ?_⟩
    · rcases backend_step_cases hrun.ok hs with hkept | hm
      · exact chainInv_kept ih.chain hkept
      · exact chainInv_minted ih.chain hrun.ok.checked hm
    · by_cases hmint : ∃ c x fault, op = .mint c x fault
      · obtain ⟨c, x, fault, rfl⟩ := hmint
        rcases Backend.mint_cases hs with hu | ⟨m, tree, trees, hseal⟩
        · rw [hu.node.chain, hu.chain, ih.blocks]
        · obtain ⟨T', hm⟩ := hseal.mints
          rw [hm.chain, hseal.chain, ih.blocks, List.map_append, List.map_singleton, hseal.head]
      · obtain ⟨op', hop', hs', -, hchain, -⟩ :=
          Backend.step_submission hs fun c x fault heq => hmint ⟨c, x, fault, heq⟩
        rw [(Plasma.step_pool hs' hop').2.2.1, hchain, ih.blocks]
    · rcases backend_step_cases hrun.ok hs with hkept | hm
      · rw [hkept.chain]
        exact ih.checked
      · rw [hm.chain]
        intro x hx tx htx
        rw [List.mem_append, List.mem_singleton] at hx
        rcases hx with hx | rfl
        · exact ih.checked x hx tx htx
        · exact hrun.ok.checked tx (hm.body tx htx)

/-! ## The answer for a transaction -/

/-- The strings that were hashed, those of the anchor transactions too. -/
def allHashed (C : Crypto) (b : Backend) : Set Bytes :=
  {y | y ∈ b.hashed C ∨ ∃ x ∈ b.chain, ∃ tx ∈ x.block.anchors, y = tx.bytes}

/-- The encodings of the two kinds of transactions have different numbers of fields. -/
theorem bytes_ne_anchor (tx : Transaction) (a : Plasma.AnchorTransaction) : tx.bytes ≠ a.bytes := by
  intro h
  have hitem := Rlp.encode_inj tx.length_bytes_lt h
  simp [Transaction.fields, Plasma.AnchorTransaction.fields] at hitem

section
variable (hcf : Smt.CollisionFree C.keccak (allHashed C b))

include hcf

/-- A transaction in the chain with the same hash is the same, and in the same block. -/
theorem eq_of_hash (hal : Aligned C b) {n m : ℕ} {x z : SealedBlock} (hx : b.chain[n]? = some x)
    (hz : b.chain[m]? = some z) {tx : Transaction} (htx : tx ∈ x.block.transactions) {y : Tx}
    (hy : Has z.block y) (hhash : y.hash C = tx.hash C) :
    ∃ tx', y = .plasma tx' ∧ tx'.bytes = tx.bytes ∧ m = n := by
  have hmem : tx.bytes ∈ allHashed C b := .inl (.inr (.inr (.inr
    ⟨x, List.mem_of_getElem? hx, .inr (.inl ⟨tx, htx, rfl⟩)⟩)))
  cases y with
  | anchor a =>
    have ha : a.bytes ∈ allHashed C b := .inr ⟨z, List.mem_of_getElem? hz, a, hy, rfl⟩
    exact absurd (hcf.inj hmem ha hhash.symm) (bytes_ne_anchor tx a)
  | plasma tx' =>
    have htx' : tx'.bytes ∈ allHashed C b := .inl (.inr (.inr (.inr
      ⟨z, List.mem_of_getElem? hz, .inr (.inl ⟨tx', hy, rfl⟩)⟩)))
    have hbytes : tx'.bytes = tx.bytes := hcf.inj htx' hmem hhash
    have hblock : ∀ {k : ℕ} {w : SealedBlock}, b.chain[k]? = some w →
        b.node.chain[k]? = some w.block := by
      intro k w hw
      rw [hal.blocks, List.getElem?_map, hw]
      rfl
    exact ⟨tx', rfl, hbytes, hal.chain.no_replay (hblock hz) (hblock hx) hy htx hbytes⟩

/-- The shape of the proof of a transaction. -/
theorem proof_shape (hok : b.Ok C) (hst : b.Stored C) {n : ℕ} {x : SealedBlock} (hn : n ≠ 0)
    (hx : b.chain[n]? = some x) {tx : Transaction} (htx : tx ∈ x.block.transactions)
    {p : Smt.Proof} {t : Smt.Node}
    (hgen : Smt.SparseMerkleTree.generateProof C.keccak b.store.trees.getChunk
      (Smt.keyOf tx.tokenID.toNat) (b.store.openTree x.header.transactionRoot) = .ok (p, t)) :
    p.key = Smt.keyOf tx.tokenID.toNat ∧ OneHashPerBit p := by
  have hcf : Smt.CollisionFree C.keccak (b.hashed C) := hcf.mono fun _ hy => .inl hy
  obtain ⟨ops, w, hw⟩ := hst.trees
  -- block `n` is flush `n - 1`
  obtain ⟨j, rfl⟩ := Nat.exists_eq_succ_of_ne_zero hn
  have htail : b.chain.tail[j]? = some x := by
    rw [List.getElem?_tail]
    exact hx
  have hm : (Smt.ideal ops).flushed[j]? = some (blockContents C.keccak x.block) := by
    rw [hw.flushed, List.getElem?_map, htail]
    rfl
  obtain ⟨f, hf, hroot⟩ := ListRel.getElem? hw.roots.flip htail
  have hsingle : ∀ t, (Plasma.forToken t x.block.transactions).length ≤ 1 := by
    have hlt := (List.getElem?_eq_some_iff.mp hx).1
    exact (hok.follows j _ x (List.getElem?_eq_getElem (Nat.lt_of_succ_lt hlt)) hx).single
  have hentry := (Plasma.blockContents_eq_some (C := C) hsingle tx.tokenID _).mpr
    ⟨tx, htx, rfl, rfl⟩
  have hopen : Smt.Handle.merkleRoot.open w.store f =
      b.store.openTree x.header.transactionRoot := by
    rw [ChunkStore.openTree, ← hw.store, ← hroot]
    rfl
  obtain ⟨q, t', hgen', hkey, hshape⟩ := reopened_shape hw.log.run hw.log.meets
    (hw.collisionFree hcf) hf (hw.reopenable hcf hst hx hm) hm
    Contract.blockContents_values32 hentry
  rw [hopen, hw.store] at hgen'
  obtain ⟨rfl, -⟩ := Prod.mk.inj (Except.ok.inj (hgen'.symm.trans hgen))
  exact ⟨hkey, hshape⟩

/-- `GetPlasmaTransactionProof` finds every transaction of the chain. -/
theorem proof_of_mem (h : BackendRun C (Completes C) b) {n : ℕ} {x : SealedBlock} (hn : n ≠ 0)
    (hx : b.chain[n]? = some x) {tx : Transaction} (htx : tx ∈ x.block.transactions) :
    ∃ p, b.getPlasmaTransactionProof C (tx.hash C) =
        .ok (.ok (some ⟨tx.tokenID, tx.bytes, p, n⟩)) ∧
      p.check C.keccak (tx.hash C).1 x.header.transactionRoot.1 = .ok true ∧
      p.key = Smt.keyOf tx.tokenID.toNat ∧ OneHashPerBit p := by
  have hst := h.stored
  have hsub : Smt.CollisionFree C.keccak (b.hashed C) := hcf.mono fun _ hy => .inl hy
  -- the receipt is that of the transaction
  obtain ⟨y, m, z, hraw, hbn, hhash, -, hz, hhas⟩ :=
    (answers_of_run h).receipts n x hn hx tx htx
  obtain ⟨tx', rfl, hbytes, rfl⟩ := eq_of_hash hcf (aligned_of_run h) hx hz htx hhas hhash
  have htoken := (Transaction.bytes_inj hbytes).1
  have hget : Plasma.getTransaction (tx.hash C) b.store =
      .ok (some { tx' with balance := 0 }, m) := by
    rw [Plasma.getTransaction, hraw, hbn]
  -- the header is that of the block
  obtain ⟨hd, hheader⟩ : ∃ hd, Plasma.getBlockHeaderByNumber m b.store = .ok hd := by
    obtain ⟨hd, hhd⟩ := Option.isSome_iff_exists.mp ((answers_of_run h).headers m x hn hx)
    refine ⟨hd, ?_⟩
    rw [Plasma.getBlockHeaderByNumber, (hst.written m x hn hx).2]
    simp only [hhd]
  have hroot := Plasma.transactionRoot_of_header hsub hst hn hx hheader
  obtain ⟨-, p, t, hgen, hcheck⟩ := Plasma.found_in_tree hsub h.ok hst hn hx htx
  obtain ⟨hkey, hshape⟩ := proof_shape hcf h.ok hst hn hx htx hgen
  refine ⟨p, ?_, hcheck, hkey, hshape⟩
  have hne : ¬ ((Transaction.bytes { tx' with balance := 0 }).length = 0 ∨ m = 0) := by
    rintro (h0 | h0)
    · exact Transaction.bytes_ne_nil _ (List.length_eq_zero_iff.mp h0)
    · exact hn h0
  rw [← htoken] at hgen ⊢
  rw [← hbytes]
  unfold Backend.getPlasmaTransactionProof
  simp only [hget, if_neg hne, hheader, hroot, hgen, bind, Except.bind]
  rfl

end

end

/-! ## Runs of the system -/

/-- No attempt of the node to mint fails, and nobody sends it a transaction of token 0. -/
def Completing (C : Crypto) : SystemOp → Prop
  | .node op _ => Completes C op
  | _ => True

theorem Change.log (h : Change C E s op s') : ∀ e ∈ s.log, e ∈ s'.log := by
  cases h with
  | executed => exact fun e he => List.mem_append_left _ he
  | same | called | made | failed => exact fun e he => he

/-- The node of the system, as a run of its own, if the contract has shown no deposit of
token 0. -/
theorem Steps.backendRun {s₀ : System} (hk : E.keccak = C.keccak) (hstart : Started C E s₀)
    (h : Steps C E (fun _ op => Honest C op ∧ Completing C op) s₀ s)
    (hlog : ∀ a i d t, .deposit a i d t ∈ s.log → t ≠ 0) :
    BackendRun C (Completes C) s.backend := by
  induction h with
  | refl =>
    rw [hstart.backend]
    exact .new
  | @step s₁ s₂ op hrun hp hs ih =>
    have hc := step_change hs
    have hrun₁ := ih fun a i d t ht => hlog a i d t (hc.log _ ht)
    have hcall : ∀ {bop b}, CallsNode s₁ op bop → s₁.backend.step C bop = .ok b →
        BackendRun C (Completes C) b := by
      intro bop b hop hstep
      refine .step bop hrun₁ ?_ hstep
      cases hop with
      | node => exact hp.2
      | @event i a d n t hevent =>
        -- the node names the token as the contract does
        have hmem := List.mem_of_getElem? hevent
        have htoken := (token_of_deposit (hrun.ok hstart.ok).run hmem).1
        rw [Contract.tokenHash_eq hk] at htoken
        change Plasma.tokenKey C d n a ≠ 0
        rw [← htoken]
        exact hlog a d n t (hc.log _ hmem)
    cases hc with
    | same => exact hrun₁
    | called hop hstep _ => exact hcall hop hstep
    | made hop hstep _ _ => exact hcall hop hstep
    | executed => exact hrun₁
    | failed => exact hrun₁

/-- The root that is published under the number of a block. -/
theorem Steps.published_root {s₀ : System} (hstart : Started C E s₀)
    (h : Steps C E (fun _ => Honest C) s₀ s) (hlen : s.backend.chain.length ≤ 2 ^ 64) {n : ℕ}
    {x : SealedBlock} (hx : s.backend.chain[n]? = some x)
    (hne : s.contract.childChain (UInt64.ofNat n) ≠ zeroHash) :
    s.contract.childChain (UInt64.ofNat n) = x.header.transactionRoot := by
  have hok := h.ok hstart.ok
  obtain ⟨mined, waiting, hcarried⟩ := h.carried_honest hstart.ok hstart.carries
  rw [hcarried.carries.roots] at hne ⊢
  obtain ⟨b, hb, hnumber, hroot⟩ := exists_of_rootsOver hne
  obtain ⟨m, -, hbm⟩ := hcarried.carries.mem_chain (List.mem_append_left _ hb)
  have hsame : b.header.blockNumber = x.header.blockNumber := by
    by_contra hdiff
    refine ofNat_blockNumber_ne hok.backend hlen (List.mem_of_getElem? hbm)
      (List.mem_of_getElem? hx) hdiff ?_
    rw [hnumber, hok.backend.numbers n x hx]
  rw [hok.backend.numbers m b hbm, hok.backend.numbers n x hx] at hsame
  subst hsame
  rw [hroot, Option.some.inj (hbm.symm.trans hx)]

/-- What is said of a state of the system. -/
structure Serves (C : Crypto) (E : Evm) (s : System) : Prop where
  ok : s.Ok C E
  run : BackendRun C (Completes C) s.backend
  distinct : Smt.CollisionFree C.keccak (allHashed C s.backend)
  empty : E.keccak [] = Contract.emptyHash
  keccak : E.keccak = C.keccak
  published : ∀ {n : ℕ} {x : SealedBlock}, s.backend.chain[n]? = some x →
    s.contract.childChain (UInt64.ofNat n) ≠ zeroHash →
    s.contract.childChain (UInt64.ofNat n) = x.header.transactionRoot

/-- A run of the system serves its proofs. -/
theorem Steps.serves {s₀ : System} (hstart : Started C E s₀)
    (h : Steps C E (fun _ op => Honest C op ∧ Completing C op) s₀ s)
    (hlog : ∀ a i d t, .deposit a i d t ∈ s.log → t ≠ 0)
    (hlen : s.backend.chain.length ≤ 2 ^ 64) (hk : E.keccak = C.keccak)
    (hempty : E.keccak [] = Contract.emptyHash)
    (hcf : Smt.CollisionFree C.keccak (allHashed C s.backend)) : Serves C E s where
  ok := h.ok hstart.ok
  run := h.backendRun hk hstart hlog
  distinct := hcf
  empty := hempty
  keccak := hk
  published hx hne := (h.mono fun _ _ hp => hp.1).published_root hstart hlen hx hne

/-- The answer of the node for a transaction of a published block, and that the contract takes
it. -/
theorem Serves.accepted (h : Serves C E s) {n : ℕ} {x : SealedBlock} (hn : n ≠ 0)
    (hx : s.backend.chain[n]? = some x) {tx : Transaction} (htx : tx ∈ x.block.transactions)
    (hpub : s.contract.childChain (UInt64.ofNat n) ≠ zeroHash) :
    ∃ p, s.backend.getPlasmaTransactionProof C (tx.hash C) =
        .ok (.ok (some ⟨tx.tokenID, tx.bytes, p, n⟩)) ∧
      checkMembership E s.contract.smt (E.keccak tx.bytes)
        (s.contract.childChain (UInt64.ofNat n)) tx.tokenID p.bytes = .ok true := by
  obtain ⟨p, hserved, hcheck, hkey, hshape⟩ := proof_of_mem h.distinct h.run hn hx htx
  refine ⟨p, hserved, checkMembership_of_check h.empty h.ok.run.smt hkey hshape ?_⟩
  rw [h.published hx hpub, h.keccak]
  exact hcheck

/-- In every run in which no store operation fails and no token has the number 0, the node answers
for a transaction of a published block with this block, and with a proof that the contract takes for
the root that was published, if no two of the strings that were hashed collide. -/
theorem served_proof_accepted {s₀ : System} (hstart : Started C E s₀)
    (h : Steps C E (fun _ op => Honest C op ∧ Completing C op) s₀ s)
    (hlog : ∀ a i d t, .deposit a i d t ∈ s.log → t ≠ 0)
    (hlen : s.backend.chain.length ≤ 2 ^ 64) (hk : E.keccak = C.keccak)
    (hempty : E.keccak [] = Contract.emptyHash)
    (hcf : Smt.CollisionFree C.keccak (allHashed C s.backend)) {n : ℕ} {x : SealedBlock}
    (hn : n ≠ 0) (hx : s.backend.chain[n]? = some x) {tx : Transaction}
    (htx : tx ∈ x.block.transactions)
    (hpub : s.contract.childChain (UInt64.ofNat n) ≠ zeroHash) :
    ∃ p, s.backend.getPlasmaTransactionProof C (tx.hash C) =
        .ok (.ok (some ⟨tx.tokenID, tx.bytes, p, n⟩)) ∧
      checkMembership E s.contract.smt (E.keccak tx.bytes)
        (s.contract.childChain (UInt64.ofNat n)) tx.tokenID p.bytes = .ok true :=
  (h.serves hstart hlog hlen hk hempty hcf).accepted hn hx htx hpub

/-! ### A deposit and a transfer -/

/-- The operator's key alone, whose signatures are 65 bytes long with a recovery value below 4. -/
def operatorCrypto : Crypto :=
  { Plasma.smallCrypto with ecrecover := Contract.checkedCrypto.ecrecover }

/-- The root chain below: the same hash, and the same key. -/
def operatorEvm : Evm := ⟨smallHash, fun _ _ _ _ => Plasma.smallCrypto.operatorAddr⟩

/-- All strings that are hashed for blocks with at most one of these transactions. -/
def stringsOf (txs : List Transaction) (b : Backend) : List Bytes :=
  Contract.chainStrings smallHash txs ++ b.store.trees.map Prod.snd ++
    b.chain.map fun x => x.header.unsigned

/-- The blocks have no anchor transactions, and at most one of these transactions each. -/
def AtMostOne (txs : List Transaction) (b : Backend) : Prop :=
  ∀ x ∈ b.chain, x.block.anchors = [] ∧
    (x.block.transactions = [] ∨ ∃ tx ∈ txs, x.block.transactions = [tx])

section
variable {txs : List Transaction} {b : Backend} (hk : C.keccak = smallHash)
  (hbodies : AtMostOne txs b)

include hk hbodies

theorem hashed_subset_stringsOf : b.hashed C ⊆ {y | y ∈ stringsOf txs b} := by
  have hchain : ∀ {y}, y ∈ Contract.chainStrings smallHash txs → y ∈ stringsOf txs b :=
    fun hy => List.mem_append_left _ (List.mem_append_left _ hy)
  have hempty : ∀ {y}, y ∈ Contract.emptyStrings smallHash → y ∈ stringsOf txs b :=
    fun hy => hchain (Contract.mem_chainStrings.mpr (.inr (.inr (.inl hy))))
  -- the cases of `Backend.hashed`
  rintro y (rfl | hy | hy | ⟨x, hx, rfl | ⟨tx, htx, rfl⟩ | hy⟩)
  · exact hchain (Contract.mem_chainStrings.mpr (.inl rfl))
  · exact List.mem_append_left _ (List.mem_append_right _ (List.mem_map.mpr ⟨_, hy, rfl⟩))
  · rw [hk] at hy
    exact hempty (Plasma.mem_emptyStrings (by decide) hy)
  · exact List.mem_append_right _ (List.mem_map.mpr ⟨x, hx, rfl⟩)
  · rcases (hbodies x hx).2 with hnil | ⟨tx', htx', hone⟩
    · rw [hnil] at htx
      cases htx
    · rw [hone, List.mem_singleton] at htx
      exact hchain (Contract.mem_chainStrings.mpr (.inr (.inl ⟨tx', htx', by rw [htx]⟩)))
  · rw [hk] at hy
    rcases (hbodies x hx).2 with hnil | ⟨tx, htx, hone⟩
    · have hcontents : blockContents smallHash x.block = Smt.Contents.empty := by
        funext k
        rw [blockContents, hnil]
        rfl
      rw [hcontents] at hy
      exact hempty (Plasma.mem_emptyStrings (by decide) hy)
    · have hcontents : blockContents smallHash x.block =
          blockContents smallHash (Contract.oneTxBlock 1 tx) := by
        funext k
        rw [blockContents, hone]
        rfl
      rw [hcontents] at hy
      rcases Contract.hashedPairs_oneTxBlock hy with hy | hy
      · exact hempty hy
      · exact hchain (Contract.mem_chainStrings.mpr (.inr (.inr (.inr ⟨tx, htx, hy⟩))))

/-- The hashes of all strings are different numbers, and none is 0. -/
theorem collisionFree_of_stringsOf
    (hnodup : (0 :: (stringsOf txs b).map fun y => Bytes.ofBE (smallHash y).1).Nodup) :
    Smt.CollisionFree C.keccak (allHashed C b) := by
  have hsub : allHashed C b ⊆ {y | y ∈ stringsOf txs b} := by
    rintro y (hy | ⟨x, hx, tx, htx, -⟩)
    · exact hashed_subset_stringsOf hk hbodies hy
    · rw [(hbodies x hx).1] at htx
      cases htx
  obtain ⟨hzero, hnodup⟩ := List.nodup_cons.mp hnodup
  rw [hk]
  refine ⟨(Contract.injOn_of_nodup hnodup).mono hsub, ?_⟩
  intro y hy heq
  apply hzero
  refine List.mem_map.mpr ⟨y, hsub hy, ?_⟩
  rw [heq]
  rfl

end

/-- The transfer of the deposit to somebody else. -/
def otherTransfer : Transaction := Plasma.smallTransfer Plasma.oneAddress

/-- The deposit is minted and published, and then a transfer of it. -/
def depositAndTransfer : List SystemOp :=
  depositBlock ⟨true, true⟩ ++
    [.mine (Contract.callAt 20 Plasma.zeroAddress), .node (.send otherTransfer) ⟨false, false⟩,
      .node (.mint ⟨[otherTransfer], [], ⟨[smallDeposit.tokenID],
        [Plasma.smallCrypto.operatorAddr, Plasma.oneAddress], []⟩⟩ Plasma.bareSealing none)
        ⟨true, true⟩,
      .mine (Contract.callAt 30 Plasma.zeroAddress)]

instance (C : Crypto) : DecidablePred (Completing C)
  | .node (.deposit t) _ => inferInstanceAs
      (Decidable (Plasma.tokenKey C t.depositIndex t.denomination t.depositor ≠ 0))
  | .node (.send tx) _ => inferInstanceAs (Decidable (tx.tokenID ≠ 0))
  | .node (.sendAnchor _ _ _) _ => inferInstanceAs (Decidable True)
  | .node (.mint _ _ fault) _ => inferInstanceAs (Decidable (fault = none))
  | .event _ | .mine _ | .call _ _ => inferInstanceAs (Decidable True)

/-- No deposit of token 0. -/
def noZeroToken : List Event → Bool
  | [] => true
  | .deposit _ _ _ t :: log => decide (t ≠ 0) && noZeroToken log
  | .payment _ :: log | .exitCompleted _ :: log => noZeroToken log

theorem ne_zero_of_noZeroToken {log : List Event} (h : noZeroToken log = true) :
    ∀ a i d t, .deposit a i d t ∈ log → t ≠ 0 := by
  induction log with
  | nil => exact fun _ _ _ _ ht => by cases ht
  | cons e log ih =>
    intro a i d t ht
    cases e with
    | deposit a' i' d' t' =>
      rw [noZeroToken, Bool.and_eq_true, decide_eq_true_eq] at h
      rcases List.mem_cons.mp ht with ht | ht
      · cases ht
        exact h.1
      · exact ih h.2 a i d t ht
    | payment _ | exitCompleted _ =>
      rcases List.mem_cons.mp ht with ht | ht
      · cases ht
      · exact ih h a i d t ht

instance (txs : List Transaction) (b : Backend) : Decidable (AtMostOne txs b) :=
  inferInstanceAs (Decidable (∀ x ∈ b.chain, _ ∧ (_ ∨ ∃ tx ∈ txs, _)))

/-- What is computed of the state that these steps lead to. -/
def Computed (s : System) : Prop :=
  (0 :: (stringsOf [smallDeposit, otherTransfer] s.backend).map fun y =>
      Bytes.ofBE (smallHash y).1).Nodup ∧
    AtMostOne [smallDeposit, otherTransfer] s.backend ∧ noZeroToken s.log = true ∧
    (s.backend.chain.map fun x => x.block.transactions) =
      [[], [smallDeposit], [otherTransfer]] ∧
    s.contract.childChain (UInt64.ofNat 1) ≠ zeroHash ∧
    s.contract.childChain (UInt64.ofNat 2) ≠ zeroHash

instance (s : System) : Decidable (Computed s) := inferInstanceAs (Decidable (_ ∧ _))

section
variable (h : Computed s)
include h

theorem Computed.collisionFree :
    Smt.CollisionFree operatorCrypto.keccak (allHashed operatorCrypto s.backend) :=
  collisionFree_of_stringsOf rfl h.2.1 h.1

theorem Computed.length : s.backend.chain.length = 3 := by
  have hlen := congrArg List.length h.2.2.2.1
  rwa [List.length_map] at hlen

theorem Computed.block {n : ℕ} {txs : List Transaction}
    (hn : [[], [smallDeposit], [otherTransfer]][n]? = some txs) :
    ∃ x, s.backend.chain[n]? = some x ∧ x.block.transactions = txs := by
  rw [← h.2.2.2.1, List.getElem?_map] at hn
  exact Option.map_eq_some_iff.mp hn

end

/-- The transfer is answered for with a proof that the contract takes. -/
theorem served_proof_accepted_transfer : ∃ s₀ s p, Started operatorCrypto operatorEvm s₀ ∧
    Steps operatorCrypto operatorEvm
      (fun _ op => Honest operatorCrypto op ∧ Completing operatorCrypto op) s₀ s ∧
    s.backend.getPlasmaTransactionProof operatorCrypto (otherTransfer.hash operatorCrypto) =
      .ok (.ok (some ⟨otherTransfer.tokenID, otherTransfer.bytes, p, 2⟩)) ∧
    checkMembership operatorEvm s.contract.smt (operatorEvm.keccak otherTransfer.bytes)
      (s.contract.childChain 2) otherTransfer.tokenID p.bytes = .ok true := by
  obtain ⟨s₀, s, hstart, hrun, hs⟩ := exists_steps operatorCrypto operatorEvm
    (fun _ op => Honest operatorCrypto op ∧ Completing operatorCrypto op) depositAndTransfer
    Computed (fun _ => by decide +kernel) (by decide +kernel)
  obtain ⟨x, hx, htxs⟩ := hs.block (n := 2) rfl
  obtain ⟨p, hp, haccepted⟩ := served_proof_accepted hstart hrun
    (ne_zero_of_noZeroToken hs.2.2.1) (by rw [hs.length]; norm_num) rfl rfl hs.collisionFree
    (n := 2) (by norm_num) hx (by rw [htxs]; exact List.mem_singleton_self _) hs.2.2.2.2.2
  exact ⟨s₀, s, p, hstart, hrun, hp, haccepted⟩

end GoPlasma.Bridge
