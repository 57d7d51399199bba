import GoPlasma.Plasma.SealTheorems

/-!
# Receipts and proofs of inclusion

`GetPlasmaTransactionReceipt` and `GetPlasmaTransactionProof` answer from what is stored while a
transaction is applied, before its block is there, and nothing of it is taken back when the attempt
to mint fails. In runs in which no attempt fails and no token has the number 0, which a tree that is
read from the store does not have, the answers are right (`answers_sound`).
-/

namespace GoPlasma.Plasma

open Act
open Contract (blockContents)
open Smt (Contents keyOf num)

variable {C : Crypto} {s s' : Backend} {cs : ChunkStore}

/-! ## The chunks -/

/-- A storage that keeps its chunks. -/
def chunkStorage (T : Tries) : Storage (Bytes → Option Bytes) where
  getToken tokenID chunks := ((mapStorage T).getToken tokenID ()).map fun r => (r.1, chunks)
  hasToken tokenID chunks := ((mapStorage T).hasToken tokenID ()).map fun r => (r.1, chunks)
  getAccount key chunks := ((mapStorage T).getAccount key ()).map fun r => (r.1, chunks)
  getChain chainID chunks := ((mapStorage T).getChain chainID ()).map fun r => (r.1, chunks)
  setChunk k v chunks := .ok (.ok (), Function.update chunks k (some v))

/-- The encoding of a transaction of either kind. -/
def Tx.bytes : Tx → Bytes
  | .plasma tx => tx.bytes
  | .anchor tx => tx.bytes

/-- What is stored for transactions, as chunks. -/
structure ChunkStore.Encoded (cs : ChunkStore) (chunks : Bytes → Option Bytes) : Prop where
  raw : ∀ h : Hash, chunks (ascii "raw" ++ h.1) = (cs.raw.lookup h).map Tx.bytes
  plasmabn : ∀ h : Hash, chunks (ascii "plasmabn" ++ h.1) =
    (cs.plasmabn.lookup h).map fun n => uInt64ToByte (UInt64.ofNat n)

theorem length_ascii_raw (h : Hash) : (ascii "raw" ++ h.1).length = 35 := by
  rw [List.length_append, h.2]
  rfl

theorem length_ascii_plasmabn (h : Hash) : (ascii "plasmabn" ++ h.1).length = 40 := by
  rw [List.length_append, h.2]
  rfl

theorem ascii_raw_ne (h h' : Hash) : ascii "raw" ++ h.1 ≠ ascii "plasmabn" ++ h'.1 := by
  intro heq
  have hlen := congrArg List.length heq
  rw [length_ascii_raw, length_ascii_plasmabn] at hlen
  cases hlen

/-- A chunk under a key of another length is of another kind. -/
theorem ChunkStore.Encoded.update {chunks : Bytes → Option Bytes} (h : cs.Encoded chunks)
    {k : Bytes} (v : Option Bytes) (hraw : k.length ≠ 35) (hbn : k.length ≠ 40) :
    cs.Encoded (Function.update chunks k v) where
  raw hash := by
    rw [Function.update_of_ne, h.raw]
    exact fun heq => hraw (heq ▸ length_ascii_raw hash)
  plasmabn hash := by
    rw [Function.update_of_ne, h.plasmabn]
    exact fun heq => hbn (heq ▸ length_ascii_plasmabn hash)

/-- The first two chunks that a transaction is stored with. -/
theorem ChunkStore.Encoded.store {chunks : Bytes → Option Bytes} (h : cs.Encoded chunks) (n : ℕ)
    (tx : Tx) : (cs.storeTransaction C n tx).Encoded
      (Function.update (Function.update chunks (ascii "raw" ++ (tx.hash C).1) (some tx.bytes))
        (ascii "plasmabn" ++ (tx.hash C).1) (some (uInt64ToByte (UInt64.ofNat n)))) where
  raw hash := by
    rw [Function.update_of_ne (ascii_raw_ne _ _), ChunkStore.storeTransaction]
    by_cases hh : hash = tx.hash C
    · rw [hh, Function.update_self, Finmap.lookup_insert]
      rfl
    · rw [Function.update_of_ne (fun heq => hh (Subtype.ext (List.append_cancel_left heq))),
        Finmap.lookup_insert_of_ne _ hh, h.raw]
  plasmabn hash := by
    rw [ChunkStore.storeTransaction]
    by_cases hh : hash = tx.hash C
    · rw [hh, Function.update_self, Finmap.lookup_insert]
      rfl
    · rw [Function.update_of_ne (fun heq => hh (Subtype.ext (List.append_cancel_left heq))),
        Finmap.lookup_insert_of_ne _ hh, Function.update_of_ne (ascii_raw_ne _ _).symm, h.plasmabn]

/-- `StoreTransaction` and `StoreAnchorTransaction` write what `ChunkStore.storeTransaction` says,
for the transactions that the pool can have. Their other chunks have keys of other lengths. -/
theorem storeTx_encoded {T : Tries} {tx : Tx} {n : ℕ} (hgood : tx.Good C)
    (w : Env (Bytes → Option Bytes)) (h : cs.Encoded w.store) :
    ∃ chunks, storeTx C (chunkStorage T) n tx w = .ok (.ok (), { w with store := chunks }) ∧
      (cs.storeTransaction C n tx).Encoded chunks := by
  have hset : ∀ k v (w : Env (Bytes → Option Bytes)), (setChunk (chunkStorage T) k v) w =
      .ok (.ok (), { w with store := Function.update w.store k (some v) }) := fun _ _ _ => rfl
  have hstored := h.store (C := C) n tx
  cases tx with
  | plasma tx =>
    rw [storeTx, storeTransaction, bind_ok (hset _ _ w), bind_ok (hset _ _ _)]
    -- a deposit has two more chunks, with keys of 21 and of 32 bytes
    by_cases h0 : tx.prevBlock = 0
    · rw [if_pos h0, bind_ok (hset _ _ _)]
      simp only [hgood h0, ne_eq, not_true_eq_false, if_false, hset]
      refine ⟨_, rfl, (hstored.update _ ?_ ?_).update _ ?_ ?_⟩
      · simp [ascii]
      · simp [ascii]
      · rw [(C.keccak _).2]
        decide
      · rw [(C.keccak _).2]
        decide
    · rw [if_neg h0]
      exact ⟨_, rfl, hstored⟩
  | anchor tx =>
    rw [storeTx, storeAnchorTransaction, bind_ok (hset _ _ w), bind_ok (hset _ _ _), hset]
    refine ⟨_, rfl, hstored.update _ ?_ ?_⟩
    · rw [List.length_append, (tx.hash C).2]
      decide
    · rw [List.length_append, (tx.hash C).2]
      decide

/-! ## The writes -/

/-- The other chunks are left alone. -/
theorem storeTransactions_frame (number : ℕ) (txs : List Tx) (cs : ChunkStore) :
    ∃ raw plasmabn, txs.foldl (ChunkStore.storeTransaction C number) cs =
      { cs with raw := raw, plasmabn := plasmabn } := by
  induction txs using List.reverseRecOn with
  | nil => exact ⟨cs.raw, cs.plasmabn, rfl⟩
  | append_singleton txs tx ih =>
    obtain ⟨raw, plasmabn, h⟩ := ih
    rw [List.foldl_append, h]
    exact ⟨_, _, rfl⟩

/-- Where a receipt comes from: it was there, or one of the transactions was stored. -/
theorem storeTransactions_lookup {number : ℕ} (txs : List Tx) {h : Hash} {tx : Transaction} {n : ℕ}
    (hraw : (txs.foldl (ChunkStore.storeTransaction C number) cs).raw.lookup h = some (.plasma tx))
    (hbn : (txs.foldl (ChunkStore.storeTransaction C number) cs).plasmabn.lookup h = some n) :
    (cs.raw.lookup h = some (.plasma tx) ∧ cs.plasmabn.lookup h = some n) ∨
      (n = number ∧ Tx.plasma tx ∈ txs ∧ tx.hash C = h) := by
  induction txs using List.reverseRecOn with
  | nil => exact .inl ⟨hraw, hbn⟩
  | append_singleton txs tx' ih =>
    simp only [List.foldl_append, List.foldl_cons, List.foldl_nil, ChunkStore.storeTransaction]
      at hraw hbn
    by_cases hh : h = tx'.hash C
    · -- both chunks are of the last transaction
      rw [hh, Finmap.lookup_insert] at hraw hbn
      obtain rfl := Option.some.inj hraw
      exact .inr ⟨(Option.some.inj hbn).symm, by simp, hh.symm⟩
    · rw [Finmap.lookup_insert_of_ne _ hh] at hraw hbn
      rcases ih hraw hbn with h | ⟨hn, hmem, hhash⟩
      · exact .inl h
      · exact .inr ⟨hn, List.mem_append_left _ hmem, hhash⟩

/-! ## What the store has -/

/-- The condition: no store operation fails, and there is no token 0. -/
def Completes (C : Crypto) : BackendOp → Prop
  | .deposit t => tokenKey C t.depositIndex t.denomination t.depositor ≠ 0
  | .send tx => tx.tokenID ≠ 0
  | .sendAnchor _ _ _ => True
  | .mint _ _ fault => fault = none

/-- The trees of the blocks, as a run of a chunk store: flush `j` is the one of block `j + 1`. -/
structure Backend.TreeLog (C : Crypto) (s : Backend) (ops : List Smt.Op) (w : Smt.World) :
    Prop where
  log : Smt.Log C.keccak ops w
  store : w.store = s.store.trees
  flushed : (Smt.ideal ops).flushed = s.chain.tail.map fun b => blockContents C.keccak b.block
  roots : List.Forall₂
    (fun f b => Smt.SparseMerkleTree.merkleRoot f.tree = b.header.transactionRoot)
    w.flushed s.chain.tail

/-- The receipts are of transactions in the chain, and the blocks of the chain are stored with their
headers and trees. -/
structure Backend.Stored (C : Crypto) (s : Backend) : Prop where
  receipts : ∀ h tx n, s.store.raw.lookup h = some (.plasma tx) →
    s.store.plasmabn.lookup h = some n → tx.hash C = h ∧ n ≠ 0 ∧ ∃ b, s.chain[n]? = some b ∧
      tx ∈ b.block.transactions
  written : ∀ (n : ℕ) b, n ≠ 0 → s.chain[n]? = some b → s.store.plasma.lookup n = some b ∧
    s.store.plasmaHeader.lookup n = some (b.header.hash C)
  headers : ∀ h hd, s.store.headers.lookup h = some hd →
    hd.hash C = h ∧ ∃ b ∈ s.chain, hd = b.header
  trees : ∃ ops w, s.TreeLog C ops w
  pool : ∀ tx ∈ s.node.pool.txpool, tx.tokenID ≠ 0
  bodies : ∀ b ∈ s.chain, ∀ tx ∈ b.block.transactions, tx.tokenID ≠ 0

theorem Backend.stored_new : newBackend.Stored C where
  receipts := fun h tx n hraw => by cases hraw
  written := by
    intro n b hn hb
    have hlt := (List.getElem?_eq_some_iff.mp hb).1
    change n < 1 at hlt
    omega
  headers := fun h hd hl => by cases hl
  trees := ⟨[], Smt.World.empty, ⟨rfl, fun _ _ hpre => (by simp at hpre), rfl⟩, rfl, rfl, .nil⟩
  pool := fun tx htx => by cases htx
  bodies := by
    intro b hb
    rw [List.mem_singleton.mp hb]
    exact fun tx htx => by cases htx

/-- A call that writes nothing. -/
theorem Backend.Stored.unsealed (h : s.Stored C) (hchain : s'.chain = s.chain)
    (hstore : s'.store = s.store) (hpool : ∀ tx ∈ s'.node.pool.txpool, tx.tokenID ≠ 0) :
    s'.Stored C := by
  refine ⟨?_, ?_, ?_, ?_, hpool, ?_⟩
  · rw [hchain, hstore]
    exact h.receipts
  · rw [hchain, hstore]
    exact h.written
  · rw [hchain, hstore]
    exact h.headers
  · obtain ⟨ops, w, hw⟩ := h.trees
    refine ⟨ops, w, hw.log, ?_, ?_, ?_⟩
    · rw [hstore]
      exact hw.store
    · rw [hchain]
      exact hw.flushed
    · rw [hchain]
      exact hw.roots
  · rw [hchain]
    exact h.bodies

section
variable {c : MintChoice} {x : Sealing} {m : Minting Unit} {tree : Smt.Node} {trees : Smt.Store}

/-- The store after a new block, whose number is the length of the chain before it. -/
theorem Backend.Seals.store_eq (hs : s.Seals C c x s' m tree trees) (hok : s.Ok C) :
    s'.store = { m.committed.foldl (ChunkStore.storeTransaction C s.chain.length) s.store with
      plasmaHeader := s.store.plasmaHeader.insert s.chain.length (s'.head.header.hash C)
      headers := s.store.headers.insert (s'.head.header.hash C) s'.head.header
      plasma := s.store.plasma.insert s.chain.length s'.head
      trees := trees } := by
  have hlen : s.chain.length = s.node.blockNumber + 1 := by
    rw [hok.length, hok.counter]
  have hnumber : s'.head.header.blockNumber = s.chain.length := by
    rw [hs.head, hok.length]
    rfl
  obtain ⟨raw, plasmabn, hframe⟩ :=
    storeTransactions_frame (C := C) s.chain.length m.committed s.store
  rw [hs.store, ← hlen, hframe, ← hnumber]
  rfl

theorem Backend.Seals.body (hs : s.Seals C c x s' m tree trees) :
    s'.head.block.transactions = plasmaTxs m.committed := by
  obtain ⟨T', hm⟩ := hs.mints
  rw [hs.head]
  change s'.node.currentBlock.transactions = _
  rw [hm.block]

/-- The receipts after a new block are the ones before it, and those of its transactions. -/
theorem Backend.Seals.receipts (hs : s.Seals C c x s' m tree trees) (hok : s.Ok C)
    (h : s.Stored C) {hash : Hash} {tx : Transaction} {n : ℕ}
    (hraw : s'.store.raw.lookup hash = some (.plasma tx))
    (hbn : s'.store.plasmabn.lookup hash = some n) :
    tx.hash C = hash ∧ n ≠ 0 ∧ ∃ b, s'.chain[n]? = some b ∧ tx ∈ b.block.transactions := by
  rw [hs.store_eq hok] at hraw hbn
  rw [hs.chain]
  rcases storeTransactions_lookup m.committed hraw hbn with ⟨h₁, h₂⟩ | ⟨rfl, hmem, hhash⟩
  · obtain ⟨hh, hn, b, hb, htx⟩ := h.receipts hash tx n h₁ h₂
    exact ⟨hh, hn, b, ListRel.getElem?_concat_of_some hb _, htx⟩
  · refine ⟨hhash, ?_, s'.head, List.getElem?_concat_length, ?_⟩
    · rw [hok.length]
      exact Nat.succ_ne_zero _
    · rw [hs.body]
      exact mem_plasmaTxs.mpr hmem

/-- The new block is stored with its header, under a number that no other block has. -/
theorem Backend.Seals.written (hs : s.Seals C c x s' m tree trees) (hok : s.Ok C)
    (h : s.Stored C) {n : ℕ} {b : SealedBlock} (hn : n ≠ 0) (hb : s'.chain[n]? = some b) :
    s'.store.plasma.lookup n = some b ∧
      s'.store.plasmaHeader.lookup n = some (b.header.hash C) := by
  rw [hs.chain] at hb
  rw [hs.store_eq hok]
  rcases ListRel.getElem?_concat hb with hb | ⟨rfl, rfl⟩
  · have hne : n ≠ s.chain.length := ne_of_lt (List.getElem?_eq_some_iff.mp hb).1
    change (Finmap.insert _ _ _).lookup n = _ ∧ (Finmap.insert _ _ _).lookup n = _
    rw [Finmap.lookup_insert_of_ne _ hne, Finmap.lookup_insert_of_ne _ hne]
    exact h.written n b hn hb
  · exact ⟨Finmap.lookup_insert _, Finmap.lookup_insert _⟩

theorem Backend.Seals.headers (hs : s.Seals C c x s' m tree trees) (hok : s.Ok C)
    (h : s.Stored C) {hash : Hash} {hd : Header} (hl : s'.store.headers.lookup hash = some hd) :
    hd.hash C = hash ∧ ∃ b ∈ s'.chain, hd = b.header := by
  rw [hs.store_eq hok] at hl
  change (Finmap.insert _ _ _).lookup hash = _ at hl
  rw [hs.chain]
  by_cases hh : hash = s'.head.header.hash C
  · rw [hh, Finmap.lookup_insert] at hl
    obtain rfl := Option.some.inj hl
    exact ⟨hh.symm, s'.head, by simp, rfl⟩
  · rw [Finmap.lookup_insert_of_ne _ hh] at hl
    obtain ⟨hhash, b, hb, hd⟩ := h.headers hash hd hl
    exact ⟨hhash, b, List.mem_append_left _ hb, hd⟩

/-- The tree of the new block is one more flush. -/
theorem Backend.TreeLog.seals {ops : List Smt.Op} {w : Smt.World} (h : s.TreeLog C ops w)
    (hok : s.Ok C) (hs : s.Seals C c x s' m tree trees) : ∃ ops' w', s'.TreeLog C ops' w' := by
  obtain ⟨T', hm⟩ := hs.mints
  have hinserts : ∀ call ∈ hashInserts m.env.db.objects c.order.tokens,
      ∃ k v, call = .insert k v 0 0 ∧ v.length = 32 := by
    intro call hcall
    obtain ⟨t, -, rfl⟩ := List.mem_map.mp hcall
    exact ⟨_, _, rfl, ((m.env.db.objects.thashList.lookup t).getD zeroHash).2⟩
  have hbuilt := hs.built
  rw [transactionTree, ← h.store] at hbuilt
  obtain ⟨ops', w', hlog', hw', hflushes, hideal⟩ := h.log.fresh hinserts hbuilt
  -- the chain is not empty, so the new block is at the end of its tail, too
  have htail : s'.chain.tail = s.chain.tail ++ [s'.head] := by
    have hne : s.chain ≠ [] := by
      rw [← List.length_pos_iff, hok.length]
      exact Nat.succ_pos _
    rw [hs.chain, List.tail_append_of_ne_nil hne]
  refine ⟨ops', w', hlog', ?_, ?_, ?_⟩
  · rw [hw', hs.store_eq hok]
  · rw [hideal, h.flushed, htail, List.map_append, hm.contents hok.checked, hs.head]
    rfl
  · rw [hflushes, htail]
    refine ListRel.concat h.roots ?_
    rw [hs.head]
    rfl

/-- A new block. -/
theorem Backend.Stored.seals (h : s.Stored C) (hok : s.Ok C)
    (hs : s.Seals C c x s' m tree trees) : s'.Stored C := by
  obtain ⟨T', hm⟩ := hs.mints
  have hminted := hm.minted hok.checked
  obtain ⟨ops, w, htrees⟩ := h.trees
  refine ⟨fun _ _ _ hraw hbn => hs.receipts hok h hraw hbn,
    fun _ _ hn hb => hs.written hok h hn hb, fun _ _ hl => hs.headers hok h hl,
    htrees.seals hok hs, fun tx htx => h.pool tx (hminted.pool tx htx), ?_⟩
  intro b hb tx htx
  rw [hs.chain, List.mem_append, List.mem_singleton] at hb
  rcases hb with hb | rfl
  · exact h.bodies b hb tx htx
  · -- the transactions of the block come from the pool
    rw [hs.head] at htx
    exact h.pool tx (hminted.body tx htx)

end

theorem tokenID_fillBalance (tx : Transaction) : tx.fillBalance.tokenID = tx.tokenID := by
  unfold Transaction.fillBalance
  split_ifs
  · rfl
  · rfl

theorem txpool_sendAnchorTransaction (tx : AnchorTransaction) (a r : List Address) (n : Node) :
    (sendAnchorTransaction C tx a r n).pool.txpool = n.pool.txpool := by
  unfold sendAnchorTransaction
  split_ifs
  · split
    · rfl
    · unfold Pool.addAnchorTransaction
      split_ifs
      · rfl
      · rfl
  · rfl

/-- A submission adds no transaction for token 0 to the pool. -/
theorem Backend.Stored.submission {op : BackendOp} (h : s.Stored C) (hop : Completes C op)
    (hmint : ∀ c x fault, op ≠ .mint c x fault) (hs : s.step C op = .ok s') :
    ∀ tx ∈ s'.node.pool.txpool, tx.tokenID ≠ 0 := by
  -- what a call adds to the pool has the token of its argument
  cases op with
  | deposit t =>
    cases hs
    change ∀ tx ∈ (processDeposit C t s.node).pool.txpool, _
    unfold processDeposit
    split
    · exact h.pool
    · rename_i tx hsign
      intro tx' htx'
      rcases Pool.mem_addTransaction htx' with htx' | rfl
      · exact h.pool tx' htx'
      · obtain ⟨sig, rfl⟩ := eq_of_signByOperator hsign
        exact hop
  | send tx =>
    cases hs
    change ∀ tx' ∈ (sendPlasmaTransaction C tx s.node).pool.txpool, _
    unfold sendPlasmaTransaction
    split
    · exact h.pool
    · intro tx' htx'
      rcases Pool.mem_addTransaction htx' with htx' | rfl
      · exact h.pool tx' htx'
      · rw [tokenID_fillBalance]
        exact hop
  | sendAnchor tx a r =>
    cases hs
    change ∀ tx' ∈ (sendAnchorTransaction C tx a r s.node).pool.txpool, _
    rw [txpool_sendAnchorTransaction]
    exact h.pool
  | mint c x fault => exact absurd rfl (hmint c x fault)

theorem Backend.Stored.step {op : BackendOp} (h : s.Stored C) (hok : s.Ok C) (hop : Completes C op)
    (hs : s.step C op = .ok s') : s'.Stored C := by
  by_cases hmint : ∃ c x fault, op = .mint c x fault
  · obtain ⟨c, x, fault, rfl⟩ := hmint
    rcases Backend.mint_cases hs with hu | ⟨m, tree, trees, hseal⟩
    · exact h.unsealed hu.chain (hu.store hop) fun tx htx => h.pool tx (hu.node.pool tx htx)
    · exact h.seals hok hseal
  · have hmint' : ∀ c x fault, op ≠ .mint c x fault := fun c x fault heq => hmint ⟨c, x, fault, heq⟩
    obtain ⟨-, -, -, -, hchain, hstore⟩ := Backend.step_submission hs hmint'
    exact h.unsealed hchain hstore (h.submission hop hmint' hs)

theorem BackendRun.stored (h : BackendRun C (Completes C) s) : s.Stored C := by
  induction h with
  | new => exact Backend.stored_new
  | step op hrun hp hs ih => exact ih.step hrun.ok hp hs

/-! ## Reading the trees again -/

/-- The strings that were hashed: the empty string and the pairs of the empty tree, the node chunks,
and for each block its header, the pairs of its tree and its transactions. -/
def Backend.hashed (C : Crypto) (s : Backend) : Set Bytes :=
  {y | y = [] ∨ ((C.keccak y).1, y) ∈ s.store.trees ∨
    y ∈ Smt.hashedPairs C.keccak Contents.empty (Smt.treeDepth - 1) ∨
    ∃ b ∈ s.chain, y = b.header.unsigned ∨ (∃ tx ∈ b.block.transactions, y = tx.bytes) ∨
      y ∈ Smt.hashedPairs C.keccak (blockContents C.keccak b.block) Smt.treeDepth}

theorem Header.length_unsigned_lt (h : Header) : h.unsigned.length < 2 ^ 64 := by
  have hall : (Rlp.encodeAll h.fields).length ≤ 321 := by
    simp only [Header.fields, Rlp.encodeAll, List.length_append, List.length_nil]
    have hh : ∀ y : Hash, (Rlp.encode (.str y.1)).length ≤ 41 :=
      fun y => Rlp.length_encode_fixed_le y.2 (by norm_num)
    have h₁ := hh h.parentHash
    have h₂ := Rlp.length_encode_uint_le (UInt64.ofNat h.blockNumber)
    have h₃ := Rlp.length_encode_uint_le h.time
    have h₄ := hh h.bloomID
    have h₅ := hh h.transactionRoot
    have h₆ := hh h.tokenRoot
    have h₇ := hh h.accountRoot
    have h₈ := hh h.l3ChainRoot
    have h₉ := hh h.anchorRoot
    omega
  have hle := Rlp.length_header_le 0xC0 (n := (Rlp.encodeAll h.fields).length) (by omega)
  rw [Header.unsigned, Rlp.encode, List.length_append]
  omega

/-- The encoding of a header determines its root. -/
theorem Header.transactionRoot_eq_of_unsigned {h h' : Header} (heq : h.unsigned = h'.unsigned) :
    h.transactionRoot = h'.transactionRoot := by
  have hfields : h.fields = h'.fields := Rlp.Item.list.inj (Rlp.encode_inj h.length_unsigned_lt heq)
  simp only [Header.fields, List.cons.injEq, Rlp.Item.str.injEq] at hfields
  exact Subtype.ext hfields.2.2.2.2.1

theorem Transaction.bytes_ne_nil (tx : Transaction) : tx.bytes ≠ [] := Rlp.encode_ne_nil _

section
variable {b b' : SealedBlock} (hcf : Smt.CollisionFree C.keccak (s.hashed C))

include hcf

/-- Blocks with the same leaves have the same contents. -/
theorem blockContents_eq_of_sameLeaves (hb : b ∈ s.chain) (hb' : b' ∈ s.chain)
    (h : (blockContents C.keccak b'.block).SameLeaves C.keccak (blockContents C.keccak b.block)) :
    blockContents C.keccak b'.block = blockContents C.keccak b.block := by
  have hbytes : ∀ b ∈ s.chain, ∀ tx ∈ b.block.transactions, tx.bytes ∈ s.hashed C :=
    fun b hb tx htx => .inr (.inr (.inr ⟨b, hb, .inr (.inl ⟨tx, htx, rfl⟩)⟩))
  -- a transaction does not hash to the leaf of an absent key
  have hleaf : ∀ b ∈ s.chain, ∀ t tx, (forToken t b.block.transactions).getLast? = some tx →
      (C.keccak tx.bytes).1 ≠ (C.keccak []).1 := by
    intro b hb t tx htx heq
    have htx := List.mem_of_mem_filter (List.mem_of_getLast? htx)
    exact tx.bytes_ne_nil (hcf.inj (hbytes b hb tx htx) (.inl rfl) (Subtype.ext heq))
  funext k
  have hk := h k
  have hnum : num k = (UInt64.ofNat (num k)).toNat :=
    (UInt64.toNat_ofNat_of_lt' (Smt.num_lt k)).symm
  rw [hnum, Contract.leaf_blockContents, Contract.leaf_blockContents] at hk
  rw [blockContents, blockContents]
  -- an entry is read off its leaf, token by token
  rcases h₁ : (forToken (UInt64.ofNat (num k)) b'.block.transactions).getLast? with _ | tx'
  · rcases h₂ : (forToken (UInt64.ofNat (num k)) b.block.transactions).getLast? with _ | tx
    · rfl
    · rw [h₁, h₂] at hk
      exact absurd hk.symm (hleaf b hb _ tx h₂)
  · rcases h₂ : (forToken (UInt64.ofNat (num k)) b.block.transactions).getLast? with _ | tx
    · rw [h₁, h₂] at hk
      exact absurd hk (hleaf b' hb' _ tx' h₁)
    · rw [h₁, h₂] at hk
      have hk : (C.keccak tx'.bytes).1 = (C.keccak tx.bytes).1 := hk
      simp only [Option.map_some, hk]

/-- The rows of a node chunk can hold the entries of a block. -/
theorem readable_blockContents (hst : s.Stored C) (hb : b ∈ s.chain) :
    (blockContents C.keccak b.block).Readable := by
  intro k e hk
  obtain ⟨tx, htx, rfl⟩ := Option.map_eq_some_iff.mp hk
  have htx := List.mem_of_getLast? htx
  rw [forToken, List.mem_filter, decide_eq_true_eq] at htx
  refine ⟨?_, ?_⟩
  · rintro rfl
    apply hst.bodies b hb tx htx.1
    rw [htx.2, Smt.num_zeroKey]
    rfl
  · intro hzero
    refine hcf.ne_zero tx.bytes (.inr (.inr (.inr ⟨b, hb, .inr (.inl ⟨tx, htx.1, rfl⟩)⟩))) ?_
    exact Subtype.ext hzero

/-- The header that is found for the number of a block has its root. -/
theorem transactionRoot_of_header (hst : s.Stored C) {n : ℕ} (hn : n ≠ 0)
    (hb : s.chain[n]? = some b) {hd : Header}
    (h : getBlockHeaderByNumber n s.store = .ok hd) :
    hd.transactionRoot = b.header.transactionRoot := by
  unfold getBlockHeaderByNumber at h
  rw [(hst.written n b hn hb).2] at h
  rcases hl : s.store.headers.lookup (b.header.hash C) with _ | hd'
  · simp only [hl] at h
    cases h
  · simp only [hl] at h
    obtain rfl := Except.ok.inj h
    obtain ⟨hhash, b', hb', hd⟩ := hst.headers _ hd' hl
    rw [hd] at hhash ⊢
    -- another block with the same header hash has the same header, the signature apart
    apply Header.transactionRoot_eq_of_unsigned
    refine hcf.inj ?_ ?_ hhash
    · exact .inr (.inr (.inr ⟨b', hb', .inl rfl⟩))
    · exact .inr (.inr (.inr ⟨b, List.mem_of_getElem? hb, .inl rfl⟩))

theorem Backend.TreeLog.collisionFree {ops : List Smt.Op} {w : Smt.World}
    (h : s.TreeLog C ops w) :
    Smt.CollisionFree C.keccak (Smt.hashedInputs C.keccak w (Smt.ideal ops)) := by
  refine hcf.mono ?_
  rintro y (hy | hy | hy | ⟨m, hm, hy⟩)
  · exact .inl hy
  · rw [h.store] at hy
    exact .inr (.inl hy)
  · exact .inr (.inr (.inl hy))
  · rw [h.flushed] at hm
    obtain ⟨b', hb', rfl⟩ := List.mem_map.mp hm
    exact .inr (.inr (.inr ⟨b', List.mem_of_mem_tail hb', .inr (.inr hy)⟩))

/-- The tree of a block can be opened by its root at any later time, since a later block with the
same root has the same entries. -/
theorem Backend.TreeLog.reopenable {ops : List Smt.Op} {w : Smt.World} (h : s.TreeLog C ops w)
    (hst : s.Stored C) {j : ℕ} (hb : s.chain[j + 1]? = some b)
    (hm : (Smt.ideal ops).flushed[j]? = some (blockContents C.keccak b.block)) :
    Smt.Reopenable C.keccak (Smt.ideal ops) j .merkleRoot := by
  rintro m' ⟨m, hm₀, hcand⟩
  obtain rfl := Option.some.inj (hm.symm.trans hm₀)
  have heq : m' = blockContents C.keccak b.block := by
    rcases hcand with rfl | ⟨-, j', -, hj', hsame⟩
    · rfl
    · rw [h.flushed] at hj'
      obtain ⟨b', hb', rfl⟩ := List.mem_map.mp (List.mem_of_getElem? hj')
      exact blockContents_eq_of_sameLeaves hcf (List.mem_of_getElem? hb)
        (List.mem_of_mem_tail hb') hsame
  rw [heq]
  exact ⟨readable_blockContents hcf hst (List.mem_of_getElem? hb), hm⟩

/-- A transaction of a block is found in the tree that is opened at the root of the block, and the
proof of it checks. -/
theorem found_in_tree (hok : s.Ok C) (hst : s.Stored C) {n : ℕ} (hn : n ≠ 0)
    (hb : s.chain[n]? = some b) {tx : Transaction} (htx : tx ∈ b.block.transactions) :
    HasEntry C s.store.trees.getChunk (s.store.openTree b.header.transactionRoot) tx.tokenID
        (tx.hash C).1 ∧
      ∃ p t, Smt.SparseMerkleTree.generateProof C.keccak s.store.trees.getChunk
          (keyOf tx.tokenID.toNat) (s.store.openTree b.header.transactionRoot) = .ok (p, t) ∧
        p.check C.keccak (tx.hash C).1 b.header.transactionRoot.1 = .ok true := by
  obtain ⟨ops, w, hw⟩ := hst.trees
  -- block `n` is flush `n - 1`
  obtain ⟨j, rfl⟩ := Nat.exists_eq_succ_of_ne_zero hn
  have htail : s.chain.tail[j]? = some b := by
    rw [List.getElem?_tail]
    exact hb
  have hm : (Smt.ideal ops).flushed[j]? = some (blockContents C.keccak b.block) := by
    rw [hw.flushed, List.getElem?_map, htail]
    rfl
  obtain ⟨f, hf, hroot⟩ := ListRel.getElem? hw.roots.flip htail
  have hsingle : ∀ t, (forToken t b.block.transactions).length ≤ 1 := by
    obtain ⟨b₀, hb₀⟩ : ∃ b₀, s.chain[j]? = some b₀ := by
      have hlt := (List.getElem?_eq_some_iff.mp hb).1
      exact ⟨_, List.getElem?_eq_getElem (Nat.lt_of_succ_lt hlt)⟩
    exact (hok.follows j b₀ b hb₀ hb).single
  have hentry := (blockContents_eq_some (C := C) hsingle tx.tokenID _).mpr ⟨tx, htx, rfl, rfl⟩
  have hopen : Smt.Handle.merkleRoot.open w.store f =
      s.store.openTree b.header.transactionRoot := by
    rw [ChunkStore.openTree, ← hw.store, ← hroot]
    rfl
  have hproof := Smt.reopened_proof hw.log.run hw.log.meets (hw.collisionFree hcf) hf
    (hw.reopenable hcf hst hb hm) hm hentry
  rw [hopen, hroot, hw.store] at hproof
  exact hproof

end

/-! ## Answers -/

/-- Block `n` has been written, and the tree at its root has the hash under the token. -/
def Backend.Includes (C : Crypto) (s : Backend) (hash : Hash) (t : UInt64) (n : ℕ) : Prop :=
  ∃ b, s.store.plasma.lookup n = some b ∧
    HasEntry C s.store.trees.getChunk (s.store.openTree b.header.transactionRoot) t hash.1

/-- A proof checks against the root of block `n`. -/
def Backend.Proves (C : Crypto) (s : Backend) (hash : Hash) (p : Smt.Proof) (n : ℕ) : Prop :=
  ∃ b, s.store.plasma.lookup n = some b ∧
    p.check C.keccak hash.1 b.header.transactionRoot.1 = .ok true

/-- The two chunks that a transaction is read from. -/
theorem getTransaction_eq_some {hash : Hash} {tx : Transaction} {n : ℕ}
    (h : getTransaction hash cs = .ok (some tx, n)) :
    ∃ tx', cs.raw.lookup hash = some (.plasma tx') ∧ cs.plasmabn.lookup hash = some n ∧
      tx = { tx' with balance := 0 } := by
  unfold getTransaction at h
  split at h
  · cases h
  · cases h
  · rename_i tx' hraw
    split at h
    · cases h
    · rename_i n' hbn
      obtain ⟨htx, rfl⟩ := Prod.mk.inj (Except.ok.inj h)
      exact ⟨tx', hraw, hbn, (Option.some.inj htx).symm⟩

/-- A receipt 1 comes from the chunks of a transaction. -/
theorem receipt_eq_one {hash : Hash} {tx : Option Transaction} {n : ℕ}
    (h : s.getPlasmaTransactionReceipt hash = .ok (tx, n, 1)) :
    ∃ tx', tx = some tx' ∧ getTransaction hash s.store = .ok (some tx', n) := by
  unfold Backend.getPlasmaTransactionReceipt at h
  rcases hg : getTransaction hash s.store with e | ⟨tx', bn⟩
  · rw [hg] at h
    cases h
  · rw [hg] at h
    change (if tx' = none ∨ bn = 0 then _ else _) = _ at h
    split_ifs at h with h₁ h₂
    · cases h
    · cases h
    · cases h
      obtain ⟨tx', rfl⟩ := Option.ne_none_iff_exists'.mp fun hn => h₁ (.inl hn)
      exact ⟨tx', rfl, rfl⟩

/-- A proof comes from the chunks of a transaction and the header of its block. -/
theorem proof_eq_some {hash : Hash} {a : TransactionProof}
    (h : s.getPlasmaTransactionProof C hash = .ok (.ok (some a))) :
    ∃ tx hd t, getTransaction hash s.store = .ok (some tx, a.blockNumber) ∧
      getBlockHeaderByNumber a.blockNumber s.store = .ok hd ∧ a.tokenID = tx.tokenID ∧
      Smt.SparseMerkleTree.generateProof C.keccak s.store.trees.getChunk (keyOf tx.tokenID.toNat)
        (s.store.openTree hd.transactionRoot) = .ok (a.proof, t) := by
  unfold Backend.getPlasmaTransactionProof at h
  split at h
  · cases h
  · cases h
  · rename_i tx bn hg
    split_ifs at h
    · cases h
    · split at h
      · cases h
      · rename_i hd hh
        rcases hp : Smt.SparseMerkleTree.generateProof C.keccak s.store.trees.getChunk
          (keyOf tx.tokenID.toNat) (s.store.openTree hd.transactionRoot) with e | ⟨p, t⟩
        · rw [hp] at h
          cases h
        · rw [hp] at h
          obtain rfl := Option.some.inj (Except.ok.inj (Except.ok.inj h))
          exact ⟨tx, hd, t, hg, hh, rfl, hp⟩

/-- In every run in which no store operation fails and no transaction is for token 0, a receipt 1
and a proof are for a block that has been written and whose tree has the transaction, and the proof
checks, if no two of the strings that were hashed collide. -/
theorem answers_sound (h : BackendRun C (Completes C) s)
    (hcf : Smt.CollisionFree C.keccak (s.hashed C)) (hash : Hash) :
    (∀ tx n, s.getPlasmaTransactionReceipt hash = .ok (tx, n, 1) →
      ∃ tx', tx = some tx' ∧ s.Includes C hash tx'.tokenID n) ∧
    ∀ a, s.getPlasmaTransactionProof C hash = .ok (.ok (some a)) →
      s.Includes C hash a.tokenID a.blockNumber ∧ s.Proves C hash a.proof a.blockNumber := by
  have hok := h.ok
  have hst := h.stored
  refine ⟨?_, ?_⟩
  · intro tx n hr
    obtain ⟨tx', rfl, hg⟩ := receipt_eq_one hr
    refine ⟨tx', rfl, ?_⟩
    obtain ⟨tx, hraw, hbn, rfl⟩ := getTransaction_eq_some hg
    obtain ⟨rfl, hn, b, hb, htx⟩ := hst.receipts hash tx n hraw hbn
    exact ⟨b, (hst.written n b hn hb).1, (found_in_tree hcf hok hst hn hb htx).1⟩
  · intro a hp
    obtain ⟨tx', hd, t, hg, hh, hid, hgen⟩ := proof_eq_some hp
    obtain ⟨tx, hraw, hbn, rfl⟩ := getTransaction_eq_some hg
    obtain ⟨rfl, hn, b, hb, htx⟩ := hst.receipts hash tx _ hraw hbn
    obtain ⟨hfound, p, t', hgen', hcheck⟩ := found_in_tree hcf hok hst hn hb htx
    -- the proof is generated in the tree of the block whose receipt was found
    rw [transactionRoot_of_header hcf hst hn hb hh] at hgen
    obtain ⟨rfl, -⟩ := Prod.mk.inj (Except.ok.inj (hgen'.symm.trans hgen))
    have hwritten := (hst.written _ b hn hb).1
    rw [hid]
    exact ⟨⟨b, hwritten, hfound⟩, b, hwritten, hcheck⟩

/-! ### One block -/

/-- All signatures are by the owner of the empty key, who is the operator. -/
def smallCrypto : Crypto where
  keccak := Contract.smallHash
  ecrecover _ _ := .ok [4]
  operatorAddr := ⟨(Contract.smallHash []).1.drop 12, by
    rw [List.length_drop, (Contract.smallHash []).2]⟩
  operatorSign _ := .ok []

/-- The deposit of 5 by the operator. -/
def operatorDeposit (C : Crypto) : Transaction :=
  { depositTransaction C ⟨0, 5, C.operatorAddr⟩ with sig := zeroSig }

/-- It is minted, if the store does not fail. -/
def depositAttempt (C : Crypto) (fault : Option Fault) : List BackendOp :=
  [.deposit ⟨0, 5, C.operatorAddr⟩,
    .mint ⟨[operatorDeposit C], [], ⟨[(operatorDeposit C).tokenID], [C.operatorAddr], []⟩⟩
      bareSealing fault]

def smallDeposit : Transaction := operatorDeposit smallCrypto

/-- All strings that are hashed for blocks with at most this transaction. -/
def Backend.strings (tx : Transaction) (s : Backend) : List Bytes :=
  Contract.chainStrings Contract.smallHash [tx] ++ s.store.trees.map Prod.snd ++
    s.chain.map fun b => b.header.unsigned

theorem mem_emptyStrings {keccak : Bytes → Hash} {d : ℕ} (hd : d ≤ 64) {y : Bytes}
    (hy : y ∈ Smt.hashedPairs keccak Contents.empty d) : y ∈ Contract.emptyStrings keccak := by
  obtain ⟨_, ⟨h, p, hh, rfl⟩, rfl⟩ := hy
  refine List.mem_map.mpr ⟨h, List.mem_range.mpr (by omega), ?_⟩
  rw [Smt.root_empty, Smt.root_empty]

theorem Backend.hashed_subset {tx : Transaction}
    (hbodies : ∀ b ∈ s.chain, b.block.transactions = [] ∨ b.block.transactions = [tx]) :
    s.hashed smallCrypto ⊆ {y | y ∈ s.strings tx} := by
  have hchain : ∀ {y}, y ∈ Contract.chainStrings Contract.smallHash [tx] → y ∈ s.strings tx :=
    fun hy => List.mem_append_left _ (List.mem_append_left _ hy)
  have hempty : ∀ {y}, y ∈ Contract.emptyStrings Contract.smallHash → y ∈ s.strings tx :=
    fun hy => hchain (Contract.mem_chainStrings.mpr (.inr (.inr (.inl hy))))
  -- the cases of `Backend.hashed`
  rintro y (rfl | hy | hy | ⟨b, hb, rfl | ⟨tx', htx', rfl⟩ | hy⟩)
  · exact hchain (Contract.mem_chainStrings.mpr (.inl rfl))
  · refine List.mem_append_left _ (List.mem_append_right _ ?_)
    exact List.mem_map.mpr ⟨_, hy, rfl⟩
  · exact hempty (mem_emptyStrings (by decide) hy)
  · exact List.mem_append_right _ (List.mem_map.mpr ⟨b, hb, rfl⟩)
  · rcases hbodies b hb with hnil | hone
    · rw [hnil] at htx'
      cases htx'
    · rw [hone, List.mem_singleton] at htx'
      subst htx'
      exact hchain (Contract.mem_chainStrings.mpr (.inr (.inl ⟨tx', List.mem_cons_self, rfl⟩)))
  · rcases hbodies b hb with hnil | hone
    · have hcontents : blockContents smallCrypto.keccak b.block = Contents.empty := by
        funext k
        rw [blockContents, hnil]
        rfl
      rw [hcontents] at hy
      exact hempty (mem_emptyStrings (by decide) hy)
    · have hcontents : blockContents smallCrypto.keccak b.block =
          blockContents Contract.smallHash (Contract.oneTxBlock 1 tx) := by
        funext k
        rw [blockContents, hone]
        rfl
      rw [hcontents] at hy
      rcases Contract.hashedPairs_oneTxBlock hy with hy | hy
      · exact hempty hy
      · exact hchain (Contract.mem_chainStrings.mpr
          (.inr (.inr (.inr ⟨tx, List.mem_cons_self, hy⟩))))

/-- The answer of `GetPlasmaTransactionReceipt`, with only the token of the transaction. -/
def Backend.receipt (hash : Hash) (s : Backend) : Option (Option UInt64 × ℕ × UInt8) :=
  match s.getPlasmaTransactionReceipt hash with
  | .ok (tx, n, r) => some (tx.map (·.tokenID), n, r)
  | .error _ => none

/-- The block that `GetPlasmaTransactionProof` gives with a proof. -/
def Backend.provenIn (C : Crypto) (hash : Hash) (s : Backend) : Option ℕ :=
  match s.getPlasmaTransactionProof C hash with
  | .ok (.ok (some a)) => some a.blockNumber
  | _ => none

theorem exists_of_receipt {hash : Hash} {t : UInt64} {n : ℕ} {r : UInt8}
    (h : s.receipt hash = some (some t, n, r)) :
    ∃ tx, s.getPlasmaTransactionReceipt hash = .ok (some tx, n, r) ∧ tx.tokenID = t := by
  unfold Backend.receipt at h
  split at h
  · rename_i tx n' r' hr
    obtain ⟨htoken, hrest⟩ := Prod.mk.inj (Option.some.inj h)
    obtain ⟨rfl, rfl⟩ := Prod.mk.inj hrest
    obtain ⟨tx, rfl, rfl⟩ := Option.map_eq_some_iff.mp htoken
    exact ⟨tx, hr, rfl⟩
  · cases h

theorem exists_of_provenIn {hash : Hash} {n : ℕ} (h : s.provenIn C hash = some n) :
    ∃ a, s.getPlasmaTransactionProof C hash = .ok (.ok (some a)) ∧ a.blockNumber = n := by
  unfold Backend.provenIn at h
  split at h
  · rename_i a ha
    exact ⟨a, ha, Option.some.inj h⟩
  · cases h

theorem answers_sound_oneBlock : ∃ s tx a,
    newBackend.exec smallCrypto (depositAttempt smallCrypto none) = .ok s ∧
    s.getPlasmaTransactionReceipt (smallDeposit.hash smallCrypto) = .ok (some tx, 1, 1) ∧
    s.Includes smallCrypto (smallDeposit.hash smallCrypto) tx.tokenID 1 ∧
    s.getPlasmaTransactionProof smallCrypto (smallDeposit.hash smallCrypto) = .ok (.ok (some a)) ∧
    s.Includes smallCrypto (smallDeposit.hash smallCrypto) a.tokenID 1 ∧
    s.Proves smallCrypto (smallDeposit.hash smallCrypto) a.proof 1 := by
  obtain ⟨s, hs, hnodup, hbodies, hr, hp⟩ := Backend.exists_exec smallCrypto
    (depositAttempt smallCrypto none)
    (fun s => (0 :: (s.strings smallDeposit).map fun y =>
        Bytes.ofBE (Contract.smallHash y).1).Nodup ∧
      (∀ b ∈ s.chain, b.block.transactions = [] ∨ b.block.transactions = [smallDeposit]) ∧
      s.receipt (smallDeposit.hash smallCrypto) = some (some smallDeposit.tokenID, 1, 1) ∧
      s.provenIn smallCrypto (smallDeposit.hash smallCrypto) = some 1) (by decide +kernel)
  have hrun : BackendRun smallCrypto (Completes smallCrypto) s := by
    refine .exec smallCrypto .new _ ?_ hs
    intro op hop
    rcases List.mem_pair.mp hop with rfl | rfl
    · change smallDeposit.tokenID ≠ 0
      decide +kernel
    · rfl
  -- the hashes of all strings are different numbers, and none is 0
  have hcf : Smt.CollisionFree smallCrypto.keccak (s.hashed smallCrypto) := by
    obtain ⟨hzero, hnodup⟩ := List.nodup_cons.mp hnodup
    refine ⟨(Contract.injOn_of_nodup hnodup).mono (Backend.hashed_subset hbodies), ?_⟩
    intro y hy heq
    apply hzero
    refine List.mem_map.mpr ⟨y, Backend.hashed_subset hbodies hy, ?_⟩
    change Bytes.ofBE (smallCrypto.keccak y).1 = 0
    rw [heq]
    rfl
  obtain ⟨tx, hr, _⟩ := exists_of_receipt hr
  obtain ⟨a, ha, hn⟩ := exists_of_provenIn hp
  obtain ⟨hreceipt, hproof⟩ := answers_sound hrun hcf (smallDeposit.hash smallCrypto)
  obtain ⟨tx', htx', hincluded⟩ := hreceipt (some tx) 1 hr
  obtain rfl := Option.some.inj htx'
  have hshown := hproof a ha
  rw [hn] at hshown
  exact ⟨s, tx, a, hs, hr, hincluded, ha, hshown.1, hshown.2⟩

/-! ### Failed attempts -/

/-- The operator gives the token away. -/
def smallTransfer (recipient : Address) : Transaction :=
  { smallDeposit with prevBlock := 1, recipient := recipient }

/-- The deposit is minted, and an attempt to mint a transfer fails. Then another transfer of the
token is sent, and it comes first in the next attempt. -/
def competingTransfers : List BackendOp :=
  depositAttempt smallCrypto none ++
    [.send (smallTransfer oneAddress),
      .mint ⟨[smallTransfer oneAddress], [],
        ⟨[smallDeposit.tokenID], [smallCrypto.operatorAddr, oneAddress], []⟩⟩
        bareSealing (some .flush),
      .send (smallTransfer zeroAddress),
      .mint ⟨[smallTransfer zeroAddress, smallTransfer oneAddress], [],
        ⟨[smallDeposit.tokenID], [smallCrypto.operatorAddr, zeroAddress], []⟩⟩
        bareSealing none]

/-- The deposit is of token 0. -/
def zeroTokenCrypto : Crypto :=
  { smallCrypto with
    keccak := fun b =>
      if b = smallCrypto.operatorAddr.1 ++ uInt64ToByte 0 ++ uInt64ToByte 5 then
        ⟨1 :: Bytes.zeros 31, by simp⟩
      else Contract.smallHash b }

/-- The value of the token in the tree of block `n`. -/
def Backend.entryOf (C : Crypto) (t : UInt64) (n : ℕ) (s : Backend) : Option Bytes :=
  match s.store.plasma.lookup n with
  | none => none
  | some b =>
    match Smt.SparseMerkleTree.get C.keccak s.store.trees.getChunk (keyOf t.toNat)
      (s.store.openTree b.header.transactionRoot) with
    | .ok (res, _) => if res.found then some res.v0 else none
    | .error _ => none

theorem Backend.Includes.entryOf {hash : Hash} {t : UInt64} {n : ℕ} (h : s.Includes C hash t n) :
    s.entryOf C t n = some hash.1 := by
  obtain ⟨b, hb, res, tree, hget, hfound, hv⟩ := h
  simp only [Backend.entryOf, hb, hget, hfound, if_true, hv]

/-- A receipt 1 for a token that the tree of the block does not have with this hash. -/
theorem exists_unsound_receipt (C : Crypto) (ops : List BackendOp) (hash : Hash) (t : UInt64)
    (n : ℕ)
    (h : (match newBackend.exec C ops with
      | .ok s => decide (s.receipt hash = some (some t, n, 1) ∧ s.entryOf C t n ≠ some hash.1)
      | .error _ => false) = true) :
    ∃ s tx, newBackend.exec C ops = .ok s ∧
      s.getPlasmaTransactionReceipt hash = .ok (some tx, n, 1) ∧
      ¬ s.Includes C hash tx.tokenID n := by
  obtain ⟨s, hs, hr, hentry⟩ := Backend.exists_exec C ops
    (fun s => s.receipt hash = some (some t, n, 1) ∧ s.entryOf C t n ≠ some hash.1) h
  obtain ⟨tx, hr, ht⟩ := exists_of_receipt hr
  refine ⟨s, tx, hs, hr, ?_⟩
  intro hincluded
  rw [ht] at hincluded
  exact hentry hincluded.entryOf

/-- After a failed attempt a proof is given for a block that was not written. A transfer that was
applied in a failed attempt has a receipt when another one was minted with that block number. And
without failures, token 0 has a receipt and is not in the tree that is read from the store. -/
theorem answers_unsound :
    (∀ fault ∈ [Fault.bloom, .flush, .block 0, .block 2], ∃ s a,
      newBackend.exec smallCrypto (depositAttempt smallCrypto (some fault)) = .ok s ∧
      s.getPlasmaTransactionProof smallCrypto (smallDeposit.hash smallCrypto) = .ok (.ok (some a)) ∧
      s.store.plasma.lookup a.blockNumber = none) ∧
    (∃ s tx, newBackend.exec smallCrypto competingTransfers = .ok s ∧
      s.getPlasmaTransactionReceipt ((smallTransfer oneAddress).hash smallCrypto) =
        .ok (some tx, 2, 1) ∧
      ¬ s.Includes smallCrypto ((smallTransfer oneAddress).hash smallCrypto) tx.tokenID 2) ∧
    ∃ s tx, newBackend.exec zeroTokenCrypto (depositAttempt zeroTokenCrypto none) = .ok s ∧
      s.getPlasmaTransactionReceipt ((operatorDeposit zeroTokenCrypto).hash zeroTokenCrypto) =
        .ok (some tx, 1, 1) ∧
      ¬ s.Includes zeroTokenCrypto ((operatorDeposit zeroTokenCrypto).hash zeroTokenCrypto)
        tx.tokenID 1 := by
  refine ⟨?_, exists_unsound_receipt _ _ _ smallDeposit.tokenID _ (by decide +kernel),
    exists_unsound_receipt _ _ _ 0 _ (by decide +kernel)⟩
  intro fault hfault
  obtain ⟨s, hs, hp, hnone⟩ := Backend.exists_exec smallCrypto
    (depositAttempt smallCrypto (some fault))
    (fun s => s.provenIn smallCrypto (smallDeposit.hash smallCrypto) = some 1 ∧
      (s.store.plasma.lookup 1).isNone) (by
        revert fault
        decide +kernel)
  obtain ⟨a, ha, hn⟩ := exists_of_provenIn hp
  refine ⟨s, a, hs, ha, ?_⟩
  rw [hn]
  exact Option.isNone_iff_eq_none.mp hnone

end GoPlasma.Plasma
