import GoPlasma.Contract.MembershipTheorems
import GoPlasma.Plasma.Backend

/-!
# Blocks and their headers

What the header of a block says of its body, over every run of submissions and attempts to mint,
whichever of them fail: the tree behind `TransactionRoot` has the hashes of the transactions under
their tokens and nothing else, no token has two transactions, and the number and the parent hash
are those after the block before it (`root_commits`).
-/

namespace GoPlasma.Plasma

open Contract (blockContents TransactionRoot)
open Smt (Contents keyOf num)

variable {C : Crypto} {s s' : Backend} {c : MintChoice} {x : Sealing} {fault : Option Fault}

/-! ## Attempts to mint -/

/-- No block was made. -/
structure Backend.Unsealed (fault : Option Fault) (s s' : Backend) : Prop where
  node : Unminted s.node s'.node
  head : s'.head = s.head
  chain : s'.chain = s.chain
  store : fault = none → s'.store = s.store

/-- What the minter has at hand when it has made a block with its header. -/
structure Backend.Seals (C : Crypto) (c : MintChoice) (x : Sealing) (s s' : Backend)
    (m : Minting Unit) (tree : Smt.Node) (trees : Smt.Store) : Prop where
  mints : ∃ T', Mints C c s.node s'.node m T'
  built : transactionTree C m.env.db.objects c.order.tokens s.store.trees = .ok (tree, trees)
  head : s'.head = ⟨makeHeader x (s.node.currentBlock.number + 1) (s.head.hash C)
    (Smt.SparseMerkleTree.merkleRoot tree), s'.node.currentBlock⟩
  chain : s'.chain = s.chain ++ [s'.head]
  store : s'.store =
    ({ m.committed.foldl (ChunkStore.storeTransaction C (s.node.blockNumber + 1)) s.store with
      trees := trees } : ChunkStore).writeBlock C s'.head

/-- After the transactions were applied: no block, or one with its header. -/
theorem Backend.sealBlock_cases {m : Minting Unit} (h : s.sealBlock C c x fault m = .ok s') :
    (s'.head = s.head ∧ s'.chain = s.chain ∧ (fault = none → s'.store = s.store) ∧
      (s'.node = { s.node with pool := m.pool } ∧ (fault = none → m.committed = []) ∨
        s'.node = s.node ∧ m.committed ≠ [] ∧ ¬ c.order.Valid m.env.db.objects)) ∨
    ∃ T' tree trees, m.committed ≠ [] ∧ c.order.Valid m.env.db.objects ∧
      commit c.order m.env.db.objects (stateAt s.node.currentBlock) = .ok T' ∧
      transactionTree C m.env.db.objects c.order.tokens s.store.trees = .ok (tree, trees) ∧
      s' = ({ s with
          node := { s.node with pool := m.pool }
          store := { m.committed.foldl (ChunkStore.storeTransaction C (s.node.blockNumber + 1))
            s.store with trees := trees } } : Backend).finish C none
        ⟨makeHeader x (s.node.currentBlock.number + 1) (s.head.hash C)
          (Smt.SparseMerkleTree.merkleRoot tree), ⟨s.node.currentBlock.number + 1,
            plasmaTxs m.committed, anchorTxs m.committed, T'⟩⟩
              (m.pool.removeAll C m.committed).1 := by
  unfold Backend.sealBlock at h
  dsimp only at h
  -- nothing committed, a failing `Commit`, a result of `Commit`, a wrong order of the maps
  split_ifs at h with hnil hv hbloom
  · obtain rfl := Except.ok.inj h
    refine .inl ⟨rfl, rfl, fun _ => ?_, .inl ⟨rfl, fun _ => hnil⟩⟩
    simp only [hnil, List.foldl_nil]
  · -- `Commit` fails: the receipts are stored
    obtain rfl := Except.ok.inj h
    have hfault : fault ≠ none := by
      rw [hbloom.1]
      exact Option.some_ne_none _
    exact .inl ⟨rfl, rfl, fun hf => absurd hf hfault, .inl ⟨rfl, fun hf => absurd hf hfault⟩⟩
  · rcases hT : commit c.order m.env.db.objects (stateAt s.node.currentBlock) with p | T'
    · rw [hT] at h
      cases h
    rcases ht : transactionTree C m.env.db.objects c.order.tokens s.store.trees with
      p | ⟨tree, trees⟩
    · rw [hT, ht] at h
      cases h
    rw [hT, ht] at h
    obtain rfl := Except.ok.inj h
    rcases fault with _ | _ | _ | k
    · exact .inr ⟨T', tree, trees, hnil, hv, rfl, rfl, rfl⟩
    · -- there was no bloom filter to store
      exact .inr ⟨T', tree, trees, hnil, hv, rfl, rfl, rfl⟩
    · exact .inl ⟨rfl, rfl, nofun, .inl ⟨rfl, nofun⟩⟩
    · exact .inl ⟨rfl, rfl, nofun, .inl ⟨rfl, nofun⟩⟩
  · obtain rfl := Except.ok.inj h
    exact .inl ⟨rfl, rfl, fun _ => rfl, .inr ⟨rfl, hnil, hv⟩⟩

/-- An attempt makes no block, or one with its header. -/
theorem Backend.mint_cases (h : s.mintNewBlock C c x fault = .ok s') :
    s.Unsealed fault s' ∨ ∃ m tree trees, s.Seals C c x s' m tree trees := by
  unfold Backend.mintNewBlock at h
  split_ifs at h with hsort
  · rcases hm : commitTransactions C (mapStorage (stateAt s.node.currentBlock)) s.node.blockNumber
      c.transactions.length c.transactions ⟨[], ⟨c.txs, c.anchors⟩, ⟨newStateDB, ()⟩, []⟩ with p | m
    · rw [hm] at h
      cases h
    rw [hm] at h
    rcases Backend.sealBlock_cases h with ⟨hhead, hchain, hstore, hnode⟩ |
      ⟨T', tree, trees, -, hv, hT, ht, rfl⟩
    · refine .inl ⟨?_, hhead, hchain, hstore⟩
      rcases hnode with ⟨hnode, -⟩ | ⟨hnode, -⟩
      · rw [hnode]
        exact ⟨rfl, rfl, rfl, fun tx htx =>
          hsort.1.1.mem_iff.mp (commitTransactions_pool hm tx htx)⟩
      · rw [hnode]
        exact ⟨rfl, rfl, rfl, fun _ h => h⟩
    · exact .inr ⟨m, tree, trees, ⟨T', hsort, hm, hv, hT, rfl, rfl, rfl, rfl⟩, ht, rfl, rfl, rfl⟩
  · obtain rfl := Except.ok.inj h
    exact .inl ⟨⟨rfl, rfl, rfl, fun _ h => h⟩, rfl, rfl, fun _ => rfl⟩

/-- Where no operation of the store fails, an attempt is `mintNewBlock` of the node. -/
theorem Backend.mint_node (h : s.mintNewBlock C c x none = .ok s') :
    Plasma.mintNewBlock C c s.node = .ok s'.node := by
  unfold Backend.mintNewBlock at h
  unfold Plasma.mintNewBlock
  by_cases hsort : s.node.pool.SortsTo c
  · rw [if_pos hsort] at h ⊢
    dsimp only
    rcases hm : commitTransactions C (mapStorage (stateAt s.node.currentBlock)) s.node.blockNumber
      c.transactions.length c.transactions ⟨[], ⟨c.txs, c.anchors⟩, ⟨newStateDB, ()⟩, []⟩ with p | m
    · rw [hm] at h
      cases h
    rw [hm] at h
    change (if m.committed = [] then _ else _) = _
    rcases Backend.sealBlock_cases h with
      ⟨-, -, -, ⟨hnode, hnil⟩ | ⟨hnode, hne, hv⟩⟩ | ⟨T', tree, trees, hne, hv, hT, -, rfl⟩
    · rw [if_pos (hnil rfl), hnode]
    · rw [if_neg hne, if_neg hv, hnode]
    · rw [if_neg hne, if_pos hv, hT]
      rfl
  · rw [if_neg hsort] at h ⊢
    obtain rfl := Except.ok.inj h
    rfl

/-! ## The tree of a block -/

/-- The contents of a new tree after insertions. -/
theorem after_hashInserts (f : UInt64 → Hash) (tokens : List UInt64) (k : Smt.Key) :
    Contents.after (tokens.map fun t => .insert (keyOf t.toNat) (f t).1 0 0) Contents.empty k =
      if UInt64.ofNat (num k) ∈ tokens then some ⟨(f (UInt64.ofNat (num k))).1, 0, 0⟩
      else none := by
  induction tokens using List.reverseRecOn with
  | nil => rfl
  | append_singleton tokens t ih =>
    rw [Contents.after, List.map_append, List.foldl_append]
    change Function.update _ (keyOf t.toNat) _ k = _
    -- the last insertion decides about its own key
    by_cases hk : k = keyOf t.toNat
    · have ht : UInt64.ofNat (num k) = t := by
        rw [hk, Smt.num_keyOf t.toNat_lt, UInt64.ofNat_toNat]
      rw [hk, Function.update_self, ← hk]
      change some (Smt.updateEntry _ _ _ (Contents.after _ _ k)) = _
      rw [ih, ht, if_pos (List.mem_append_right _ List.mem_cons_self)]
      by_cases hmem : t ∈ tokens
      · -- the same value again
        rw [if_pos hmem, Smt.updateEntry, if_pos rfl]
      · rw [if_neg hmem]
        rfl
    · have ht : UInt64.ofNat (num k) ≠ t := by
        intro heq
        apply hk
        rw [← heq, UInt64.toNat_ofNat_of_lt' (Smt.num_lt k), Smt.keyOf_num]
      rw [Function.update_of_ne hk]
      change Contents.after _ _ k = _
      rw [ih]
      simp [ht]

/-- The tree that is flushed for a block has the contents of the block. -/
theorem Mints.contents {n n' : Node} {m : Minting Unit} {T' : Tries} (h : Mints C c n n' m T')
    (hp : n.PoolChecked C) :
    Contents.after (hashInserts m.env.db.objects c.order.tokens) Contents.empty =
      blockContents C.keccak n'.currentBlock := by
  funext k
  rw [hashInserts, after_hashInserts, blockContents, h.block]
  have hmem := h.valid.1.mem (UInt64.ofNat (num k))
  rcases h.tokensDone hp (UInt64.ofNat (num k)) with ⟨hnil, hnone, -⟩ | ⟨tx, t, hone, -, -,
    hobj, -, hh⟩
  · rw [if_neg (fun hk => hmem.mp hk hnone), hnil]
    rfl
  · rw [if_pos (hmem.mpr (by rw [hobj]; exact Option.some_ne_none _)), hone, hh]
    rfl

/-- No token has two transactions in a block. -/
theorem Minted.length_forToken {n n' : Node} (h : Minted C n n') (t : UInt64) :
    (forToken t n'.currentBlock.transactions).length ≤ 1 := by
  rcases h.tokens t with ⟨hnil, -⟩ | ⟨tx, _, hone, -⟩
  · rw [hnil]
    exact Nat.zero_le _
  · rw [hone]
    exact le_rfl

/-- The tree behind the root of a new block. -/
theorem Backend.Seals.transactionRoot {m : Minting Unit} {tree : Smt.Node} {trees : Smt.Store}
    (h : s.Seals C c x s' m tree trees) (hp : s.node.PoolChecked C) :
    TransactionRoot C.keccak s'.node.currentBlock (Smt.SparseMerkleTree.merkleRoot tree) := by
  obtain ⟨T', hm⟩ := h.mints
  have htree := h.built
  rw [transactionTree] at htree
  obtain ⟨n₁, s₁, writes, hcalls, hflush, -⟩ := Smt.execAll_concat_flush htree
  have hfresh := Smt.FlushedTree.fresh _ hcalls hflush
  rw [hm.contents hp] at hfresh
  exact ⟨tree, hfresh, rfl⟩

/-! ## The chain -/

/-- The second block has the right root, number and parent, and one transaction for a token. -/
structure Follows (C : Crypto) (b b' : SealedBlock) : Prop where
  root : TransactionRoot C.keccak b'.block b'.header.transactionRoot
  single : ∀ t, (forToken t b'.block.transactions).length ≤ 1
  number : b'.header.blockNumber = b.header.blockNumber + 1
  parentHash : b'.header.parentHash = b.hash C

/-- What holds in every run. -/
structure Backend.Ok (C : Crypto) (s : Backend) : Prop where
  checked : s.node.PoolChecked C
  block : s.head.block = s.node.currentBlock
  number : s.head.header.blockNumber = s.node.currentBlock.number
  counter : s.node.blockNumber = s.node.currentBlock.number
  last : s.chain.getLast? = some s.head
  length : s.chain.length = s.node.currentBlock.number + 1
  numbers : ∀ (i : ℕ) b, s.chain[i]? = some b → b.header.blockNumber = i
  follows : ListRel.Neighbours (Follows C) s.chain

theorem Backend.ok_new : newBackend.Ok C where
  checked := fun tx htx => by cases htx
  block := rfl
  number := rfl
  counter := rfl
  last := rfl
  length := rfl
  numbers := by
    intro i b hb
    have hi := (List.getElem?_eq_some_iff.mp hb).1
    obtain rfl : i = 0 := by
      change i < 1 at hi
      omega
    obtain rfl := Option.some.inj hb
    rfl
  follows := by
    intro i b b' _ hb'
    have hi := (List.getElem?_eq_some_iff.mp hb').1
    change i + 1 < 1 at hi
    omega

/-- A call that makes no block. -/
theorem Backend.Ok.unsealed (h : s.Ok C) (hchecked : s'.node.PoolChecked C)
    (hblock : s'.node.currentBlock = s.node.currentBlock)
    (hnumber : s'.node.blockNumber = s.node.blockNumber) (hhead : s'.head = s.head)
    (hchain : s'.chain = s.chain) : s'.Ok C where
  checked := hchecked
  block := by rw [hhead, hblock, h.block]
  number := by rw [hhead, hblock, h.number]
  counter := by rw [hnumber, hblock, h.counter]
  last := by rw [hchain, hhead, h.last]
  length := by rw [hchain, hblock, h.length]
  numbers := by
    rw [hchain]
    exact h.numbers
  follows := by
    rw [hchain]
    exact h.follows

/-- A new block. -/
theorem Backend.Ok.seals {m : Minting Unit} {tree : Smt.Node} {trees : Smt.Store} (h : s.Ok C)
    (hs : s.Seals C c x s' m tree trees) : s'.Ok C := by
  obtain ⟨T', hm⟩ := hs.mints
  have hminted := hm.minted h.checked
  have hnumber : s'.head.header.blockNumber = s'.node.currentBlock.number := by
    rw [hs.head, hminted.number]
    rfl
  refine ⟨fun tx htx => h.checked tx (hminted.pool tx htx), by rw [hs.head], hnumber,
    hminted.blockNumber, by rw [hs.chain, List.getLast?_concat], ?_, ?_, ?_⟩
  · rw [hs.chain, List.length_append, h.length, hminted.number]
    rfl
  · intro i b hb
    rw [hs.chain] at hb
    rcases ListRel.getElem?_concat hb with hb | ⟨hi, rfl⟩
    · exact h.numbers i b hb
    · rw [hnumber, hminted.number, hi, h.length]
  · rw [hs.chain]
    refine h.follows.concat fun b hb => ?_
    obtain rfl := Option.some.inj (h.last.symm.trans hb)
    rw [hs.head]
    refine ⟨hs.transactionRoot h.checked, hminted.length_forToken, ?_, rfl⟩
    rw [h.number]
    rfl

/-- A submission is a call of the node. -/
theorem Backend.step_submission {op : BackendOp} (h : s.step C op = .ok s')
    (hop : ∀ c x fault, op ≠ .mint c x fault) : ∃ op', (∀ c, op' ≠ .mint c) ∧
      Plasma.step C s.node op' = .ok s'.node ∧ s'.head = s.head ∧ s'.chain = s.chain ∧
      s'.store = s.store := by
  cases op with
  | deposit t =>
    cases h
    exact ⟨.deposit t, nofun, rfl, rfl, rfl, rfl⟩
  | send tx =>
    cases h
    exact ⟨.send tx, nofun, rfl, rfl, rfl, rfl⟩
  | sendAnchor tx a r =>
    cases h
    exact ⟨.sendAnchor tx a r, nofun, rfl, rfl, rfl, rfl⟩
  | mint c x fault => exact absurd rfl (hop c x fault)

theorem Backend.Ok.step {op : BackendOp} (h : s.Ok C) (hs : s.step C op = .ok s') : s'.Ok C := by
  by_cases hop : ∃ c x fault, op = .mint c x fault
  · obtain ⟨c, x, fault, rfl⟩ := hop
    rcases Backend.mint_cases hs with hu | ⟨m, tree, trees, hseal⟩
    · exact h.unsealed (fun tx htx => h.checked tx (hu.node.pool tx htx)) hu.node.currentBlock
        hu.node.blockNumber hu.head hu.chain
    · exact h.seals hseal
  · obtain ⟨op', hop', hs', hhead, hchain, -⟩ :=
      Backend.step_submission hs fun c x fault heq => hop ⟨c, x, fault, heq⟩
    obtain ⟨hblock, hnumber, -⟩ := step_pool hs' hop'
    exact h.unsealed (step_cases hs' h.checked).1 hblock hnumber hhead hchain

theorem BackendRun.ok {P : BackendOp → Prop} (h : BackendRun C P s) : s.Ok C := by
  induction h with
  | new => exact Backend.ok_new
  | step op _ _ hs ih => exact ih.step hs

/-! ## What the root commits to -/

/-- The entries of the contents of a block. -/
theorem blockContents_eq_some {b : Block} (hsingle : ∀ t, (forToken t b.transactions).length ≤ 1)
    (t : UInt64) (e : Smt.Entry) :
    blockContents C.keccak b (keyOf t.toNat) = some e ↔
      ∃ tx ∈ b.transactions, tx.tokenID = t ∧ e = ⟨(tx.hash C).1, 0, 0⟩ := by
  rw [blockContents, Smt.num_keyOf t.toNat_lt, UInt64.ofNat_toNat, Option.map_eq_some_iff]
  have hmem : ∀ tx, tx ∈ forToken t b.transactions ↔ tx ∈ b.transactions ∧ tx.tokenID = t := by
    intro tx
    rw [forToken, List.mem_filter, decide_eq_true_eq]
  constructor
  · rintro ⟨tx, htx, rfl⟩
    obtain ⟨htx, ht⟩ := (hmem tx).mp (List.mem_of_getLast? htx)
    exact ⟨tx, htx, ht, rfl⟩
  · rintro ⟨tx, htx, ht, rfl⟩
    have hin := (hmem tx).mpr ⟨htx, ht⟩
    -- there is only one
    obtain ⟨tx', htx'⟩ : ∃ tx', forToken t b.transactions = [tx'] :=
      List.length_eq_one_iff.mp (le_antisymm (hsingle t) (List.length_pos_of_mem hin))
    rw [htx', List.mem_singleton] at hin
    subst hin
    exact ⟨tx, by rw [htx']; rfl, rfl⟩

/-- `Get` finds the value in a tree under the key of the token. -/
def HasEntry (C : Crypto) (cs : Smt.Reader) (tree : Smt.Node) (t : UInt64) (v : Bytes) : Prop :=
  ∃ res tree', Smt.SparseMerkleTree.get C.keccak cs (keyOf t.toNat) tree = .ok (res, tree') ∧
    res.found = true ∧ res.v0 = v

/-- The entries of the tree of a block are those of its body. -/
theorem finds_iff {b : Block} {tree : Smt.Node}
    (htree : Smt.FlushedTree C.keccak tree (blockContents C.keccak b))
    (hsingle : ∀ t, (forToken t b.transactions).length ≤ 1) (cs : Smt.Reader) (t : UInt64)
    (v : Bytes) :
    HasEntry C cs tree t v ↔ ∃ tx ∈ b.transactions, tx.tokenID = t ∧ (tx.hash C).1 = v := by
  obtain ⟨res, tree', hget, hans⟩ := (htree.spec cs).2 (keyOf t.toNat)
  -- `Get` has one answer, whatever the tree has loaded
  have hunique : HasEntry C cs tree t v ↔ res.found = true ∧ res.v0 = v := by
    constructor
    · rintro ⟨res', tree'', hget', hfound, hv⟩
      obtain ⟨rfl, -⟩ := Prod.mk.inj (Except.ok.inj (hget.symm.trans hget'))
      exact ⟨hfound, hv⟩
    · exact fun h => ⟨res, tree', hget, h.1, h.2⟩
  have hentry := blockContents_eq_some (C := C) hsingle t
  rw [hunique]
  rcases hm : blockContents C.keccak b (keyOf t.toNat) with _ | e
  · rw [hm] at hans
    have hfalse : res.found = false := congrArg (fun a => a.2.1) hans
    constructor
    · rintro ⟨htrue, -⟩
      rw [hfalse] at htrue
      cases htrue
    · rintro ⟨tx, htx, ht, -⟩
      have := (hentry ⟨(tx.hash C).1, 0, 0⟩).mpr ⟨tx, htx, ht, rfl⟩
      rw [hm] at this
      cases this
  · rw [hm] at hans
    have hfound : res.found = true := congrArg (fun a => a.2.1) hans
    have hval : res.v0 = e.value := congrArg Prod.fst hans
    rw [hval]
    constructor
    · rintro ⟨-, rfl⟩
      obtain ⟨tx, htx, ht, rfl⟩ := (hentry e).mp hm
      exact ⟨tx, htx, ht, rfl⟩
    · rintro ⟨tx, htx, ht, rfl⟩
      have := (hentry ⟨(tx.hash C).1, 0, 0⟩).mpr ⟨tx, htx, ht, rfl⟩
      rw [hm] at this
      rw [Option.some.inj this]
      exact ⟨hfound, rfl⟩

/-- Over every run, whichever attempts to mint fail: the tree behind the root of a block has exactly
the entries from the tokens to the hashes of the transactions in its body, the body has at most one
transaction for a token, and the number and the parent hash of the block are the number after that
of the block before it, and its hash. -/
theorem root_commits {P : BackendOp → Prop} (h : BackendRun C P s) {i : ℕ} {b b' : SealedBlock}
    (hb : s.chain[i]? = some b) (hb' : s.chain[i + 1]? = some b') :
    (∃ tree, Smt.FlushedTree C.keccak tree (blockContents C.keccak b'.block) ∧
      Smt.SparseMerkleTree.merkleRoot tree = b'.header.transactionRoot ∧
      ∀ cs t v, HasEntry C cs tree t v ↔
        ∃ tx ∈ b'.block.transactions, tx.tokenID = t ∧ (tx.hash C).1 = v) ∧
    (∀ t, (forToken t b'.block.transactions).length ≤ 1) ∧
    b'.header.blockNumber = b.header.blockNumber + 1 ∧ b'.header.parentHash = b.hash C := by
  have hf := h.ok.follows i b b' hb hb'
  obtain ⟨tree, htree, hroot⟩ := hf.root
  exact ⟨⟨tree, htree, hroot, finds_iff htree hf.single⟩, hf.single, hf.number, hf.parentHash⟩

/-- A header with nothing else in it. -/
def bareSealing : Sealing := ⟨0, zeroHash, zeroHash, zeroHash, zeroHash, zeroHash, emptySlice⟩

/-- The deposit of token 1 in the first block, its transfer in the second. -/
def twoSealedBlocks : List BackendOp :=
  [.deposit ⟨0, 5, oneAddress⟩, .mint ⟨[oneDeposit], [], ⟨[1], [oneAddress], []⟩⟩ bareSealing none,
    .send oneTransfer,
    .mint ⟨[oneTransfer], [], ⟨[1], [oneAddress, zeroAddress], []⟩⟩ bareSealing none]

theorem root_commits_twoSealedBlocks :
    ∃ s b b', newBackend.exec byteCrypto twoSealedBlocks = .ok s ∧
    s.chain[1]? = some b ∧ s.chain[2]? = some b' ∧ b'.block.transactions = [oneTransfer] ∧
    (∃ tree, Smt.SparseMerkleTree.merkleRoot tree = b'.header.transactionRoot ∧
      ∀ cs, HasEntry byteCrypto cs tree 1 (oneTransfer.hash byteCrypto).1) ∧
    b'.header.blockNumber = b.header.blockNumber + 1 ∧
    b'.header.parentHash = b.hash byteCrypto := by
  obtain ⟨s, hs, hb, hb'⟩ := Backend.exists_exec byteCrypto twoSealedBlocks
    (fun s => s.chain[1]?.isSome ∧
      (s.chain[2]?.map fun b => b.block.transactions) = some [oneTransfer]) (by decide +kernel)
  obtain ⟨b, hb⟩ := Option.isSome_iff_exists.mp hb
  obtain ⟨b', hb', htxs⟩ := Option.map_eq_some_iff.mp hb'
  have hrun : BackendRun byteCrypto (fun _ => True) s :=
    .exec byteCrypto .new twoSealedBlocks (fun _ _ => trivial) hs
  obtain ⟨⟨tree, -, hroot, hfinds⟩, -, hnumber, hparent⟩ := root_commits hrun hb hb'
  refine ⟨s, b, b', hs, hb, hb', htxs, ⟨tree, hroot, fun cs => ?_⟩, hnumber, hparent⟩
  exact (hfinds cs 1 _).mpr ⟨oneTransfer, by rw [htxs]; exact List.mem_cons_self, rfl, rfl⟩

end GoPlasma.Plasma
