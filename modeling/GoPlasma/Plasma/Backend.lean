import GoPlasma.Plasma.Node
import GoPlasma.Smt.Tree

/-!
# Headers, receipts and proofs of inclusion

The node with what it writes into the chunk store besides the tries: the receipts of transactions
while they are applied, then the trie of transactions, the header and the block
(`plasmachain/backend.go`, `statedb.go`, `storage.go`, `block.go`, `deep/poa.go`). An attempt to
mint can fail between these writes, and none of them is undone. `GetPlasmaTransactionReceipt` and
`GetPlasmaTransactionProof` answer from the store.

The keys of the chunk store have a kind each, and there is a map for each kind here. The trie of
transactions is the sparse Merkle tree itself, on a store of node chunks. The roots of the other
tries, the time, the bloom filter and the signature of a header can be anything.

The faults are those that end an attempt (`Fault`). The code drops all other errors of the store:
those of `updateTokenObject` in `Commit`, of the writes of `Flush`, and of `WriteHeader`. They are
left out here, and so is a `StoreTransaction` that fails halfway: the runs are those in which these
operations succeed. `commitTrees` has the faults of `Commit`.
-/

namespace GoPlasma.Plasma

/-! ## Headers -/

/-- `Header` -/
structure Header where
  parentHash : Hash
  blockNumber : ℕ
  time : UInt64
  bloomID : Hash
  transactionRoot : Hash
  tokenRoot : Hash
  accountRoot : Hash
  l3ChainRoot : Hash
  anchorRoot : Hash
  sig : Slice

/-- The header of a new block, and of one that is not found. -/
def zeroHeader : Header :=
  ⟨zeroHash, 0, 0, zeroHash, zeroHash, zeroHash, zeroHash, zeroHash, zeroHash, emptySlice⟩

/-- The fields without the signature. -/
def Header.fields (h : Header) : List Rlp.Item :=
  [.str h.parentHash.1, Rlp.uint (UInt64.ofNat h.blockNumber).toNat, Rlp.uint h.time.toNat,
    .str h.bloomID.1, .str h.transactionRoot.1, .str h.tokenRoot.1, .str h.accountRoot.1,
    .str h.l3ChainRoot.1, .str h.anchorRoot.1]

/-- What is hashed of a header. -/
def Header.unsigned (h : Header) : Bytes := Rlp.encode (.list h.fields)

/-- A block with its header. -/
structure SealedBlock where
  header : Header
  block : Block

/-- The first block. -/
def sealedGenesis : SealedBlock := ⟨zeroHeader, genesis⟩

section
variable (C : Crypto)

/-- `Hash` of a header: the signature is not part of it. -/
def Header.hash (h : Header) : Hash := C.keccak h.unsigned

/-- `Hash` of a block. -/
def SealedBlock.hash (b : SealedBlock) : Hash :=
  C.keccak (Rlp.encode (.list [.list (b.header.fields ++ [.str b.header.sig.1]),
    .list (b.block.transactions.map fun tx => .list (tx.fields tx.sig.1)),
    .list (b.block.anchors.map fun tx => .list (tx.fields tx.sig.1))]))

end

/-- What goes into a header besides the parent, the number and the root of the transactions. -/
structure Sealing where
  time : UInt64
  bloomID : Hash
  tokenRoot : Hash
  accountRoot : Hash
  l3ChainRoot : Hash
  anchorRoot : Hash
  sig : Slice

/-- `MakeHeaderHash`, and the signature of `MakeBlock`. -/
def makeHeader (x : Sealing) (blockNumber : ℕ) (parentHash transactionRoot : Hash) : Header where
  parentHash := parentHash
  blockNumber := blockNumber
  time := x.time
  bloomID := x.bloomID
  transactionRoot := transactionRoot
  tokenRoot := x.tokenRoot
  accountRoot := x.accountRoot
  l3ChainRoot := x.l3ChainRoot
  anchorRoot := x.anchorRoot
  sig := x.sig

/-! ## The chunk store -/

/-- The chunks that are read again by number or by hash. -/
structure ChunkStore where
  /-- `raw` with a hash: transactions of either kind. -/
  raw : GoMap Hash Tx
  /-- `plasmabn` with a hash: the number of a block. -/
  plasmabn : GoMap Hash ℕ
  /-- The hash of `plasmaHeader` with a number: the hash of a header. -/
  plasmaHeader : GoMap ℕ Hash
  /-- The headers by their hashes. -/
  headers : GoMap Hash Header
  /-- The hash of `plasma` with a number: a block. -/
  plasma : GoMap ℕ SealedBlock
  /-- The node chunks of the tries of transactions. -/
  trees : Smt.Store

section
variable (C : Crypto)

/-- `StoreTransaction` and `StoreAnchorTransaction` where they succeed, as far as it is read
again. -/
def ChunkStore.storeTransaction (blockNumber : ℕ) (cs : ChunkStore) (tx : Tx) : ChunkStore :=
  { cs with
    raw := cs.raw.insert (tx.hash C) tx
    plasmabn := cs.plasmabn.insert (tx.hash C) blockNumber }

/-- `WriteHeader`, of whose two chunks only so many are written. -/
def ChunkStore.writeHeader (chunks : ℕ) (header : Header) (cs : ChunkStore) : ChunkStore :=
  let cs := if 1 ≤ chunks then
      { cs with plasmaHeader := cs.plasmaHeader.insert header.blockNumber (header.hash C) }
    else cs
  if 2 ≤ chunks then { cs with headers := cs.headers.insert (header.hash C) header } else cs

/-- `WriteBlock` where `WriteHeader` succeeds. -/
def ChunkStore.writeBlock (b : SealedBlock) (cs : ChunkStore) : ChunkStore :=
  let cs := cs.writeHeader C 2 b.header
  { cs with plasma := cs.plasma.insert b.header.blockNumber b }

/-! ## Minting -/

/-- The node with the headers of its blocks and its chunk store. -/
structure Backend where
  node : Node
  /-- The current block with its header. -/
  head : SealedBlock
  /-- All blocks, the first one too. -/
  chain : List SealedBlock
  store : ChunkStore

/-- A new node. -/
def newBackend : Backend :=
  ⟨newNode, sealedGenesis, [sealedGenesis], ⟨∅, ∅, ∅, ∅, ∅, []⟩⟩

/-- The operation of the chunk store that makes an attempt fail: the chunk of the bloom filter in
`Commit`, the `Flush` of the storage, or the chunk of the block in `WriteBlock`, before which so
many chunks of the header were written. -/
inductive Fault where
  | bloom
  | flush
  | block (headerChunks : ℕ)
deriving DecidableEq

/-- The calls on the trie of transactions in `Commit`: the hashes are inserted in the order of the
map. -/
def hashInserts (o : Objects) (tokens : List UInt64) : List Smt.Call :=
  tokens.map fun tokenID =>
    .insert (Smt.keyOf tokenID.toNat) ((o.thashList.lookup tokenID).getD zeroHash).1 0 0

/-- The trie of transactions: a new one for each block, and flushed. -/
def transactionTree (o : Objects) (tokens : List UInt64) (trees : Smt.Store) :
    Go (Smt.Node × Smt.Store) :=
  Smt.execAll C.keccak (hashInserts o tokens ++ [.flush]) trees Smt.SparseMerkleTree.new

/-- The end of an attempt, when `Commit` has returned and the tries are flushed. -/
def Backend.finish (fault : Option Fault) (b : SealedBlock) (pool : Pool) (s : Backend) : Backend :=
  match fault with
  | some .flush => s
  | some (.block headerChunks) => { s with store := s.store.writeHeader C headerChunks b.header }
  | _ =>
    { node := ⟨pool, b.block, b.block.number, s.node.chain ++ [b.block]⟩
      head := b
      chain := s.chain ++ [b]
      store := s.store.writeBlock C b }

/-- `mintNewBlock` after the transactions were applied. They are in the store whatever happens then.
The bloom filter is stored only if there are tokens. -/
def Backend.sealBlock (c : MintChoice) (x : Sealing) (fault : Option Fault) (m : Minting Unit)
    (s : Backend) : Go Backend :=
  let o := m.env.db.objects
  let s₁ : Backend := { s with
    node := { s.node with pool := m.pool }
    store := m.committed.foldl (ChunkStore.storeTransaction C (s.node.blockNumber + 1)) s.store }
  if m.committed = [] then .ok s₁
  else if c.order.Valid o then
    if fault = some .bloom ∧ c.order.tokens ≠ [] then .ok s₁
    else do
      let T' ← commit c.order o (stateAt s.node.currentBlock)
      let (tree, trees) ← transactionTree C o c.order.tokens s.store.trees
      let number := s.node.currentBlock.number + 1
      let b : SealedBlock :=
        ⟨makeHeader x number (s.head.hash C) (Smt.SparseMerkleTree.merkleRoot tree),
          ⟨number, plasmaTxs m.committed, anchorTxs m.committed, T'⟩⟩
      .ok (({ s₁ with store := { s₁.store with trees := trees } } : Backend).finish C fault b
        (m.pool.removeAll C m.committed).1)
  else .ok s

/-- `mintNewBlock` with its writes. Choices that the code cannot make leave the node as it is. -/
def Backend.mintNewBlock (c : MintChoice) (x : Sealing) (fault : Option Fault) (s : Backend) :
    Go Backend :=
  if s.node.pool.SortsTo c then do
    let m ← commitTransactions C (mapStorage (stateAt s.node.currentBlock)) s.node.blockNumber
      c.transactions.length c.transactions ⟨[], ⟨c.txs, c.anchors⟩, ⟨newStateDB, ()⟩, []⟩
    s.sealBlock C c x fault m
  else .ok s

/-! ## Runs -/

/-- The calls of a node. -/
inductive BackendOp where
  | deposit (t : TokenInfo)
  | send (tx : Transaction)
  | sendAnchor (tx : AnchorTransaction) (addedOwners removedOwners : List Address)
  | mint (c : MintChoice) (x : Sealing) (fault : Option Fault)

/-- One call. -/
def Backend.step (s : Backend) : BackendOp → Go Backend
  | .deposit t => .ok { s with node := processDeposit C t s.node }
  | .send tx => .ok { s with node := sendPlasmaTransaction C tx s.node }
  | .sendAnchor tx a r => .ok { s with node := sendAnchorTransaction C tx a r s.node }
  | .mint c x fault => s.mintNewBlock C c x fault

/-- The states of a node after calls that all meet a condition and do not panic. -/
inductive BackendRun (P : BackendOp → Prop) : Backend → Prop where
  | new : BackendRun P newBackend
  | step {s s' : Backend} (op : BackendOp) (h : BackendRun P s) (hp : P op)
      (hs : s.step C op = .ok s') : BackendRun P s'

/-- A list of calls, one after the other. -/
def Backend.exec (s : Backend) : List BackendOp → Go Backend
  | [] => .ok s
  | op :: ops => do
      let s ← s.step C op
      s.exec ops

/-- A list of calls on a node that was reached before. -/
theorem BackendRun.exec {P : BackendOp → Prop} {s s' : Backend} (hrun : BackendRun C P s)
    (ops : List BackendOp) (hP : ∀ op ∈ ops, P op) (h : s.exec C ops = .ok s') :
    BackendRun C P s' := by
  induction ops generalizing s with
  | nil =>
    cases h
    exact hrun
  | cons op ops ih =>
    rw [Backend.exec] at h
    rcases hs : s.step C op with p | s₁
    · rw [hs] at h
      cases h
    · rw [hs] at h
      exact ih (.step op hrun (hP op (by simp)) hs) (fun op h' => hP op (by simp [h'])) h

/-- A state that a list of calls on a new node leads to. -/
theorem Backend.exists_exec (ops : List BackendOp) (Q : Backend → Prop) [DecidablePred Q]
    (h : (match newBackend.exec C ops with
      | .ok s => decide (Q s)
      | .error _ => false) = true) : ∃ s, newBackend.exec C ops = .ok s ∧ Q s := by
  rcases hs : newBackend.exec C ops with e | s
  · simp [hs] at h
  · simp only [hs, decide_eq_true_eq] at h
    exact ⟨s, rfl, h⟩

end

/-! ## Answers -/

/-- `getTransaction`. The field `balance` is in no encoding. -/
def getTransaction (txhash : Hash) (cs : ChunkStore) : Except String (Option Transaction × ℕ) :=
  match cs.raw.lookup txhash with
  | none => .ok (none, 0)
  | some (.anchor _) => .error "Looking for AnchorTX?"
  | some (.plasma tx) =>
    match cs.plasmabn.lookup txhash with
    | none => .ok (none, 0)
    | some blockNumber => .ok (some { tx with balance := 0 }, blockNumber)

/-- `getBlockHeaderByNumber`: the zero header where there is none. -/
def getBlockHeaderByNumber (blockNumber : ℕ) (cs : ChunkStore) : Except String Header :=
  match cs.plasmaHeader.lookup blockNumber with
  | none => .ok zeroHeader
  | some headerHash =>
    match cs.headers.lookup headerHash with
    | none =>
        .error ("[block #" ++ toString blockNumber ++ "] headerHash [" ++ hexBytes headerHash.1
          ++ "] chunk not found")
    | some header => .ok header

/-- `GetPlasmaTransactionReceipt`: the transaction, the number of its block and the receipt. -/
def Backend.getPlasmaTransactionReceipt (hash : Hash) (s : Backend) :
    Except String (Option Transaction × ℕ × UInt8) := do
  let (tx, bn) ← getTransaction hash s.store
  if tx = none ∨ bn = 0 then .ok (none, 0, 0)
  else if s.node.blockNumber < bn then .ok (tx, bn, 0)
  else .ok (tx, bn, 1)

/-- The results of `GetPlasmaTransactionProof`, if there is a proof. -/
structure TransactionProof where
  tokenID : UInt64
  txbyte : Bytes
  proof : Smt.Proof
  blockNumber : ℕ

/-- The trie of transactions with this root, opened from the store; a new one if it is not there. -/
def ChunkStore.openTree (root : Hash) (cs : ChunkStore) : Smt.Node :=
  (Smt.SparseMerkleTree.initWithRoot cs.trees.getChunk root Smt.SparseMerkleTree.new).2

/-- `GetPlasmaTransactionProof` -/
def Backend.getPlasmaTransactionProof (C : Crypto) (hash : Hash) (s : Backend) :
    Go (Except String (Option TransactionProof)) :=
  match getTransaction hash s.store with
  | .error e => .ok (.error e)
  | .ok (none, _) => .ok (.ok none)
  | .ok (some tx, bn) =>
    if tx.bytes.length = 0 ∨ bn = 0 then .ok (.ok none)
    else
      match getBlockHeaderByNumber bn s.store with
      | .error e => .ok (.error e)
      | .ok h => do
          let (p, _) ← Smt.SparseMerkleTree.generateProof C.keccak s.store.trees.getChunk
            (Smt.keyOf tx.tokenID.toNat) (s.store.openTree h.transactionRoot)
          .ok (.ok (some ⟨tx.tokenID, tx.bytes, p, bn⟩))

end GoPlasma.Plasma
