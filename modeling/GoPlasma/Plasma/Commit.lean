import GoPlasma.Plasma.Records
import GoPlasma.Plasma.Backend

/-!
# Committing to the trees

`Commit` with the five sparse Merkle trees and the chunk store below them (`plasmachain/statedb.go`,
`storage.go`, `bloom.go`), and reading records from trees that are opened at a header.

The chunk store has two parts here: the chunks that are filed under their own hashes (records, bloom
filters and anchors), and the node chunks and Merkle roots of the trees. No chunk is looked up in
the part of the other kind. Which `SetChunk` calls fail is a parameter, `Faults`. The writes of a
flush are goroutines in the source; here they are done when `Commit` returns.

Two things in the code are not determined: in which order `range` visits a map, which is
`CommitOrder`, and how `sort.Slice` orders equal elements. The latter is a function of the slice.
-/

namespace GoPlasma.Plasma

/-! ## The bloom filter -/

/-- `ReverseBytes64` -/
def reverseBytes64 (k : UInt64) : UInt64 := bytesToUint64 (uInt64ToByte k).reverse

/-- The `i`-th 15-bit number in a key. -/
def bloomNumber (key : Bytes) (i : ℕ) : ℕ :=
  ((key.getD (i * 2) 0).toNat ||| (key.getD (i * 2 + 1) 0).toNat <<< 8) &&& 0x7FFF

/-- The bits of a token, in the order in which they are set. -/
def bloomBits (k : UInt64) : List ℕ :=
  (List.range 4).flatMap fun i =>
    [bloomNumber (uInt64ToByte k) i, bloomNumber (uInt64ToByte (reverseBytes64 k)) i]

/-- `b[n/8] |= uint8(1 << uint(n%8))` -/
def setBloomBit (b : Bytes) (n : ℕ) : Bytes :=
  b.modify (n / 8) fun x => x ||| (1 : UInt8) <<< UInt8.ofNat (n % 8)

/-- `NewBloom` -/
def newBloom (l : List UInt64) : Bytes :=
  l.foldl (fun b k => (bloomBits k).foldl setBloomBit b) (Bytes.zeros Smt.chunkSize)

/-- `(b[n/8] & (1 << uint(n%8))) != 0` -/
def bloomBit (b : Bytes) (n : ℕ) : Bool :=
  decide (b.getD (n / 8) 0 &&& (1 : UInt8) <<< UInt8.ofNat (n % 8) ≠ 0)

/-- `CheckBloom` -/
def checkBloom (b : Bytes) (k : UInt64) : Bool :=
  if b.length ≠ Smt.chunkSize then true else (bloomBits k).all (bloomBit b)

/-! ## The chunk store -/

/-- The chunk store. -/
structure Disk where
  /-- What is filed under its own hash. -/
  chunks : Smt.Store
  /-- The node chunks and the Merkle roots of the trees. -/
  nodes : Smt.Store

/-- The errors of `SetChunk`, by key. -/
abbrev Faults := Bytes → Option String

/-- No call fails. -/
def noFaults : Faults := fun _ => none

section
variable (C : Crypto)

/-- The key of a chunk. -/
def chunkKey (chunk : Bytes) : Bytes := (C.keccak chunk).1

/-- `SetChunk` of a chunk under its own hash. -/
def Disk.setChunk (F : Faults) (chunk : Bytes) (disk : Disk) : Except String Disk :=
  match F (chunkKey C chunk) with
  | some e => .error e
  | none => .ok { disk with chunks := (chunkKey C chunk, chunk) :: disk.chunks }

/-- `Flush` of a tree. The errors of `SetChunk` are logged and dropped. -/
def Disk.flush (F : Faults) (t : Smt.Node) (disk : Disk) : Go (Smt.Node × Disk) := do
  let (t, writes) ← Smt.SparseMerkleTree.flush C.keccak disk.nodes.getChunk t
  .ok (t, { disk with nodes := disk.nodes.setChunks (writes.filter fun w => (F w.1).isNone) })

end

/-! ## The trees -/

/-- `Storage` -/
structure TreeStorage where
  chunkStore : Disk
  transactionStorage : Smt.Node
  accountStorage : Smt.Node
  tokenStorage : Smt.Node
  anchorStorage : Smt.Node
  chainStorage : Smt.Node

/-- `NewStorage` -/
def newStorage (cs : Disk) : TreeStorage where
  chunkStore := cs
  transactionStorage := Smt.SparseMerkleTree.new
  accountStorage := Smt.SparseMerkleTree.new
  tokenStorage := Smt.SparseMerkleTree.new
  anchorStorage := Smt.SparseMerkleTree.new
  chainStorage := Smt.SparseMerkleTree.new

/-- `InitWithRoot` on a new tree. -/
def openTree (nodes : Smt.Reader) (root : Hash) : Smt.Node :=
  (Smt.SparseMerkleTree.initWithRoot nodes root Smt.SparseMerkleTree.new).2

/-- `NewStorage` and `InitTrie` with a header: the trees of transactions and anchors are new. -/
def openStorage (h : Header) (cs : Disk) : TreeStorage :=
  { newStorage cs with
    tokenStorage := openTree cs.nodes.getChunk h.tokenRoot
    accountStorage := openTree cs.nodes.getChunk h.accountRoot
    chainStorage := openTree cs.nodes.getChunk h.l3ChainRoot }

/-- The key of a token or of a chain. -/
def idKey (id : UInt64) : Smt.Key := Smt.keyOf id.toNat

/-! ## Reading -/

/-- The error of `rlp.Decode`; only the one for an empty string is told apart. -/
def decodeError (encoded : Bytes) : String :=
  if encoded = [] then "EOF" else "rlp: input does not match the record"

/-- What is read of a record: the value that the tree has for its key, the chunk under the value,
and the record in the chunk. -/
def readRecord {α : Type} (decode : Bytes → Option α) (chunks : Smt.Reader)
    (res : Smt.SparseMerkleTree.Found) : RecordRead α :=
  match res.err with
  | some e => .getErr e
  | none =>
    if res.found then
      match chunks res.v0 with
      | .err => .chunkErr "chunk not read"
      | .notFound => .chunkMissing
      | .found encoded =>
        match decode encoded with
        | none => .decodeErr (decodeError encoded)
        | some a => .record a
    else .notFound

/-- The storage of a state database: trees over a chunk store that is read with `read`. -/
def treeStorage (C : Crypto) (read : Smt.Store → Smt.Reader) : Storage TreeStorage where
  getToken tokenID st := do
    let (res, t) ← Smt.SparseMerkleTree.get C.keccak (read st.chunkStore.nodes) (idKey tokenID)
      st.tokenStorage
    .ok (readRecord Token.decode (read st.chunkStore.chunks) res, { st with tokenStorage := t })
  hasToken tokenID st := do
    let (res, t) ← Smt.SparseMerkleTree.get C.keccak (read st.chunkStore.nodes) (idKey tokenID)
      st.tokenStorage
    .ok (match res.err with
      | some e => .error e
      | none => .ok res.found, { st with tokenStorage := t })
  getAccount key st := do
    let (res, t) ← Smt.SparseMerkleTree.get C.keccak (read st.chunkStore.nodes) key
      st.accountStorage
    .ok (readRecord Account.decode (read st.chunkStore.chunks) res, { st with accountStorage := t })
  getChain chainID st := do
    let (res, t) ← Smt.SparseMerkleTree.get C.keccak (read st.chunkStore.nodes) (idKey chainID)
      st.chainStorage
    .ok (readRecord AnchorBlock.decode (read st.chunkStore.chunks) res,
      { st with chainStorage := t })
  setChunk key v st :=
    .ok (.ok (), { st with
      chunkStore := { st.chunkStore with chunks := (key, v) :: st.chunkStore.chunks } })

/-- The trees that `getHash` looks into. -/
inductive TreeType where
  | account
  | token
  | anchor
  | chain
  | transaction

/-- The root of a tree in a header. -/
def Header.root (h : Header) : TreeType → Hash
  | .account => h.accountRoot
  | .token => h.tokenRoot
  | .anchor => h.anchorRoot
  | .chain => h.l3ChainRoot
  | .transaction => h.transactionRoot

/-- `getHash`, for the header of the block. -/
def getHash (C : Crypto) (nodes : Smt.Reader) (h : Header) (treeType : TreeType) (index : UInt64) :
    Go (Except String (Bytes × Smt.Proof)) := do
  let (res, _) ← Smt.SparseMerkleTree.get C.keccak nodes (idKey index)
    (openTree nodes (h.root treeType))
  .ok (match res.p with
    | none => .error "Not found"
    | some p => if res.found then .ok (res.v0, p) else .error "Not found")

/-! ## Writing -/

/-- The orders in which `Commit` visits the maps. -/
structure CommitOrder extends MapOrder where
  anchors : List UInt64

/-- The orders are possible ones. -/
def CommitOrder.Valid (order : CommitOrder) (o : Objects) : Prop :=
  order.toMapOrder.Valid o ∧ Visits order.anchors o.atxList

/-- `sort.Slice` on anchors: some order by block numbers. -/
abbrev SortSlice :=
  {f : List AnchorTransaction → List AnchorTransaction //
    ∀ l, Sorts (fun a b => a.blockNumber < b.blockNumber) l (f l)}

namespace TreeStorage

section
variable (C : Crypto) (F : Faults)

/-- `Insert` into a tree. -/
def insert (cs : Disk) (key : Smt.Key) (v : Bytes) (t : Smt.Node) : Go Smt.Node :=
  Smt.SparseMerkleTree.insert cs.nodes.getChunk key v 0 0 t

/-- `Delete` of a token that is marked as exited, `Insert` of any other. -/
def putToken (cs : Disk) (tokenID : UInt64) (s : TokenObject) (t : Smt.Node) : Go Smt.Node :=
  if s.deleted then .ok (Smt.SparseMerkleTree.delete (idKey tokenID) t)
  else insert cs (idKey tokenID) (chunkKey C s.token.encode) t

/-- `updateTokenObject`; its errors are dropped. A missing entry of `thashList` gives the zero
hash. -/
def updateTokenObject (o : Objects) (tokenID : UInt64) (st : TreeStorage) : Go TreeStorage :=
  match o.tokenObjects.lookup tokenID with
  | none => .ok st
  | some s =>
    match st.chunkStore.setChunk C F s.token.encode with
    | .error _ => .ok st
    | .ok cs => do
        let tokens ← putToken C cs tokenID s st.tokenStorage
        let txs ← insert cs (idKey tokenID) ((o.thashList.lookup tokenID).getD zeroHash).1
          st.transactionStorage
        .ok { st with chunkStore := cs, tokenStorage := tokens, transactionStorage := txs }

/-- What `updateAccountObject` stores: nothing is left of an account that cannot be encoded. -/
def encodedAccount (a : Account) : Bytes :=
  match a.encode with
  | .error _ => []
  | .ok encoded => encoded

/-- `updateAccountObject`; it panics on a nil pointer, and its errors are dropped. -/
def updateAccountObject (o : Objects) (addr : Address) (st : TreeStorage) : Go TreeStorage :=
  match o.accountObjects.lookup addr with
  | none => .ok st
  | some none => .error .nilDereference
  | some (some a) =>
    match st.chunkStore.setChunk C F (encodedAccount a) with
    | .error _ => .ok st
    | .ok cs => do
        let accounts ← insert cs (shortAddr addr) (chunkKey C (encodedAccount a)) st.accountStorage
        .ok { st with chunkStore := cs, accountStorage := accounts }

/-- `updateChainObject`; its errors are dropped. -/
def updateChainObject (o : Objects) (chainID : UInt64) (st : TreeStorage) : Go TreeStorage :=
  match o.chainObjects.lookup chainID with
  | none => .ok st
  | some c =>
    match st.chunkStore.setChunk C F c.bytes with
    | .error _ => .ok st
    | .ok cs => do
        let chains ← insert cs (idKey chainID) (chunkKey C c.bytes) st.chainStorage
        .ok { st with chunkStore := cs, chainStorage := chains }

/-- The body of the loop over `atxList`: the encoding is stored under its hash, and the tree gets
the encoding itself. -/
def updateAnchor (sort : SortSlice) (o : Objects) (chainID : UInt64) (st : TreeStorage) :
    Go TreeStorage :=
  match o.atxList.lookup chainID with
  | none => .ok st
  | some a => do
      let a ← a.sort (sort.1 a.anchors)
      let cs := match st.chunkStore.setChunk C F a.bytes with
        | .error _ => st.chunkStore
        | .ok cs => cs
      let anchors ← insert cs (idKey chainID) a.bytes st.anchorStorage
      .ok { st with chunkStore := cs, anchorStorage := anchors }

/-- `StorePlasmaBloomFilter`, if there are tokens. -/
def storeBloom (tokens : List UInt64) (st : TreeStorage) : Except String (Hash × TreeStorage) :=
  if tokens = [] then .ok (zeroHash, st)
  else
    match st.chunkStore.setChunk C F (newBloom tokens) with
    | .error e => .error e
    | .ok cs => .ok (C.keccak (newBloom tokens), { st with chunkStore := cs })

/-- `Flush` of the storage. -/
def flush (st : TreeStorage) : Go TreeStorage := do
  let (transactionStorage, cs) ← st.chunkStore.flush C F st.transactionStorage
  let (accountStorage, cs) ← cs.flush C F st.accountStorage
  let (tokenStorage, cs) ← cs.flush C F st.tokenStorage
  let (anchorStorage, cs) ← cs.flush C F st.anchorStorage
  let (chainStorage, cs) ← cs.flush C F st.chainStorage
  .ok ⟨cs, transactionStorage, accountStorage, tokenStorage, anchorStorage, chainStorage⟩

end

/-- What `MakeHeaderHash` takes from the trees. -/
def sealing (time : UInt64) (bloomID : Hash) (st : TreeStorage) : Sealing where
  time := time
  bloomID := bloomID
  tokenRoot := Smt.SparseMerkleTree.merkleRoot st.tokenStorage
  accountRoot := Smt.SparseMerkleTree.merkleRoot st.accountStorage
  l3ChainRoot := Smt.SparseMerkleTree.merkleRoot st.chainStorage
  anchorRoot := Smt.SparseMerkleTree.merkleRoot st.anchorStorage
  sig := emptySlice

/-- `MakeHeaderHash` -/
def makeHeaderHash (time : UInt64) (blockNumber : ℕ) (parentHash bloomID : Hash)
    (st : TreeStorage) : Header :=
  makeHeader (st.sealing time bloomID) blockNumber parentHash
    (Smt.SparseMerkleTree.merkleRoot st.transactionStorage)

end TreeStorage

section
variable (C : Crypto) (F : Faults) (sort : SortSlice)

/-- The loops of `Commit` behind the bloom filter. -/
def commitObjects (order : CommitOrder) (o : Objects) (st : TreeStorage) : Go TreeStorage := do
  let st ← order.accounts.foldlM (fun st addr => st.updateAccountObject C F o addr) st
  let st ← order.chains.foldlM (fun st chainID => st.updateChainObject C F o chainID) st
  order.anchors.foldlM (fun st chainID => st.updateAnchor C F sort o chainID) st

/-- `Commit` at a time: the header, if the bloom filter could be stored. -/
def commitTrees (order : CommitOrder) (time : UInt64) (blockNumber : ℕ) (parentHash : Hash)
    (o : Objects) (st : TreeStorage) : Go (Except String Header × TreeStorage) := do
  let st ← order.tokens.foldlM (fun st tokenID => st.updateTokenObject C F o tokenID) st
  match st.storeBloom C F order.tokens with
  | .error e => .ok (.error e, st)
  | .ok (bloomID, st) => do
      let st ← commitObjects C F sort order o st
      let st ← st.flush C F
      .ok (.ok (st.makeHeaderHash time blockNumber parentHash bloomID), st)

end

end GoPlasma.Plasma
