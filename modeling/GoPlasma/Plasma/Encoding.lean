import GoPlasma.Plasma.Backend
import GoPlasma.Plasma.Records

/-!
# Raw transactions and blocks (`plasmachain/transaction.go`, `block.go`)

`BytesToTransaction`, and the encoding of a block in a chunk. `EncodeRLP` copies the fields of a
header by hand into `encHeader`, which is what is encoded, and `DecodeRLP` copies them back.

A chunk is read with `rlp.Decode`, which does not look at what comes behind the first item, and a
raw transaction with `rlp.DecodeBytes`, which does.
-/

namespace GoPlasma.Plasma

/-! ## Transactions -/

/-- Decode into a `Transaction`: the balance is not in the encoding. -/
def Transaction.ofItem : Rlp.Item → Option Transaction
  | .list [tokenID, denomination, depositIndex, prevBlock, prevOwner, recipient, allowance, spent,
      sig] => do
      let tokenID ← decodeUint64 tokenID
      let denomination ← decodeUint64 denomination
      let depositIndex ← decodeUint64 depositIndex
      let prevBlock ← decodeUint64 prevBlock
      let prevOwner ← decodeByteArray 20 prevOwner
      let recipient ← decodeByteArray 20 recipient
      let allowance ← decodeUint64 allowance
      let spent ← decodeUint64 spent
      let sig ← decodeByteSlice sig
      some ⟨tokenID, denomination, depositIndex, prevBlock, prevOwner, recipient, allowance, spent,
        sig, 0⟩
  | _ => none

/-- `DecodeRLPTransaction`; `none` is the nil pointer that comes with an error. -/
def decodeRLPTransaction (txbytes : Bytes) : Option Transaction :=
  Rlp.decodeBytes txbytes >>= Transaction.ofItem

/-- `BytesToTransaction`. It reads the fields before it looks at the error, and the sum is a
`uint64`. -/
def bytesToTransaction (txbytes : Bytes) : Go (Bool × Transaction) :=
  match decodeRLPTransaction txbytes with
  | none => .error .nilDereference
  | some tx =>
    if tx.denomination < tx.allowance + tx.spent then .ok (false, { tx with balance := 0 })
    else .ok (true, { tx with balance := tx.denomination - tx.allowance - tx.spent })

/-- A `Transaction` with its two addresses as the pointers that they are. -/
structure TransactionPtrs where
  tokenID : UInt64
  denomination : UInt64
  depositIndex : UInt64
  prevBlock : UInt64
  prevOwner : Option Address
  recipient : Option Address
  allowance : UInt64
  spent : UInt64
  sig : Slice
  balance : UInt64

/-- The encoding of a pointer to an address: a nil pointer is an empty string. -/
def addressPtr : Option Address → Rlp.Item
  | none => .str []
  | some a => .str a.1

/-- `Bytes` -/
def TransactionPtrs.bytes (tx : TransactionPtrs) : Bytes :=
  Rlp.encode (.list [Rlp.uint tx.tokenID.toNat, Rlp.uint tx.denomination.toNat,
    Rlp.uint tx.depositIndex.toNat, Rlp.uint tx.prevBlock.toNat, addressPtr tx.prevOwner,
    addressPtr tx.recipient, Rlp.uint tx.allowance.toNat, Rlp.uint tx.spent.toNat, .str tx.sig.1])

/-- `Hash` -/
def TransactionPtrs.hash (C : Crypto) (tx : TransactionPtrs) : Hash := C.keccak tx.bytes

/-- A transaction whose addresses are there. -/
def Transaction.ptrs (tx : Transaction) : TransactionPtrs where
  tokenID := tx.tokenID
  denomination := tx.denomination
  depositIndex := tx.depositIndex
  prevBlock := tx.prevBlock
  prevOwner := some tx.prevOwner
  recipient := some tx.recipient
  allowance := tx.allowance
  spent := tx.spent
  sig := tx.sig
  balance := tx.balance

/-! ## Headers -/

/-- `encHeader` -/
structure EncHeader where
  parentHash : Hash
  blockNumber : UInt64
  time : UInt64
  bloomID : Hash
  transactionRoot : Hash
  tokenRoot : Hash
  accountRoot : Hash
  l3ChainRoot : Hash
  anchorRoot : Hash
  sig : Slice

/-- The copies in `EncodeRLP` of a header. -/
def Header.data (hdr : Header) : EncHeader where
  parentHash := hdr.parentHash
  blockNumber := UInt64.ofNat hdr.blockNumber
  time := hdr.time
  bloomID := hdr.bloomID
  transactionRoot := hdr.transactionRoot
  tokenRoot := hdr.tokenRoot
  accountRoot := hdr.accountRoot
  l3ChainRoot := hdr.l3ChainRoot
  anchorRoot := hdr.anchorRoot
  sig := hdr.sig

/-- The copies in `DecodeRLP` of a header. -/
def EncHeader.header (data : EncHeader) : Header where
  parentHash := data.parentHash
  blockNumber := data.blockNumber.toNat
  time := data.time
  bloomID := data.bloomID
  transactionRoot := data.transactionRoot
  tokenRoot := data.tokenRoot
  accountRoot := data.accountRoot
  l3ChainRoot := data.l3ChainRoot
  anchorRoot := data.anchorRoot
  sig := data.sig

/-- What is encoded of an `encHeader`. -/
def EncHeader.item (data : EncHeader) : Rlp.Item :=
  .list [.str data.parentHash.1, Rlp.uint data.blockNumber.toNat, Rlp.uint data.time.toNat,
    .str data.bloomID.1, .str data.transactionRoot.1, .str data.tokenRoot.1,
    .str data.accountRoot.1, .str data.l3ChainRoot.1, .str data.anchorRoot.1, .str data.sig.1]

/-- Decode into an `encHeader`. -/
def EncHeader.ofItem : Rlp.Item → Option EncHeader
  | .list [parentHash, blockNumber, time, bloomID, transactionRoot, tokenRoot, accountRoot,
      l3ChainRoot, anchorRoot, sig] => do
      let parentHash ← decodeByteArray 32 parentHash
      let blockNumber ← decodeUint64 blockNumber
      let time ← decodeUint64 time
      let bloomID ← decodeByteArray 32 bloomID
      let transactionRoot ← decodeByteArray 32 transactionRoot
      let tokenRoot ← decodeByteArray 32 tokenRoot
      let accountRoot ← decodeByteArray 32 accountRoot
      let l3ChainRoot ← decodeByteArray 32 l3ChainRoot
      let anchorRoot ← decodeByteArray 32 anchorRoot
      let sig ← decodeByteSlice sig
      some ⟨parentHash, blockNumber, time, bloomID, transactionRoot, tokenRoot, accountRoot,
        l3ChainRoot, anchorRoot, sig⟩
  | _ => none

/-- `GetSigner` of a header: the hash that was signed is not wrapped. -/
def Header.getSigner (C : Crypto) (hdr : Header) : Except String Address := do
  let recoveredPub ← C.ecrecover (hdr.hash C).1 hdr.sig.1
  match recoveredPub with
  | [] => .error "invalid public key"
  | b :: rest =>
    if b ≠ 4 then .error "invalid public key"
    else .ok (addressOfPub C rest)

/-! ## Blocks -/

/-- `Body` -/
structure Body where
  layer2Transactions : List Transaction
  anchorTransactions : List AnchorTransaction

/-- `EncodeRLP` of a body: the two lists, through `encBody`. -/
def Body.item (bo : Body) : Rlp.Item :=
  .list [.list (bo.layer2Transactions.map fun tx => .list (tx.fields tx.sig.1)),
    .list (bo.anchorTransactions.map AnchorTransaction.item)]

/-- `DecodeRLP` of a body. -/
def Body.ofItem : Rlp.Item → Option Body
  | .list [layer2Transactions, anchorTransactions] => do
      let layer2Transactions ← decodeListSlice Transaction.ofItem layer2Transactions
      let anchorTransactions ← decodeListSlice AnchorTransaction.ofItem anchorTransactions
      some ⟨layer2Transactions, anchorTransactions⟩
  | _ => none

/-- The `Block` of `block.go`: a header and a body. -/
structure ChunkBlock where
  header : Header
  body : Body

/-- `EncodeRLP` of a block: header and body, through `encBlock`. -/
def ChunkBlock.item (b : ChunkBlock) : Rlp.Item := .list [b.header.data.item, b.body.item]

/-- `DecodeRLP` of a block. -/
def ChunkBlock.ofItem : Rlp.Item → Option ChunkBlock
  | .list [header, body] => do
      let data ← EncHeader.ofItem header
      let body ← Body.ofItem body
      some ⟨data.header, body⟩
  | _ => none

/-- `BlockToChunk` -/
def ChunkBlock.blockToChunk (b : ChunkBlock) : Bytes := Rlp.encode b.item

/-- `FromChunk`; `none` is nil. -/
def fromChunk (chunk : Bytes) : Option ChunkBlock := Rlp.decode chunk >>= ChunkBlock.ofItem

/-- `Hash` of a block. -/
def ChunkBlock.hash (C : Crypto) (b : ChunkBlock) : Hash :=
  C.keccak (Rlp.encode (.list [b.header.data.item,
    .list (b.body.layer2Transactions.map fun tx => .list (tx.fields tx.sig.1)),
    .list (b.body.anchorTransactions.map AnchorTransaction.item)]))

/-- The header and the body of a block of the node. -/
def SealedBlock.chunkBlock (b : SealedBlock) : ChunkBlock :=
  ⟨b.header, ⟨b.block.transactions, b.block.anchors⟩⟩

end GoPlasma.Plasma
